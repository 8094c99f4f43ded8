import Mathlib.Data.List.Basic
import Columnar.Pool
import Columnar.Proofs.Step

/-!
# What is free and what is held

A slot is free or held, and an allocator moves it from the one to the other.  It never makes a
slot, loses one or doubles one: what is free of a kind, together with the indices of the slots that
were handed out, stays the same up to its order.

* `Slot.indices kind slots`   the indices of the slots of a kind;
* `Pools.free kind`           the free indices of a kind;
* `Pools.acquire_cases`       what taking a slot does;
* `Pools.Moves p held p' held'` what moving slots between pools and holders keeps;
* `Pools.acquireAll_moves`    slots for several records are all taken, or none is;
* `Pools.acquireAll_ok`       they are taken while there are enough of each kind.
-/

namespace Columnar

/-- the indices of the slots of a kind -/
def Slot.indices (kind : RecordKind) (slots : List Slot) : List Nat :=
  (slots.filter (·.kind = kind)).map Slot.index

namespace Slot

variable {kind : RecordKind}

theorem indices_append (ss ts : List Slot) :
    indices kind (ss ++ ts) = indices kind ss ++ indices kind ts := by
  rw [indices, List.filter_append, List.map_append]
  rfl

theorem indices_cons (s : Slot) (ss : List Slot) :
    indices kind (s :: ss) = indices kind [s] ++ indices kind ss :=
  indices_append [s] ss

theorem indices_single (s : Slot) :
    indices kind [s] = if s.kind = kind then [s.index] else [] := by
  rw [indices]
  by_cases h : s.kind = kind <;> simp [h]

theorem indices_perm (kind : RecordKind) {ss ts : List Slot} (h : ss.Perm ts) :
    (indices kind ss).Perm (indices kind ts) :=
  (h.filter _).map _

end Slot

namespace Pools

/-- the indices of a kind that nobody holds, the next one first -/
def free (p : Pools) (kind : RecordKind) : List Nat := ((p.pool? kind).map Pool.free).getD []

theorem available_eq (p : Pools) (kind : RecordKind) : p.available kind = (p.free kind).length := by
  rw [available, free]
  cases p.pool? kind <;> rfl

theorem mem_kinds {p : Pools} {kind : RecordKind} : kind ∈ kinds ↔ (p.pool? kind).isSome := by
  cases kind <;> simp [kinds, pool?]

theorem pool?_setPool (p : Pools) (kind k : RecordKind) (q : Pool) :
    (p.setPool kind q).pool? k = if k = kind then (p.pool? k).map fun _ => q else p.pool? k := by
  cases kind <;> cases k <;> rfl

/-! ## one slot -/

/-- a change of the pool of one kind that leaves its capacity -/
theorem capacity_setPool {p : Pools} {kind : RecordKind} {q : Pool} (h : p.pool? kind = some q)
    (fs : List Nat) (k : RecordKind) :
    (p.setPool kind { q with free := fs }).capacity k = p.capacity k := by
  rw [capacity, capacity, pool?_setPool]
  by_cases hk : k = kind
  · subst hk
    rw [if_pos rfl, h]
    rfl
  · rw [if_neg hk]

theorem free_setPool {p : Pools} {kind : RecordKind} {q : Pool} (h : p.pool? kind = some q)
    (fs : List Nat) (k : RecordKind) :
    (p.setPool kind { q with free := fs }).free k = if k = kind then fs else p.free k := by
  rw [free, free, pool?_setPool]
  by_cases hk : k = kind
  · subst hk
    rw [if_pos rfl, if_pos rfl, h]
    rfl
  · rw [if_neg hk, if_neg hk]

/-- the next free slot of a kind is taken, or there is none and nothing changes -/
theorem acquire_cases (kind : RecordKind) (p : Pools) :
    (∃ i fs p', p.free kind = i :: fs ∧ acquire kind p = (.ok ⟨kind, i⟩, p') ∧
      (∀ k, p'.free k = if k = kind then fs else p.free k) ∧
      ∀ k, p'.capacity k = p.capacity k) ∨
    (p.free kind = [] ∧ ∃ e, acquire kind p = (.error e, p)) := by
  rcases hpool : p.pool? kind with _ | q
  · refine .inr ⟨by rw [free, hpool]; rfl, Fault.notPooled kind, ?_⟩
    rw [acquire, Step.state_bind, hpool]
    rfl
  · have hfree : p.free kind = q.free := by rw [free, hpool]; rfl
    rcases hq : q.free with _ | ⟨i, fs⟩
    · refine .inr ⟨hfree.trans hq, Fault.poolExhausted kind q.capacity, ?_⟩
      rw [acquire, Step.state_bind, hpool]
      dsimp only
      rw [hq]
      rfl
    · refine .inl ⟨i, fs, p.setPool kind { q with free := fs }, hfree.trans hq, ?_,
        free_setPool hpool fs, capacity_setPool hpool fs⟩
      rw [acquire, Step.state_bind, hpool]
      dsimp only
      rw [hq]
      rfl

theorem capacity_release (p : Pools) (s : Slot) (k : RecordKind) :
    (p.release s).capacity k = p.capacity k := by
  rw [release]
  split
  · rfl
  · rename_i q hpool
    exact capacity_setPool hpool _ k

/-- a slot that is given back is the next one to be taken -/
theorem free_release (p : Pools) (s : Slot) {k : RecordKind} (hk : k ∈ kinds) :
    (p.release s).free k = Slot.indices k [s] ++ p.free k := by
  rw [Slot.indices_single, release]
  split
  · rename_i hpool
    have hne : s.kind ≠ k := by
      rintro rfl
      rw [mem_kinds (p := p), hpool] at hk
      cases hk
    rw [if_neg hne]
    rfl
  · rename_i q hpool
    rw [free_setPool hpool]
    by_cases h : k = s.kind
    · subst h
      rw [if_pos rfl, if_pos rfl, free, hpool]
      rfl
    · rw [if_neg h, if_neg (Ne.symm h)]
      rfl

/-! ## several slots -/

theorem capacity_releaseAll (slots : List Slot) (p : Pools) (k : RecordKind) :
    (p.releaseAll slots).capacity k = p.capacity k := by
  induction slots generalizing p with
  | nil => rfl
  | cons s slots ih => exact (ih (p.release s)).trans (capacity_release p s k)

theorem free_releaseAll (slots : List Slot) (p : Pools) {k : RecordKind} (hk : k ∈ kinds) :
    ((p.releaseAll slots).free k).Perm (Slot.indices k slots ++ p.free k) := by
  induction slots generalizing p with
  | nil => exact .refl _
  | cons s slots ih =>
    calc ((p.releaseAll (s :: slots)).free k).Perm (Slot.indices k slots ++ (p.release s).free k) :=
          ih (p.release s)
      _ = Slot.indices k slots ++ (Slot.indices k [s] ++ p.free k) := by rw [free_release p s hk]
      _ = (Slot.indices k slots ++ Slot.indices k [s]) ++ p.free k := (List.append_assoc ..).symm
      List.Perm _ (Slot.indices k (s :: slots) ++ p.free k) := by
          rw [Slot.indices_cons s slots]
          exact List.perm_append_comm.append_right _

/-- slots that move between pools and their holders: the capacities stay, and of each kind the
slots `held` before, with what was free, are the slots `held'` after, with what is free then -/
structure Moves (p : Pools) (held : List Slot) (p' : Pools) (held' : List Slot) : Prop where
  capacity : ∀ k, p'.capacity k = p.capacity k
  slots : ∀ k ∈ kinds,
    (p'.free k ++ Slot.indices k held').Perm (p.free k ++ Slot.indices k held)

namespace Moves

variable {p p' p'' : Pools} {ss ss' ss'' ts : List Slot}

theorem refl (p : Pools) (ss : List Slot) : Moves p ss p ss := ⟨fun _ => rfl, fun _ _ => .refl _⟩

theorem trans (h : Moves p ss p' ss') (h' : Moves p' ss' p'' ss'') : Moves p ss p'' ss'' :=
  ⟨fun k => (h'.capacity k).trans (h.capacity k), fun k hk => (h'.slots k hk).trans (h.slots k hk)⟩

/-- slots that others hold stay where they are -/
theorem frame (h : Moves p ss p' ss') (ts : List Slot) : Moves p (ss ++ ts) p' (ss' ++ ts) where
  capacity := h.capacity
  slots k hk := by
    rw [Slot.indices_append, Slot.indices_append, ← List.append_assoc, ← List.append_assoc]
    exact (h.slots k hk).append_right _

/-- it does not matter in which order the slots are held -/
theorem perm (h : Moves p ss p' ss') {ts ts' : List Slot} (hts : ss.Perm ts) (hts' : ss'.Perm ts') :
    Moves p ts p' ts' where
  capacity := h.capacity
  slots k hk := by
    have hbefore := (Slot.indices_perm k hts).append_left (p.free k)
    have hafter := (Slot.indices_perm k hts').append_left (p'.free k)
    exact hafter.symm.trans ((h.slots k hk).trans hbefore)

/-- as many slots of each kind are free when as many are held -/
theorem available (h : Moves p ss p' ss') (hss : ss'.Perm ss) (k : RecordKind) :
    p'.available k = p.available k := by
  by_cases hk : k ∈ kinds
  · have hlen := (h.slots k hk).length_eq
    rw [List.length_append, List.length_append, (Slot.indices_perm k hss).length_eq] at hlen
    rw [available_eq, available_eq]
    exact Nat.add_right_cancel hlen
  · have hnone (q : Pools) : q.pool? k = none := by
      rw [mem_kinds (p := q), Bool.not_eq_true, Option.isSome_eq_false_iff] at hk
      exact Option.isNone_iff_eq_none.mp hk
    rw [Pools.available, Pools.available, hnone, hnone]

end Moves

/-- a slot that is taken is held from then on -/
theorem acquire_moves {kind : RecordKind} {s : Slot} {p p' : Pools}
    (h : acquire kind p = (.ok s, p')) : s.kind = kind ∧ Moves p [] p' [s] := by
  rcases acquire_cases kind p with ⟨i, fs, q, hfree, hok, hrest, hcapacity⟩ | ⟨-, e, herror⟩
  · rw [hok] at h
    cases h
    refine ⟨rfl, hcapacity, fun k _ => ?_⟩
    rw [hrest k, Slot.indices_single]
    by_cases hk : k = kind
    · subst hk
      rw [if_pos rfl, if_pos rfl, hfree]
      exact (List.append_nil (i :: fs)).symm ▸ List.perm_append_comm
    · rw [if_neg hk, if_neg (Ne.symm hk)]
      exact .refl _
  · rw [herror] at h
    cases h

theorem acquire_error {kind : RecordKind} {e : Error} {p p' : Pools}
    (h : acquire kind p = (.error e, p')) : p' = p := by
  rcases acquire_cases kind p with ⟨i, fs, q, -, hok, -⟩ | ⟨-, e', herror⟩
  · rw [hok] at h
    cases h
  · rw [herror] at h
    cases h
    rfl

/-- slots that are given back are held no more -/
theorem release_moves (p : Pools) (s : Slot) : Moves p [s] (p.release s) [] where
  capacity := capacity_release p s
  slots k hk := by
    rw [free_release p s hk]
    exact (List.append_nil _).symm ▸ List.perm_append_comm

theorem releaseAll_moves (p : Pools) (slots : List Slot) :
    Moves p slots (p.releaseAll slots) [] where
  capacity := capacity_releaseAll slots p
  slots k hk := by
    refine (List.append_nil _).symm ▸ ?_
    exact (free_releaseAll slots p hk).trans List.perm_append_comm

/-- a slot is taken for each record, or those that were taken are given back -/
theorem acquireAll_moves (kinds : List RecordKind) :
    ∀ (held : List Slot) (p : Pools), Step.Ends
      (fun slots p' => Moves p held p' slots ∧
        slots.map Slot.kind = held.reverse.map Slot.kind ++ kinds)
      (fun _ p' => Moves p held p' []) (acquireAll kinds held p) := by
  induction kinds with
  | nil =>
    intro held p
    refine ⟨(Moves.refl p held).perm (.refl _) (List.reverse_perm held).symm, ?_⟩
    rw [List.append_nil]
  | cons kind kinds ih =>
    intro held p
    rcases hacquire : acquire kind p with ⟨e | s, p₁⟩
    · obtain rfl := acquire_error hacquire
      rw [acquireAll, hacquire]
      exact (releaseAll_moves p₁ held.reverse).perm (List.reverse_perm held) (.refl _)
    · obtain ⟨hkind, hmoves⟩ := acquire_moves hacquire
      have hheld : Moves p held p₁ (s :: held) := hmoves.frame held
      rw [acquireAll, hacquire]
      refine (ih (s :: held) p₁).mono (fun slots p' h => ⟨hheld.trans h.1, ?_⟩)
        fun e p' h => hheld.trans h
      rw [h.2, List.reverse_cons, List.map_append, List.append_assoc]
      show _ ++ ([s.kind] ++ kinds) = _
      rw [hkind]
      rfl

/-! ## enough free slots -/

theorem acquire_ok {p : Pools} {kind : RecordKind} (h : 0 < p.available kind) :
    ∃ s p', acquire kind p = (.ok s, p') ∧
      ∀ k, p.available k = p'.available k + if k = kind then 1 else 0 := by
  rcases acquire_cases kind p with ⟨i, fs, p', hfree, hok, hrest, -⟩ | ⟨hfree, -⟩
  · refine ⟨_, p', hok, fun k => ?_⟩
    rw [available_eq, available_eq, hrest k]
    by_cases hk : k = kind
    · rw [if_pos hk, if_pos hk, hk, hfree, List.length_cons]
    · rw [if_neg hk, if_neg hk, Nat.add_zero]
  · rw [available_eq, hfree] at h
    exact absurd h (Nat.lt_irrefl 0)

theorem acquireAll_ok (kinds : List RecordKind) : ∀ (held : List Slot) {p : Pools},
    (∀ kind, kinds.count kind ≤ p.available kind) →
    ∃ slots p', acquireAll kinds held p = (.ok slots, p') := by
  induction kinds with
  | nil => exact fun held p _ => ⟨held.reverse, p, rfl⟩
  | cons kind kinds ih =>
    intro held p h
    have hpos : 0 < p.available kind := by
      have := h kind
      rw [List.count_cons_self] at this
      omega
    obtain ⟨s, p', hs, hleft⟩ := acquire_ok hpos
    have hrest : ∀ k, kinds.count k ≤ p'.available k := by
      intro k
      have hk := h k
      have hl := hleft k
      rw [List.count_cons] at hk
      by_cases he : kind = k
      · subst he
        rw [beq_self_eq_true, if_pos rfl] at hk
        rw [if_pos rfl] at hl
        omega
      · rw [beq_eq_false_iff_ne.mpr he, if_neg (fun h => nomatch h)] at hk
        rw [if_neg (Ne.symm he)] at hl
        omega
    obtain ⟨slots, p'', hall⟩ := ih (s :: held) hrest
    refine ⟨slots, p'', ?_⟩
    rw [acquireAll, hs]
    exact hall

end Pools

end Columnar
