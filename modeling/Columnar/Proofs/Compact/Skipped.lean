import Columnar.Proofs.Compact.Tree

/-!
# Trees of values are skipped

A reader that knows a value by its type alone skips what a writer wrote for it, and no more.  In a
list a boolean is a byte, and in a field it is part of the header; a struct leaves the last field
of the struct around it.

* `Tree.height`          how many levels a value has;
* `Tree.lists`           the type in the header of each list in a tree, and those of its elements;
* `Tree.Natural o v`     a value whose lists hold what their headers say, with fields of natural
                         numbers, within the limits of `o`;
* `Tree.skipped`         what is written for a value is skipped, by induction on the value;
* `Tree.skip_written`    a value on its own, and a field of a struct with the fields behind it.
-/

namespace Columnar.Compact

namespace Tree

mutual

/-- how many levels a value has; one that holds no others has one -/
def height : Tree → Nat
  | list _ vs => elemHeight vs + 1
  | struct fs => fieldHeight fs + 1
  | _ => 1

def elemHeight : List Tree → Nat
  | [] => 0
  | v :: vs => max v.height (elemHeight vs)

def fieldHeight : List (Int16 × Tree) → Nat
  | [] => 0
  | (_, v) :: fs => max v.height (fieldHeight fs)

end

mutual

/-- the type in the header of each list, and the types of the elements behind it -/
def lists : Tree → List (WireType × List WireType)
  | list t vs => (t, vs.map type) :: elemLists vs
  | struct fs => fieldLists fs
  | _ => []

def elemLists : List Tree → List (WireType × List WireType)
  | [] => []
  | v :: vs => v.lists ++ elemLists vs

def fieldLists : List (Int16 × Tree) → List (WireType × List WireType)
  | [] => []
  | (_, v) :: fs => v.lists ++ fieldLists fs

end

/-- a value within the limits of `o`, whose lists hold what their headers say and whose fields have
natural numbers -/
structure Natural (o : Options) (v : Tree) : Prop where
  within : ∀ e ∈ v.events, e.Within o
  lists : ∀ l ∈ v.lists, ∀ t ∈ l.2, t = l.1
  structs : ∀ ids ∈ v.structs, ∀ id ∈ ids, 0 ≤ id.toInt

/-- the numbers are looked up in their lists, and not among all of 16 bits -/
instance (o : Options) (v : Tree) : Decidable (v.Natural o) :=
  decidable_of_iff ((∀ e ∈ v.events, e.Within o) ∧ (∀ l ∈ v.lists, ∀ t ∈ l.2, t = l.1) ∧
      (v.structs.all fun ids => ids.all fun id => decide (0 ≤ id.toInt)) = true)
    ⟨fun ⟨hwithin, hlists, hstructs⟩ => ⟨hwithin, hlists, by simpa using hstructs⟩,
      fun h => ⟨h.within, h.lists, by simpa using h.structs⟩⟩

end Tree

variable {o : Options} {d k : Nat} {i : Int16}

/-- natural numbers lie close enough behind a natural number -/
theorem steady_of_natural {ids : List Int16} (hi : 0 ≤ i.toInt) (h : ∀ id ∈ ids, 0 ≤ id.toInt) :
    Steady i ids := by
  induction ids generalizing i with
  | nil => trivial
  | cons id ids ih =>
    obtain ⟨hid, hids⟩ := List.forall_mem_cons.mp h
    exact ⟨step_lt hi, ih hid hids⟩

theorem Tree.Natural.steady {v : Tree} (h : v.Natural o) : ∀ ids ∈ v.structs, Steady 0 ids :=
  fun ids hids => steady_of_natural (Int.le_refl 0) (h.structs ids hids)

/-! ## calls that are skipped -/

/-- calls to a writer one after the other, and two steps of a reader -/
theorem carried_append {α β : Type} {es fs : List Event} {y : Read α} {f : α → Read β} {a : α}
    {b : β} (h : Carried o d (writes es) y a) (h' : Carried o d (writes fs) (f a) b) :
    Carried o d (writes (es ++ fs)) (y >>= f) b := by
  obtain ⟨s, hs⟩ := h
  obtain ⟨u, hu⟩ := h'
  refine ⟨s ++ u, fun i => ⟨?_, Read.takes_bind (hs i).2 (hu i).2⟩⟩
  rw [writes_append]
  exact Write.emits_add (hs i).1 (hu i).1

/-- a value that is carried is read for its extent -/
theorem carried_extent {α : Type} {e : Event} {y : Read α} {a : α} (h : Carried o d e.write y a) :
    Carried o d (writes [e]) (do let _ ← y) () := by
  obtain ⟨s, hs⟩ := h
  refine ⟨s, fun i => ⟨?_, Read.takes_bind_pure (hs i).2 (Read.takes_pure ())⟩⟩
  rw [writes_singleton]
  exact (hs i).1

/-- a field whose value is skipped; that of a boolean is in its header -/
theorem Tree.skipped_field {v : Tree} {id : Int16} (hstep : id.toInt - i.toInt < 2 ^ 15)
    (hheight : v.height ≤ k) (hv : Carried o d (writes v.events) (Read.skipWithin k v.type) ()) :
    FieldCarriedFrom o d i v.type id (writes v.events) (Read.skipWithin k v.type) () := by
  by_cases hbool : v.type = .bool
  · obtain ⟨b, rfl⟩ : ∃ b, v = .bool b := by
      cases v <;> first | exact ⟨_, rfl⟩ | cases hbool
    obtain ⟨k, rfl⟩ := Nat.exists_eq_succ_of_ne_zero (Nat.ne_of_gt hheight)
    obtain ⟨s, hne, hw, hr⟩ := fieldCarriedFrom_bool (o := o) (d := d) b hstep
    refine ⟨s, hne, ?_, fun r before rest hat hc => ?_⟩
    · rw [Tree.events, writes_singleton]
      exact hw
    · obtain ⟨r', hbegin, hbody⟩ := hr r before rest hat hc
      exact ⟨r', hbegin, Step.bind_ok hbody _⟩
  · have hstop : v.type ≠ .stop := by
      cases v <;> exact WireType.noConfusion
    exact fieldCarriedFrom_of_carried hbool hstop hstep hv

/-- the fields of a struct, written behind the field `i`, are skipped with the byte that ends
it -/
def FieldsSkipped (o : Options) (d k : Nat) (i : Int16) (fs : List (Int16 × Tree)) : Prop :=
  ∃ s j, Write.Emits d i j (writes (Tree.fieldEvents fs)) s s.length ∧
    ∀ fuel, s.length < fuel → Read.Takes o d i j
      (Read.foldFields (fun _ t _ => Read.skipWithin k t) fuel ()) (s ++ [0]) ()

theorem fieldsSkipped_nil : FieldsSkipped o d k i [] := by
  refine ⟨[], i, Write.emits_pure 0, fun fuel hfuel => ?_⟩
  obtain ⟨fuel, rfl⟩ := Nat.exists_eq_succ_of_ne_zero (Nat.ne_of_gt hfuel)
  exact Read.takes_bind_pure takes_stop (Read.takes_pure ())

theorem fieldsSkipped_cons {id : Int16} {v : Tree} {fs : List (Int16 × Tree)}
    (h : FieldCarriedFrom o d i v.type id (writes v.events) (Read.skipWithin k v.type) ())
    (h' : FieldsSkipped o d k id fs) : FieldsSkipped o d k i ((id, v) :: fs) := by
  obtain ⟨s, hne, hw, hr⟩ := h
  obtain ⟨u, j, hws, hrs⟩ := h'
  refine ⟨s ++ u, j, ?_, fun fuel hfuel r before rest hat hc => ?_⟩
  · rw [Tree.fieldEvents, writes_append, writes_field]
    exact Write.emits_add hw hws
  · obtain ⟨fuel, rfl⟩ := Nat.exists_eq_succ_of_ne_zero (Nat.ne_of_gt (Nat.zero_lt_of_lt hfuel))
    rw [List.length_append] at hfuel
    have hpos := List.length_pos_iff.mpr hne
    have hc' : r.cursor = ⟨before, s ++ (u ++ [0] ++ rest)⟩ := by
      rw [hc]
      simp only [List.append_assoc]
    obtain ⟨r', hbegin, hbody⟩ := hr r before (u ++ [0] ++ rest) hat hc'
    have htail := hrs fuel (by omega)
      { r with cursor := ⟨s.reverse ++ before, u ++ [0] ++ rest⟩, lastField := id }
      (s.reverse ++ before) rest ⟨⟨hat.limits.1, hat.limits.2⟩, rfl, hat.pending, hat.depth⟩ rfl
    rw [Read.foldFields, Step.bind_ok hbegin]
    refine (Step.bind_ok hbody _).trans (htail.trans ?_)
    simp only [List.reverse_append, List.append_assoc]

/-! ## trees that are skipped -/

mutual

/-- what is written for a value of at most `k` levels is skipped -/
theorem Tree.skipped (o : Options) : ∀ (v : Tree) (d k : Nat), v.depth ≤ d → v.height ≤ k →
    (∀ e ∈ v.events, e.Within o) → (∀ l ∈ v.lists, ∀ t ∈ l.2, t = l.1) →
    (∀ ids ∈ v.structs, Steady 0 ids) →
    Carried o d (writes v.events) (Read.skipWithin k v.type) ()
  | v, d, 0, _, hheight, _, _, _ => by
    cases v <;> exact absurd hheight (Nat.not_succ_le_zero _)
  | .bool b, d, k + 1, _, _, _, _, _ => carried_extent (e := .bool b) (carried_bool b)
  | .i8 n, d, k + 1, _, _, _, _, _ => carried_extent (e := .i8 n) (carried_i8 n)
  | .i16 n, d, k + 1, _, _, _, _, _ => carried_extent (e := .i16 n) (carried_i16 n)
  | .i32 n, d, k + 1, _, _, _, _, _ => carried_extent (e := .i32 n) (carried_i32 n)
  | .i64 n, d, k + 1, _, _, _, _, _ => carried_extent (e := .i64 n) (carried_i64 n)
  | .double bits, d, k + 1, _, _, _, _, _ =>
    carried_extent (e := .double bits) (carried_double bits)
  | .binary bs, d, k + 1, _, _, hwithin, _, _ =>
    carried_extent (e := .binary bs) (carried_binary (hwithin _ (List.mem_singleton_self _)))
  | .string s, d, k + 1, _, _, hwithin, _, _ =>
    carried_extent (e := .string s) (carried_binary (hwithin _ (List.mem_singleton_self _)))
  | .list t vs, d, k + 1, hdepth, hheight, hwithin, hlists, hsteady => by
    obtain ⟨hsize, helems⟩ := List.forall_mem_cons.mp hwithin
    obtain ⟨htypes, hinner⟩ := List.forall_mem_cons.mp hlists
    have hheader : Carried o d (writes [.list t vs.length]) Read.listBegin (t, vs.length) := by
      rw [writes_singleton]
      exact carried_listBegin t (by decide) hsize
    exact carried_append hheader (Tree.elems_skipped o vs d k t hdepth
      (Nat.le_of_succ_le_succ hheight) (fun v hv => htypes _ (List.mem_map_of_mem hv)) helems hinner
      hsteady)
  | .struct fs, 0, k + 1, hdepth, _, _, _, _ => absurd hdepth (Nat.not_succ_le_zero _)
  | .struct fs, d + 1, k + 1, hdepth, hheight, hwithin, hlists, hsteady => by
    obtain ⟨hids, hinner⟩ := List.forall_mem_cons.mp hsteady
    have hfields : ∀ e ∈ Tree.fieldEvents fs, e.Within o := fun e he =>
      hwithin e (List.mem_cons_of_mem _ (List.mem_append_left _ he))
    obtain ⟨s, j, hw, hr⟩ := Tree.fields_skipped o fs d k 0 (Nat.le_of_succ_le_succ hdepth)
      (Nat.le_of_succ_le_succ hheight) hfields hlists hinner hids
    refine ⟨s ++ [0], fun i => ⟨?_, takes_struct fun fuel hfuel => hr fuel ?_⟩⟩
    · rw [Tree.events, writes_struct]
      exact emits_struct hw
    · rw [List.length_append] at hfuel
      exact Nat.lt_of_le_of_lt (Nat.le_add_right _ _) hfuel

theorem Tree.elems_skipped (o : Options) : ∀ (vs : List Tree) (d k : Nat) (t : WireType),
    Tree.elemDepth vs ≤ d → Tree.elemHeight vs ≤ k → (∀ v ∈ vs, v.type = t) →
    (∀ e ∈ Tree.elemEvents vs, e.Within o) → (∀ l ∈ Tree.elemLists vs, ∀ t ∈ l.2, t = l.1) →
    (∀ ids ∈ Tree.elemStructs vs, Steady 0 ids) →
    Carried o d (writes (Tree.elemEvents vs)) (Step.replicate vs.length (Read.skipWithin k t)) ()
  | [], d, k, t, _, _, _, _, _, _ => ⟨[], fun _ => ⟨Write.emits_pure 0, Read.takes_pure ()⟩⟩
  | v :: vs, d, k, t, hdepth, hheight, htypes, hwithin, hlists, hsteady => by
    obtain ⟨hd, hds⟩ := Nat.max_le.mp hdepth
    obtain ⟨hk, hks⟩ := Nat.max_le.mp hheight
    obtain ⟨ht, hts⟩ := List.forall_mem_cons.mp htypes
    obtain ⟨hw, hws⟩ := List.forall_mem_append.mp hwithin
    obtain ⟨hl, hls⟩ := List.forall_mem_append.mp hlists
    obtain ⟨hst, hsts⟩ := List.forall_mem_append.mp hsteady
    rw [List.length_cons, Step.replicate_succ]
    exact carried_append (ht ▸ Tree.skipped o v d k hd hk hw hl hst)
      (Tree.elems_skipped o vs d k t hds hks hts hws hls hsts)

theorem Tree.fields_skipped (o : Options) : ∀ (fs : List (Int16 × Tree)) (d k : Nat) (i : Int16),
    Tree.fieldDepth fs ≤ d → Tree.fieldHeight fs ≤ k → (∀ e ∈ Tree.fieldEvents fs, e.Within o) →
    (∀ l ∈ Tree.fieldLists fs, ∀ t ∈ l.2, t = l.1) →
    (∀ ids ∈ Tree.fieldStructs fs, Steady 0 ids) → Steady i (fs.map Prod.fst) →
    FieldsSkipped o d k i fs
  | [], d, k, i, _, _, _, _, _, _ => fieldsSkipped_nil
  | (id, v) :: fs, d, k, i, hdepth, hheight, hwithin, hlists, hinner, hids => by
    obtain ⟨hd, hds⟩ := Nat.max_le.mp hdepth
    obtain ⟨hk, hks⟩ := Nat.max_le.mp hheight
    obtain ⟨hfield, hws⟩ := List.forall_mem_append.mp hwithin
    have hw : ∀ e ∈ v.events, e.Within o := fun e he =>
      hfield e (List.mem_cons_of_mem _ (List.mem_append_left _ he))
    obtain ⟨hl, hls⟩ := List.forall_mem_append.mp hlists
    obtain ⟨hst, hsts⟩ := List.forall_mem_append.mp hinner
    exact fieldsSkipped_cons
      (Tree.skipped_field hids.1 hk (Tree.skipped o v d k hd hk hw hl hst))
      (Tree.fields_skipped o fs d k id hds hks hws hls hsts hids.2)

end

/-! ## skipping what was written -/

/-- behind the header of a field, its number is that of the last field -/
theorem fieldBegin_lastField {r r' : Reader} {t : WireType} {id : Int16}
    (h : Read.fieldBegin r = (.ok (some (t, id)), r')) : r'.lastField = id := by
  obtain ⟨b, r₁, -, h₁⟩ := Step.bind_eq_ok.mp h
  split at h₁
  · cases h₁
  · obtain ⟨t', r₂, -, h₂⟩ := Step.bind_eq_ok.mp h₁
    rw [Read.holdBack, Step.update_bind] at h₂
    obtain ⟨id', r₃, -, h₃⟩ := Step.bind_eq_ok.mp h₂
    cases h₃
    rfl

/-- what a writer writes for a value on its own is skipped, and the reader stands behind it and is
else as it was -/
def Tree.SkippedAlone (o : Options) (v : Tree) : Prop :=
  ∃ bs : Bytes,
    (∀ w : Writer, w.sink.Open → w.pendingBool = none →
      w.enclosing.length + v.depth ≤ maxStructDepth →
      ∃ z : Sink, writes v.events w = (.ok bs.length, { w with sink := z }) ∧
        z.bytes = w.sink.bytes ++ bs) ∧
    ∀ (r : Reader) (before rest : Bytes), r.Obeys o → r.pendingBool = none →
      r.enclosing.length + v.depth ≤ maxStructDepth → r.cursor = ⟨before, bs ++ rest⟩ →
      Read.skip v.type r = (.ok (), { r with cursor := ⟨bs.reverse ++ before, rest⟩ })

/-- what a writer writes for a field `id` behind the field `last` and for the fields `fs` behind
it: once its header is read, the value is skipped, and the reader stands behind it, with the field
as the last one, and is else as it was in front of the header; the fields behind it are then read
as what was written -/
def Tree.SkippedField (o : Options) (last id : Int16) (v : Tree) (fs : List (Int16 × Tree)) :
    Prop :=
  ∃ (bs cs : Bytes) (next : Int16),
    (∀ w : Writer, w.sink.Open → w.pendingBool = none → w.lastField = last →
      w.enclosing.length + fieldDepth ((id, v) :: fs) ≤ maxStructDepth →
      ∃ z : Sink, writes (fieldEvents ((id, v) :: fs)) w =
          (.ok (bs ++ cs).length, { w with sink := z, lastField := next }) ∧
        z.bytes = w.sink.bytes ++ (bs ++ cs)) ∧
    ∀ (r : Reader) (before rest : Bytes), r.Obeys o → r.pendingBool = none → r.lastField = last →
      r.enclosing.length + fieldDepth ((id, v) :: fs) ≤ maxStructDepth →
      r.cursor = ⟨before, bs ++ (cs ++ rest)⟩ →
      ∃ r₁ r₂ : Reader,
        Read.fieldBegin r = (.ok (some (v.type, id)), r₁) ∧ r₁.lastField = id ∧
        Read.skip v.type r₁ = (.ok (), r₂) ∧
        r₂ = { r with cursor := ⟨bs.reverse ++ before, cs ++ rest⟩, lastField := id } ∧
        reads ((fieldEvents fs).map Event.call) r₂ = (.ok (fieldEvents fs),
          { r₂ with cursor := ⟨cs.reverse ++ (bs.reverse ++ before), rest⟩, lastField := next })

theorem Tree.skippedAlone {v : Tree} (hheight : v.height ≤ maxSkipDepth) (h : v.Natural o) :
    v.SkippedAlone o := by
  obtain ⟨s, hs⟩ := Tree.skipped o v v.depth maxSkipDepth (Nat.le_refl _) hheight h.within h.lists
    h.steady
  refine ⟨s, fun w hopen hpending hdepth => ?_, fun r before rest hlimits hpending hdepth hc => ?_⟩
  · obtain ⟨z, hw, hz⟩ := (hs w.lastField).1 w ⟨hopen, rfl, hpending, hdepth⟩
    exact ⟨z, hw, hz.bytes⟩
  · exact (hs r.lastField).2 r before rest ⟨hlimits, rfl, hpending, hdepth⟩ hc

theorem Tree.skippedField {v : Tree} {last id : Int16} {fs : List (Int16 × Tree)}
    (hheight : v.height ≤ maxSkipDepth) (hlast : 0 ≤ last.toInt)
    (h : (Tree.struct ((id, v) :: fs)).Natural o) : Tree.SkippedField o last id v fs := by
  let d := fieldDepth ((id, v) :: fs)
  have hwithin : ∀ e ∈ fieldEvents ((id, v) :: fs), e.Within o := fun e he =>
    h.within e (List.mem_cons_of_mem _ (List.mem_append_left _ he))
  obtain ⟨hheader, hwithins⟩ := List.forall_mem_append.mp hwithin
  obtain ⟨hids, hinner⟩ := List.forall_mem_cons.mp h.structs
  obtain ⟨hid, hbehind⟩ := List.forall_mem_cons.mp hids
  have hnext : Steady id (fs.map Prod.fst) := steady_of_natural hid hbehind
  obtain ⟨hsteady, hsteadys⟩ := List.forall_mem_append.mp (List.forall_mem_cons.mp h.steady).2
  -- the field itself
  have hstep : id.toInt - last.toInt < 2 ^ 15 := step_lt hlast
  obtain ⟨bs, -, hw, hr⟩ := Tree.skipped_field (o := o) (d := d) hstep hheight
    (Tree.skipped o v d maxSkipDepth (Nat.le_max_left _ _) hheight
      (fun e he => hheader e (List.mem_cons_of_mem _ (List.mem_append_left _ he)))
      (List.forall_mem_append.mp h.lists).1 hsteady)
  -- and those behind it
  obtain ⟨cs, next, hpass⟩ := Tree.fields_pass o fs d id (Nat.le_max_right _ _) hwithins hsteadys
    hnext
  have hwrite : Write.Emits d last next (writes (fieldEvents ((id, v) :: fs))) (bs ++ cs)
      (bs ++ cs).length := by
    rw [fieldEvents, writes_append, writes_field]
    exact Write.emits_add hw hpass.emits
  refine ⟨bs, cs, next, fun w hopen hpending hw hdepth => ?_,
    fun r before rest hlimits hpending hl hdepth hc => ?_⟩
  · obtain ⟨z, hz, hgrows⟩ := hwrite w ⟨hopen, hw, hpending, hdepth⟩
    exact ⟨z, hz, hgrows.bytes⟩
  · obtain ⟨r₁, hbegin, hskip⟩ := hr r before (cs ++ rest) ⟨hlimits, hl, hpending, hdepth⟩ hc
    refine ⟨r₁, _, hbegin, fieldBegin_lastField hbegin, hskip, rfl, ?_⟩
    exact hpass.takes _ (bs.reverse ++ before) rest
      ⟨⟨hlimits.1, hlimits.2⟩, rfl, hpending, hdepth⟩ rfl

/-- a value of no more levels than are followed is skipped, on its own and as a field -/
theorem Tree.skip_written {v : Tree} (hheight : v.height ≤ maxSkipDepth) :
    (v.Natural o → v.SkippedAlone o) ∧
    ∀ (last id : Int16) (fs : List (Int16 × Tree)), 0 ≤ last.toInt →
      (Tree.struct ((id, v) :: fs)).Natural o → Tree.SkippedField o last id v fs :=
  ⟨Tree.skippedAlone hheight, fun _ _ _ hlast h => Tree.skippedField hheight hlast h⟩

/-- lists of structs and of booleans, and a boolean in a field -/
def Tree.packed : Tree :=
  .struct [(1, .bool true), (20, .list .struct [.struct [(2, .binary [7])], .struct []]),
    (3, .list .bool [.bool true, .bool false])]

/-- such a value is skipped on its own, and between a field and a boolean -/
theorem Tree.skip_written_packed : Tree.packed.SkippedAlone {} ∧
    Tree.SkippedField {} 4 5 Tree.packed [(6, .bool false), (7, .string "behind")] :=
  ⟨(Tree.skip_written (by decide)).1 (by decide),
    (Tree.skip_written (by decide)).2 4 5 _ (by decide) (by decide)⟩

end Columnar.Compact
