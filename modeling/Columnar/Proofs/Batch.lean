import Columnar.Batch
import Columnar.Proofs.Hybrid.Decoder

/-!
# What a batch holds

* `weave levels vs`      slots from their levels and their values;
* `Batch.Holds b slots`  `b` says of its slots what `slots` does;
* `Batch.Puts x y n`     `x` puts into a batch what `y` answers, `n` values.

`Batch.Holds.cover` is the step: values are put into a batch first, and then the slots that they
stand in are covered.
-/

namespace Columnar

/-- slots from their levels and the values of those that are not empty -/
def weave : List Nat → List Value → List (Option Value)
  | [], _ => []
  | l :: ls, vs => if l = 0 then none :: weave ls vs else vs.head? :: weave ls vs.tail

theorem length_weave (ls : List Nat) (vs : List Value) : (weave ls vs).length = ls.length := by
  induction ls generalizing vs with
  | nil => rfl
  | cons l ls ih =>
    rw [weave]
    split <;> rw [List.length_cons, List.length_cons, ih]

theorem filterMap_weave {ls : List Nat} {vs : List Value}
    (h : vs.length = ls.countP (· != 0)) : (weave ls vs).filterMap id = vs := by
  induction ls generalizing vs with
  | nil =>
    rw [List.length_eq_zero_iff.mp h]
    rfl
  | cons l ls ih =>
    rw [weave]
    by_cases hl : l = 0
    · rw [List.countP_cons_of_neg (by simp [hl])] at h
      rw [if_pos hl, List.filterMap_cons_none rfl, ih h]
    · rw [List.countP_cons_of_pos (by simp [hl])] at h
      cases vs with
      | nil => cases h
      | cons v vs =>
        rw [if_neg hl, List.head?_cons, List.filterMap_cons_some (f := id) rfl, List.tail_cons,
          ih (Nat.succ.inj h)]

/-- the empty slots are those of level zero -/
theorem getElem?_weave {ls : List Nat} {vs : List Value} (h : vs.length = ls.countP (· != 0))
    (i : Nat) : (weave ls vs)[i]? = some none ↔ ls[i]? = some 0 := by
  induction ls generalizing vs i with
  | nil => simp [weave]
  | cons l ls ih =>
    rw [weave]
    by_cases hl : l = 0
    · rw [List.countP_cons_of_neg (by simp [hl])] at h
      rw [if_pos hl]
      cases i with
      | zero => simp [hl]
      | succ i => exact ih h i
    · rw [List.countP_cons_of_pos (by simp [hl])] at h
      rw [if_neg hl]
      cases vs with
      | nil => cases h
      | cons v vs =>
        cases i with
        | zero => simp [hl]
        | succ i => exact ih (Nat.succ.inj h) i

theorem weave_append {ls ms : List Nat} {vs ws : List Value}
    (h : vs.length = ls.countP (· != 0)) :
    weave (ls ++ ms) (vs ++ ws) = weave ls vs ++ weave ms ws := by
  induction ls generalizing vs with
  | nil =>
    rw [List.length_eq_zero_iff.mp h]
    rfl
  | cons l ls ih =>
    rw [List.cons_append, weave, weave]
    by_cases hl : l = 0
    · rw [List.countP_cons_of_neg (by simp [hl])] at h
      rw [if_pos hl, if_pos hl, ih h, List.cons_append]
    · rw [List.countP_cons_of_pos (by simp [hl])] at h
      cases vs with
      | nil => cases h
      | cons v vs =>
        rw [if_neg hl, if_neg hl, List.cons_append, List.head?_cons, List.head?_cons,
          List.tail_cons, List.tail_cons, ih (Nat.succ.inj h), List.cons_append]

namespace Batch

/-- a batch with more values, in slots that are not covered yet -/
def putAll (b : Batch) (vs : List Value) : Batch := { b with values := b.values ++ vs }

theorem putAll_nil (b : Batch) : b.putAll [] = b := by
  rw [putAll, List.append_nil]

theorem putAll_cons (b : Batch) (v : Value) (vs : List Value) :
    (b.putAll [v]).putAll vs = b.putAll (v :: vs) := by
  rw [putAll, putAll, putAll, List.append_assoc, List.singleton_append]

theorem push_ok {b : Batch} {v : Value} (h : b.values.length < batchSize) :
    push v b = (.ok (), b.putAll [v]) := by
  rw [push, Step.state_bind, if_pos h]
  rfl

/-! ## slots -/

/-- the batch says of its slots what `slots` does -/
structure Holds (b : Batch) (slots : List (Option Value)) : Prop where
  total : b.total = slots.length
  values : b.values = slots.filterMap id
  nulls : ∀ i, b.nulls.testBit i = decide (slots[i]? = some none)

theorem holds_nil : Holds {} [] := ⟨rfl, rfl, fun i => by simp⟩

theorem slotsFrom_eq {nulls : Nat} (s : List (Option Value)) : ∀ slot,
    (∀ i, i < s.length → nulls.testBit (slot + i) = decide (s[i]? = some none)) →
    slotsFrom nulls s.length slot (s.filterMap id) = s := by
  induction s with
  | nil => exact fun _ _ => rfl
  | cons x s ih =>
    intro slot h
    have h0 := h 0 (Nat.succ_pos _)
    have hs := ih (slot + 1) fun i hi => by
      rw [Nat.add_assoc, Nat.add_comm 1 i]
      exact h (i + 1) (Nat.succ_lt_succ hi)
    rw [Nat.add_zero] at h0
    rw [List.length_cons, slotsFrom, h0]
    cases x with
    | none =>
      rw [List.filterMap_cons_none rfl, hs]
      simp
    | some v =>
      rw [List.filterMap_cons_some (f := id) rfl, List.head?_cons, List.tail_cons, hs]
      simp

theorem Holds.slots_eq {b : Batch} {s : List (Option Value)} (h : b.Holds s) : b.slots = s := by
  rw [slots, h.total, h.values]
  apply slotsFrom_eq s 0
  intro i _
  rw [Nat.zero_add, h.nulls]

/-- a batch holds no more values than slots -/
theorem Holds.length_values {b : Batch} {s : List (Option Value)} (h : b.Holds s) :
    b.values.length ≤ s.length := by
  rw [h.values]
  exact List.length_filterMap_le _ _

/-- the slots of values that were put into the batch -/
theorem Holds.cover {b : Batch} {s : List (Option Value)} {ls : List Nat} {vs : List Value}
    (h : b.Holds s) (hvs : vs.length = ls.countP (· != 0)) :
    ((b.putAll vs).cover ls.length (Hybrid.maskOf ls)).Holds (s ++ weave ls vs) := by
  refine ⟨?_, ?_, fun i => ?_⟩
  · rw [List.length_append, length_weave, ← h.total]
    rfl
  · show b.values ++ vs = _
    rw [List.filterMap_append, filterMap_weave hvs, h.values]
  · show (b.nulls ||| (Hybrid.maskOf ls <<< b.total)).testBit i = _
    rw [Nat.testBit_or, Nat.testBit_shiftLeft, Hybrid.testBit_maskOf, h.nulls, h.total]
    by_cases hi : i < s.length
    · rw [List.getElem?_append_left hi]
      simp [Nat.not_le.mpr hi]
    · have hi' : s.length ≤ i := Nat.le_of_not_lt hi
      rw [List.getElem?_append_right hi', List.getElem?_eq_none hi']
      simp [hi', getElem?_weave hvs]

/-! ## putting values into a batch -/

/-- what one step answered, another put into `b`; where one failed, the other did -/
def PutsAs {σ ε : Type} (b : Batch) :
    Except ε (List Value) × σ → Except Failure Unit × (σ × Batch) → Prop
  | (.ok vs, s), q => q = (.ok (), (s, b.putAll vs))
  | (.error _, _), q => ∃ e t, q = (.error e, t)

/-- `x` puts into a batch with room for `n` values what `y` answers, and fails where `y` does -/
def Puts {σ ε : Type} (x : Step (σ × Batch) Failure Unit) (y : Step σ ε (List Value)) (n : Nat) :
    Prop :=
  ∀ s b, b.values.length + n ≤ batchSize → PutsAs b (y s) (x (s, b))

/-- values that are read and put into the batch one after the other -/
theorem pushEach_puts {σ ε : Type} {x : Step σ Failure Value} {y : Step σ ε Value}
    (hok : ∀ s v s', y s = (.ok v, s') → x s = (.ok v, s'))
    (herror : ∀ s e s', y s = (.error e, s') → ∃ e' t, x s = (.error e', t)) (n : Nat) :
    Puts (pushEach x n) (Step.times n y) n := by
  induction n with
  | zero =>
    intro s b _
    show (Except.ok (), (s, b)) = (Except.ok (), (s, b.putAll []))
    rw [putAll_nil]
  | succ n ih =>
    intro s b hb
    rw [Step.times_succ, Step.bind_apply]
    rcases e : y s with ⟨e' | v, s'⟩
    · obtain ⟨e', t, hx⟩ := herror s e' s' e
      refine ⟨e', (t, b), ?_⟩
      rw [pushEach, Step.bind_error]
      rw [Step.onFst, hx]
    · have hlt : b.values.length < batchSize := by omega
      have hx : x.onFst (s, b) = (.ok v, (s', b)) := Step.onFst_ok (hok s v s' e) b
      have hp : (push v).onSnd (s', b) = (.ok (), (s', b.putAll [v])) :=
        Step.onSnd_ok (push_ok hlt) s'
      have hr := ih s' (b.putAll [v]) (by
        show (b.values ++ [v]).length + n ≤ batchSize
        rw [List.length_append, List.length_singleton]
        omega)
      dsimp only
      rw [pushEach, Step.bind_ok hx, Step.bind_ok hp, Step.bind_apply]
      rcases e' : Step.times n y s' with ⟨e' | vs, t⟩
      · rw [e'] at hr
        exact hr
      · rw [e'] at hr
        exact Eq.trans hr (by rw [putAll_cons])

/-- values that are read by an image of a step -/
theorem pushEach_embed {σ τ : Type} {x : Step σ Failure Value} {y : Step τ Failure Value}
    {f : σ → τ} {I : σ → Prop}
    (h : ∀ s, I s → y (f s) = ((x s).1, f (x s).2) ∧ I (x s).2) (n : Nat) :
    ∀ {s : σ} (b : Batch), I s → pushEach y n (f s, b) =
      ((pushEach x n (s, b)).1, (f (pushEach x n (s, b)).2.1, (pushEach x n (s, b)).2.2)) := by
  induction n with
  | zero => exact fun _ _ => rfl
  | succ n ih =>
    intro s b hs
    obtain ⟨hy, hI⟩ := h s hs
    rw [pushEach, pushEach]
    rcases hx : x s with ⟨e | v, s'⟩
    · rw [hx] at hy
      rw [Step.bind_error (Step.onFst_error hx b), Step.bind_error (Step.onFst_error hy b)]
    · rw [hx] at hy hI
      rw [Step.bind_ok (Step.onFst_ok hx b), Step.bind_ok (Step.onFst_ok hy b)]
      rcases hpush : push v b with ⟨e | ⟨⟩, b'⟩
      · rw [Step.bind_error (Step.onSnd_error hpush s'),
          Step.bind_error (Step.onSnd_error hpush (f s'))]
      · rw [Step.bind_ok (Step.onSnd_ok hpush s'), Step.bind_ok (Step.onSnd_ok hpush (f s'))]
        exact ih b' hI

/-- where one of the values fails, those in front of it are in the batch, and the state is the
one it left -/
theorem pushEach_error {σ : Type} {x : Step σ Error Value} (n : Nat) :
    ∀ {s s' : σ} {b : Batch} {e : Error}, b.values.length + n ≤ batchSize →
      Step.times n x s = (.error e, s') →
      ∃ vs t, vs.length < n ∧ Step.times vs.length x s = (.ok vs, t) ∧ x t = (.error e, s') ∧
        pushEach (x : Step σ Failure Value) n (s, b) = (.error (.error e), (s', b.putAll vs)) := by
  induction n with
  | zero => exact fun _ h => nomatch h
  | succ n ih =>
    intro s s' b e hroom h
    rw [Step.times_succ] at h
    rcases hx : x s with ⟨e' | v, s₁⟩
    · rw [Step.bind_error hx] at h
      cases h
      refine ⟨[], s, Nat.succ_pos n, rfl, hx, ?_⟩
      rw [pushEach, Step.bind_error (Step.onFst_error (Step.lift_error hx) b), putAll_nil]
    · have hmore : (b.putAll [v]).values.length = b.values.length + 1 := List.length_append
      have hlt : b.values.length < batchSize := by omega
      have hrest : Step.times n x s₁ = (.error e, s') := by
        rw [Step.bind_ok hx] at h
        rcases htimes : Step.times n x s₁ with ⟨e' | vs, s₂⟩
        · rw [Step.bind_error htimes] at h
          exact h
        · rw [Step.bind_ok htimes] at h
          cases h
      obtain ⟨vs, t, hlen, hvs, hfail, hpush⟩ := ih (b := b.putAll [v]) (by omega) hrest
      refine ⟨v :: vs, t, Nat.succ_lt_succ hlen, ?_, hfail, ?_⟩
      · rw [List.length_cons, Step.times_succ, Step.bind_ok hx, Step.bind_ok hvs]
        rfl
      · rw [pushEach, Step.bind_ok (Step.onFst_ok (Step.lift_ok hx) b),
          Step.bind_ok (Step.onSnd_ok (push_ok hlt) s₁), hpush, putAll_cons]

end Batch

end Columnar
