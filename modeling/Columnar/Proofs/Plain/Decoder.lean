import Columnar.Plain.Decoder
import Columnar.Proofs.Batch

/-!
# Plain values at once and one by one

Several values that are read into a batch are what as many single values are: the same values
from the same bytes, and a failure where one of them fails.

* `Decoder.values_puts`   values read at once and one by one;
* `Decoder.Follows d e`   how a decoder moves on.
-/

namespace Columnar

/-- steps that agree wherever `I` holds, and keep it, agree in every number -/
theorem Step.times_congr {σ ε α : Type} {I : σ → Prop} {x y : Step σ ε α}
    (h : ∀ s, I s → x s = y s) (hy : Maintains I Any y) (n : Nat) :
    ∀ s, I s → times n x s = times n y s := by
  induction n with
  | zero => exact fun _ _ => rfl
  | succ n ih =>
    intro s hs
    rw [times_succ, times_succ, bind_apply, bind_apply, h s hs]
    have hI := (hy s hs).1
    rcases e : y s with ⟨_ | a, s'⟩
    · rfl
    · rw [e] at hI
      dsimp only
      rw [bind_apply, bind_apply, ih s' hI]

namespace Plain.Decoder

/-! ## moving on -/

/-- how a decoder moves on: in the same buffer, among values of the same type -/
structure Follows (d e : Decoder) : Prop where
  cursor : d.cursor.Follows e.cursor
  type : e.type = d.type
  width : e.width = d.width

theorem Follows.refl (d : Decoder) : d.Follows d := ⟨.refl _, rfl, rfl⟩

theorem ofCursor_maintains {α : Type} (d : Decoder) {x : Step Cursor Error α}
    (hx : ∀ c : Cursor, c.Follows (x c).2) : Step.Maintains d.Follows Step.Any (ofCursor x) :=
  Step.Maintains.of_forall fun e h => ⟨h.cursor.trans (hx e.cursor), h.type, h.width⟩

theorem bool_maintains (d : Decoder) : Step.Maintains d.Follows Step.Any bool := by
  have tail : Step.Maintains d.Follows Step.Any (do
      let d ← Step.state
      Step.put { d with bitOffset := (d.bitOffset + 1) % 8 }
      pure (d.bits.toNat.testBit d.bitOffset) : Step Decoder Error Bool) := by
    apply Step.maintains_bind Step.maintains_state
    intro e he
    exact Step.maintains_bind (Step.maintains_put ⟨he.cursor, he.type, he.width⟩) fun _ _ =>
      Step.maintains_pure trivial
  apply Step.maintains_bind Step.maintains_state
  intro e _
  split
  · apply Step.maintains_bind (ofCursor_maintains d Cursor.byte_follows)
    intro b _
    exact Step.maintains_bind
      (Step.maintains_update fun e he => ⟨he.cursor, he.type, he.width⟩) fun _ _ => tail
  · exact tail

theorem byteArray_maintains (d : Decoder) : Step.Maintains d.Follows Step.Any byteArray := by
  refine Step.maintains_bind (P := Step.Any) (Step.maintains_look fun _ _ => trivial)
    fun _ _ => ?_
  apply Step.maintains_bind (ofCursor_maintains d (Cursor.view_follows 4))
  intro head _
  refine Step.maintains_bind
    (Step.maintains_within (ofCursor_maintains d (Cursor.view_follows _))) fun _ _ => ?_
  exact Step.maintains_pure trivial

theorem value_maintains (d : Decoder) : Step.Maintains d.Follows Step.Any value := by
  apply Step.maintains_bind Step.maintains_state
  intro e _
  split
  · exact Step.maintains_bind (bool_maintains d) fun _ _ => Step.maintains_pure trivial
  · exact byteArray_maintains d
  · exact Step.maintains_bind (ofCursor_maintains d (Cursor.view_follows _)) fun _ _ =>
      Step.maintains_pure trivial

/-! ## values of one width -/

/-- the values of `width` bytes in a string -/
def fixedValues (t : PhysicalType) (width : Nat) : Nat → Bytes → List Value
  | 0, _ => []
  | n + 1, bs => .ofFixed t (bs.take width) :: fixedValues t width n (bs.drop width)

/-- a decoder `k` bytes further on -/
def moved (d : Decoder) (k : Nat) : Decoder :=
  { d with cursor := ⟨(d.cursor.rest.take k).reverse ++ d.cursor.before, d.cursor.rest.drop k⟩ }

theorem moved_zero (d : Decoder) : d.moved 0 = d := by
  simp [moved]

theorem moved_moved (d : Decoder) (k m : Nat) : (d.moved k).moved m = d.moved (k + m) := by
  simp [moved, List.take_add, List.drop_drop, List.append_assoc]

theorem view_ok {d : Decoder} {k : Nat} (h : k ≤ d.remaining) :
    ofCursor (Cursor.view k) d = (.ok (d.cursor.rest.take k), d.moved k) := by
  have hk : k ≤ d.cursor.rest.length := h
  rw [ofCursor, Step.on_apply, Cursor.view_eq, if_pos hk]
  rfl

theorem view_error {d : Decoder} {k : Nat} (h : d.remaining < k) :
    ∃ e, ofCursor (Cursor.view k) d = (.error e, d) := by
  have hk : ¬ k ≤ d.cursor.rest.length := Nat.not_le.mpr h
  rw [ofCursor, Step.on_apply, Cursor.view_eq, if_neg hk]
  exact ⟨_, rfl⟩

/-- a value of a type whose values have one width -/
def fixedValue (t : PhysicalType) (width : Nat) : Step Decoder Error Value :=
  Value.ofFixed t <$> ofCursor (Cursor.view width)

theorem fixedValue_ok {t : PhysicalType} {width : Nat} {d : Decoder} (h : width ≤ d.remaining) :
    fixedValue t width d = (.ok (.ofFixed t (d.cursor.rest.take width)), d.moved width) :=
  Step.bind_ok (view_ok h) _

theorem times_fixedValue {t : PhysicalType} {width n : Nat} {d : Decoder}
    (h : width * n ≤ d.remaining) : Step.times n (fixedValue t width) d =
      (.ok (fixedValues t width n d.cursor.rest), d.moved (width * n)) := by
  induction n generalizing d with
  | zero =>
    rw [Step.times_zero, Nat.mul_zero, moved_zero]
    rfl
  | succ n ih =>
    rw [Nat.mul_succ] at h
    have hrest : width * n ≤ (d.moved width).remaining := by
      show width * n ≤ (d.cursor.rest.drop width).length
      rw [List.length_drop]
      have : d.remaining = d.cursor.rest.length := rfl
      omega
    rw [Step.times_succ, Step.bind_ok (fixedValue_ok (by omega)), Step.bind_ok (ih hrest),
      moved_moved, Nat.mul_succ, Nat.add_comm width]
    rfl

/-- where bytes are missing, one of the values fails -/
theorem times_fixedValue_error {t : PhysicalType} {width n : Nat} {d : Decoder}
    (h : d.remaining < width * n) :
    ∃ e d', Step.times n (fixedValue t width) d = (.error e, d') := by
  induction n generalizing d with
  | zero => exact absurd h (Nat.not_lt_zero _)
  | succ n ih =>
    rw [Step.times_succ]
    by_cases hw : width ≤ d.remaining
    · have hrest : (d.moved width).remaining < width * n := by
        show (d.cursor.rest.drop width).length < width * n
        rw [List.length_drop]
        rw [Nat.mul_succ] at h
        have : d.remaining = d.cursor.rest.length := rfl
        omega
      obtain ⟨e, d', he⟩ := ih hrest
      exact ⟨e, d', by rw [Step.bind_ok (fixedValue_ok hw), Step.bind_error he]⟩
    · obtain ⟨e, he⟩ := view_error (Nat.lt_of_not_le hw)
      refine ⟨e, d, Step.bind_error ?_ _⟩
      exact Step.bind_error he _

theorem pushFixed_ok {t : PhysicalType} {width n : Nat} {bs : Bytes} {b : Batch}
    (h : b.values.length + n ≤ batchSize) :
    pushFixed t width n bs b = (.ok (), b.putAll (fixedValues t width n bs)) := by
  induction n generalizing bs b with
  | zero =>
    rw [fixedValues, Batch.putAll_nil]
    rfl
  | succ n ih =>
    have hlt : b.values.length < batchSize := by omega
    have hn : (b.putAll [.ofFixed t (bs.take width)]).values.length + n ≤ batchSize := by
      show (b.values ++ [_]).length + n ≤ batchSize
      rw [List.length_append, List.length_singleton]
      omega
    rw [pushFixed, Step.bind_ok (Batch.push_ok hlt), ih hn, Batch.putAll_cons]
    rfl

/-- the bytes of one string do not depend on those behind it -/
theorem fixedValues_take (t : PhysicalType) (width n : Nat) (bs : Bytes) :
    fixedValues t width n (bs.take (width * n)) = fixedValues t width n bs := by
  induction n generalizing bs with
  | zero => rfl
  | succ n ih =>
    have hle : width ≤ width * (n + 1) := Nat.le_mul_of_pos_right _ (Nat.succ_pos n)
    rw [fixedValues, fixedValues, List.take_take, Nat.min_eq_left hle, List.drop_take,
      Nat.mul_succ, Nat.add_sub_cancel, ih]

/-! ## several values at once -/

/-- single values are read by what is right for the type of the decoder -/
theorem times_value {d : Decoder} {x : Step Decoder Error Value}
    (hx : ∀ e, d.Follows e → value e = x e) (n : Nat) :
    Step.times n value d = Step.times n x d := by
  have hI : Step.Maintains d.Follows Step.Any value := value_maintains d
  exact (Step.times_congr (fun e he => (hx e he).symm) hI n d (.refl d)).symm

theorem value_eq (d : Decoder) : value d = (match d.type with
    | .boolean => Value.boolean <$> bool
    | .byteArray => byteArray
    | t => fixedValue t d.width : Step Decoder Error Value) d := rfl

theorem values_eq (n : Nat) (d : Decoder) (b : Batch) : values n (d, b) = (match d.type with
    | .boolean => Batch.pushEach (Value.boolean <$> bool : Step Decoder Error Value) n
    | .byteArray => Batch.pushEach byteArray n
    | t => if 2 ^ 64 ≤ d.width * n then Step.fail (.misuse .multiplyOverflow) else do
        let bs ← (ofCursor (Cursor.view (d.width * n)) : Step Decoder Failure Bytes).onFst
        (pushFixed t d.width n bs).onSnd : Step (Decoder × Batch) Failure Unit) (d, b) := rfl

theorem value_fixed {e : Decoder} (hb : e.type ≠ .boolean) (ha : e.type ≠ .byteArray) :
    value e = fixedValue e.type e.width e := by
  rw [value_eq]
  cases h : e.type <;> first | exact absurd h hb | exact absurd h ha | rfl

theorem values_fixed {n : Nat} {d : Decoder} (hb : d.type ≠ .boolean) (ha : d.type ≠ .byteArray)
    (hwidth : d.width * n < 2 ^ 64) (b : Batch) : values n (d, b) = (do
      let bs ← (ofCursor (Cursor.view (d.width * n)) : Step Decoder Failure Bytes).onFst
      (pushFixed d.type d.width n bs).onSnd : Step (Decoder × Batch) Failure Unit) (d, b) := by
  have hlt : ¬ 2 ^ 64 ≤ d.width * n := Nat.not_le.mpr hwidth
  rw [values_eq]
  cases h : d.type <;> first | exact absurd h hb | exact absurd h ha | (dsimp only; rw [if_neg hlt])

/-- booleans and byte arrays are read one by one -/
theorem values_single {n : Nat} {d : Decoder} {b : Batch}
    (h : d.type = .boolean ∨ d.type = .byteArray) :
    values n (d, b) = Batch.pushEach (value : Step Decoder Failure Value) n (d, b) := by
  have single {x : Step Decoder Error Value} (hvalue : ∀ e, d.Follows e → value e = x e) :
      Batch.pushEach (x : Step Decoder Failure Value) n (d, b) =
        Batch.pushEach (value : Step Decoder Failure Value) n (d, b) := by
    refine Batch.pushEach_embed (f := id) (I := d.Follows) (fun e he => ?_) n b (.refl d)
    have hfollows : d.Follows (value e).2 := (value_maintains d e he).1
    have hstep := hvalue e he
    rcases hrun : value e with ⟨y | v, e'⟩
    · rw [hrun] at hfollows hstep
      rw [Step.lift_error hrun]
      exact ⟨Step.lift_error hstep.symm, hfollows⟩
    · rw [hrun] at hfollows hstep
      rw [Step.lift_ok hrun]
      exact ⟨Step.lift_ok hstep.symm, hfollows⟩
  rw [values_eq]
  rcases h with h | h
  · rw [h]
    exact single fun e he => by rw [value_eq, he.type, h]
  · rw [h]
    exact single fun e he => by rw [value_eq, he.type, h]

/-- single values of one width -/
theorem times_value_fixed {n : Nat} {d : Decoder} (hbool : d.type ≠ .boolean)
    (harray : d.type ≠ .byteArray) :
    Step.times n value d = Step.times n (fixedValue d.type d.width) d := by
  refine times_value (fun e he => ?_) n
  have h := value_fixed (e := e) (he.type ▸ hbool) (he.type ▸ harray)
  rwa [he.type, he.width] at h

/-- values read into a batch are what single values are -/
theorem values_puts {n : Nat} {d : Decoder} (hwidth : d.width * n < 2 ^ 64) (b : Batch)
    (hb : b.values.length + n ≤ batchSize) :
    Batch.PutsAs b (Step.times n value d) (values n (d, b)) := by
  by_cases h : d.type = .boolean ∨ d.type = .byteArray
  · rw [values_single h]
    exact Batch.pushEach_puts (fun _ _ _ e => Step.lift_ok e)
      (fun _ e' t e => ⟨e', t, Step.lift_error e⟩) n d b hb
  obtain ⟨hbool, harray⟩ := not_or.mp h
  rw [times_value_fixed hbool harray, values_fixed hbool harray hwidth]
  by_cases hlen : d.width * n ≤ d.remaining
  · have hfst := Step.onFst_ok (Step.lift_ok (view_ok hlen)) b
    rw [times_fixedValue hlen]
    refine (Step.bind_ok hfst _).trans ?_
    rw [Step.onSnd, pushFixed_ok hb, fixedValues_take]
  · have hlen' := Nat.lt_of_not_le hlen
    obtain ⟨e, d', he⟩ := times_fixedValue_error (t := d.type) hlen'
    obtain ⟨e', hview⟩ := view_error hlen'
    rw [he]
    exact ⟨.error e', (d, b), Step.bind_error (Step.onFst_error (Step.lift_error hview) b) _⟩

end Plain.Decoder

end Columnar
