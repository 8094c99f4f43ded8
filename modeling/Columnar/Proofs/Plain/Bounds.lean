import Columnar.Proofs.Failures
import Columnar.Proofs.Plain.Decoder

/-!
# Where plain values lie

Reading plain values moves on in their buffer and stands at one of the eight bits of a byte.

* `Decoder.Onward d e`      `e` is `d` moved on, at one of eight bits;
* `Batch.pushEach_ends`     values read one by one into a batch with room for them;
* `Decoder.values_ends`     values read at once into a batch with room for them.
-/

namespace Columnar

open Step

/-! ## putting values into a batch -/

/-- into a batch with room for them, values are put as long as they can be read -/
theorem Batch.pushEach_ends {σ : Type} {I : σ → Prop} {x : Step σ Failure Value}
    (hx : Maintains I Any x) (hfails : Fails I Failure.Regular x) (n : Nat) :
    ∀ (s : σ) (b : Batch), I s → b.values.length + n ≤ batchSize →
      Ends (fun _ t => I t.1) (fun e t => I t.1 ∧ e.Regular) (pushEach x n (s, b)) := by
  induction n with
  | zero => exact fun s b hs _ => hs
  | succ n ih =>
    intro s b hs hroom
    have hends := hx.ends hfails hs
    have hlt : b.values.length < batchSize := by omega
    rw [pushEach]
    rcases hrun : x s with ⟨e | v, s'⟩
    · rw [hrun] at hends
      rw [bind_error (onFst_error hrun b)]
      exact hends
    · rw [hrun] at hends
      rw [bind_ok (onFst_ok hrun b), bind_ok (onSnd_ok (push_ok hlt) s')]
      apply ih s' (b.putAll [v]) hends.1
      show (b.values ++ [v]).length + n ≤ batchSize
      rw [List.length_append, List.length_singleton]
      omega

namespace Plain.Decoder

variable {d e : Decoder}

/-- `e` is `d` moved on, at one of the eight bits of a byte -/
structure Onward (d e : Decoder) : Prop where
  follows : d.Follows e
  bounded : e.bitOffset < 8

theorem Onward.refl (h : d.bitOffset < 8) : d.Onward d := ⟨.refl d, h⟩

/-- a decoder starts in front of its bytes, at the start of a byte -/
theorem ofBytes_start {bs : Bytes} {t : PhysicalType} {len : Option Nat}
    (h : ofBytes bs t len = .ok d) : d.cursor = .ofBytes bs ∧ d.bitOffset = 0 := by
  unfold ofBytes at h
  split at h <;> cases h <;> exact ⟨rfl, rfl⟩

theorem ofCursor_onward {α : Type} (d : Decoder) {x : Step Cursor Error α}
    (hx : ∀ c : Cursor, c.Follows (x c).2) : Maintains d.Onward Any (ofCursor x) :=
  .of_forall fun e h =>
    ⟨⟨h.follows.cursor.trans (hx e.cursor), h.follows.type, h.follows.width⟩, h.bounded⟩

theorem ofCursor_fails {α : Type} {I : Decoder → Prop} {x : Step Cursor Error α}
    (hx : Fails (fun _ => True) Error.Regular x) : Fails I Error.Regular (ofCursor x) :=
  fails_on hx fun _ _ => trivial

/-! ## single values -/

theorem bool_onward (d : Decoder) : Maintains d.Onward Any bool := by
  have tail : Maintains d.Onward Any (do
      let d ← Step.state
      Step.put { d with bitOffset := (d.bitOffset + 1) % 8 }
      pure (d.bits.toNat.testBit d.bitOffset) : Step Decoder Error Bool) := by
    refine maintains_bind maintains_state fun e he => ?_
    refine maintains_bind (maintains_put ⟨⟨he.follows.cursor, he.follows.type,
      he.follows.width⟩, Nat.mod_lt _ (by decide)⟩) fun _ _ => maintains_pure trivial
  refine maintains_bind maintains_state fun e _ => ?_
  split
  · refine maintains_bind (ofCursor_onward d Cursor.byte_follows) fun b _ => ?_
    exact maintains_bind (maintains_update fun e he =>
      ⟨⟨he.follows.cursor, he.follows.type, he.follows.width⟩, he.bounded⟩) fun _ _ => tail
  · exact tail

theorem bool_fails (d : Decoder) : Fails d.Onward Error.Regular bool := by
  have tail : Fails d.Onward Error.Regular (do
      let d ← Step.state
      Step.put { d with bitOffset := (d.bitOffset + 1) % 8 }
      pure (d.bits.toNat.testBit d.bitOffset) : Step Decoder Error Bool) :=
    fun _ _ _ h => nomatch h
  refine fails_bind maintains_state fails_state fun e _ => ?_
  split
  · refine fails_bind (ofCursor_onward d Cursor.byte_follows)
      (ofCursor_fails Cursor.byte_fails) fun b _ => ?_
    exact fails_bind (maintains_update fun e he =>
      ⟨⟨he.follows.cursor, he.follows.type, he.follows.width⟩, he.bounded⟩) (fails_update _)
      fun _ _ => tail
  · exact tail

theorem byteArray_onward (d : Decoder) : Maintains d.Onward Any byteArray := by
  refine maintains_bind (P := Any) (maintains_look fun _ _ => trivial) fun _ _ => ?_
  refine maintains_bind (ofCursor_onward d (Cursor.view_follows 4)) fun head _ => ?_
  exact maintains_bind (maintains_within (ofCursor_onward d (Cursor.view_follows _))) fun _ _ =>
    maintains_pure trivial

theorem byteArray_fails (I : Decoder → Prop) : Fails I Error.Regular byteArray := by
  have hfails : Fails (fun _ => True) Error.Regular byteArray := by
    refine fails_bind (maintains_any _) (fails_look _) fun _ _ => ?_
    refine fails_bind (maintains_any _) (ofCursor_fails (Cursor.view_fails 4)) fun head _ => ?_
    refine fails_bind (maintains_any _) ?_ fun _ _ => fails_pure _
    exact fails_mapError (ofCursor_fails (Cursor.view_fails _)) fun _ h => h
  exact fun d _ => hfails d trivial

theorem value_onward (d : Decoder) : Maintains d.Onward Any value := by
  refine maintains_bind maintains_state fun e _ => ?_
  split
  · exact maintains_bind (bool_onward d) fun _ _ => maintains_pure trivial
  · exact byteArray_onward d
  · exact maintains_bind (ofCursor_onward d (Cursor.view_follows _)) fun _ _ =>
      maintains_pure trivial

theorem value_fails (d : Decoder) : Fails d.Onward Error.Regular value := by
  refine fails_bind maintains_state fails_state fun e _ => ?_
  split
  · exact fails_bind (bool_onward d) (bool_fails d) fun _ _ => fails_pure _
  · exact byteArray_fails _
  · exact fails_bind (ofCursor_onward d (Cursor.view_follows _))
      (ofCursor_fails (Cursor.view_fails _)) fun _ _ => fails_pure _

/-! ## several values at once -/

/-- values of one width are read at once, or there are too few bytes -/
theorem fixed_ends {n : Nat} {b : Batch} (hd : d.bitOffset < 8)
    (hroom : b.values.length + n ≤ batchSize) :
    Ends (fun _ t => d.Onward t.1) (fun x t => d.Onward t.1 ∧ x.Regular) ((do
      let bs ← (ofCursor (Cursor.view (d.width * n)) : Step Decoder Failure Bytes).onFst
      (pushFixed d.type d.width n bs).onSnd : Step (Decoder × Batch) Failure Unit) (d, b)) := by
  have hview := (ofCursor_onward d (Cursor.view_follows (d.width * n))).ends
    (ofCursor_fails (Cursor.view_fails _)) (.refl hd)
  rcases hrun : ofCursor (Cursor.view (d.width * n)) d with ⟨x | bs, e⟩
  · rw [hrun] at hview
    rw [bind_error (onFst_error (lift_error hrun) b)]
    exact hview
  · rw [hrun] at hview
    rw [bind_ok (onFst_ok (lift_ok hrun) b), onSnd, pushFixed_ok hroom]
    exact hview.1

/-- into a batch with room for them, values are read as long as there are any -/
theorem values_ends {n : Nat} {b : Batch} (hd : d.bitOffset < 8) (hwidth : d.width * n < 2 ^ 64)
    (hroom : b.values.length + n ≤ batchSize) :
    Ends (fun _ t => d.Onward t.1) (fun x t => d.Onward t.1 ∧ x.Regular) (values n (d, b)) := by
  have single {x : Step Decoder Error Value} (hx : Maintains d.Onward Any x)
      (hfails : Fails d.Onward Error.Regular x) :
      Ends (fun _ t => d.Onward t.1) (fun x t => d.Onward t.1 ∧ x.Regular)
        (Batch.pushEach (x : Step Decoder Failure Value) n (d, b)) :=
    Batch.pushEach_ends (maintains_mapError hx) (fails_lift hfails) n d b (.refl hd) hroom
  by_cases hbool : d.type = .boolean
  · rw [values_eq, hbool]
    exact single (maintains_bind (bool_onward d) fun _ _ => maintains_pure trivial)
      (fails_bind (bool_onward d) (bool_fails d) fun _ _ => fails_pure _)
  by_cases harray : d.type = .byteArray
  · rw [values_eq, harray]
    exact single (byteArray_onward d) (byteArray_fails _)
  rw [values_fixed hbool harray hwidth]
  exact fixed_ends hd hroom

end Plain.Decoder

end Columnar
