import Columnar.Proofs.Plain.Decoder

/-!
# Batches of plain values

Values go into a batch in two ways: those of one width through one view of the page, booleans and
byte arrays one behind the other.  Either way a batch is read as single values are: it is full of
their values where all of them can be read, and it fails where one of them does.

* `Decoder.values_view`       values of one width, which are all there or left alone;
* `Decoder.Leaves d n b y s`  what a batch that fails leaves;
* `Decoder.values_eq_times`   a batch and its single values.

No more than a page of fewer than `2 ^ 64` bytes is asked for: in a longer one the width of all
values together may not be a number of the machine, where the width of each of them is.
-/

namespace Columnar.Plain.Decoder

variable {d : Decoder} {n : Nat} {b : Batch}

/-- of values of one width all are there, and are read, or some of them are not, and neither the
decoder nor the batch changes -/
theorem values_view (hbool : d.type ≠ .boolean) (harray : d.type ≠ .byteArray)
    (hmemory : d.remaining < 2 ^ 64) (hroom : b.values.length + n ≤ batchSize) :
    (d.width * n ≤ d.remaining ∧ values n (d, b) =
      (.ok (), (d.moved (d.width * n), b.putAll (fixedValues d.type d.width n d.cursor.rest)))) ∨
    (d.remaining < d.width * n ∧ ∃ x, values n (d, b) = (.error x, (d, b))) := by
  rcases Nat.lt_or_ge d.remaining (d.width * n) with hshort | hlen
  · refine .inr ⟨hshort, ?_⟩
    by_cases hwidth : d.width * n < 2 ^ 64
    · obtain ⟨e, hview⟩ := view_error hshort
      rw [values_fixed hbool harray hwidth]
      exact ⟨_, Step.bind_error (Step.onFst_error (Step.lift_error hview) b) _⟩
    · have hover : 2 ^ 64 ≤ d.width * n := Nat.le_of_not_lt hwidth
      refine ⟨.misuse .multiplyOverflow, ?_⟩
      rw [values_eq]
      cases h : d.type <;>
        first | exact absurd h hbool | exact absurd h harray | (dsimp only; rw [if_pos hover]; rfl)
  · refine .inl ⟨hlen, ?_⟩
    rw [values_fixed hbool harray (Nat.lt_of_le_of_lt hlen hmemory),
      Step.bind_ok (Step.onFst_ok (Step.lift_ok (view_ok hlen)) b),
      Step.onSnd_ok (pushFixed_ok hroom), fixedValues_take]

/-- what a batch that fails with `y` leaves: booleans and byte arrays fail as the single value
does that cannot be read, with those in front of it in the batch; values of one width leave the
decoder and the batch as they were -/
def Leaves (d : Decoder) (n : Nat) (b : Batch) (y : Failure) (s : Decoder × Batch) : Prop :=
  if d.type = .boolean ∨ d.type = .byteArray then
    ∃ vs t x, vs.length < n ∧ Step.times vs.length value d = (.ok vs, t) ∧
      value t = (.error x, s.1) ∧ y = .error x ∧ s.2 = b.putAll vs
  else s = (d, b)

/-- a batch of values and as many single values either both are read or both fail -/
theorem values_cases (hmemory : d.remaining < 2 ^ 64) (hroom : b.values.length + n ≤ batchSize) :
    (∃ vs e, Step.times n value d = (.ok vs, e) ∧ values n (d, b) = (.ok (), (e, b.putAll vs))) ∨
    ∃ x e y s, Step.times n value d = (.error x, e) ∧ values n (d, b) = (.error y, s) ∧
      Leaves d n b y s := by
  by_cases h : d.type = .boolean ∨ d.type = .byteArray
  · rw [values_single h]
    rcases htimes : Step.times n value d with ⟨x | vs, e⟩
    · obtain ⟨vs, t, hlen, hvs, hfail, hpush⟩ := Batch.pushEach_error n hroom htimes
      refine .inr ⟨x, e, _, _, rfl, hpush, ?_⟩
      rw [Leaves, if_pos h]
      exact ⟨vs, t, x, hlen, hvs, hfail, rfl, rfl⟩
    · have hputs := Batch.pushEach_puts (y := value) (fun _ _ _ e => Step.lift_ok e)
        (fun _ e' t e => ⟨e', t, Step.lift_error e⟩) n d b hroom
      rw [htimes] at hputs
      exact .inl ⟨vs, e, rfl, hputs⟩
  · obtain ⟨hbool, harray⟩ := not_or.mp h
    rw [times_value_fixed hbool harray]
    rcases values_view hbool harray hmemory hroom with ⟨hlen, hvalues⟩ | ⟨hshort, y, hvalues⟩
    · exact .inl ⟨_, _, times_fixedValue hlen, hvalues⟩
    · obtain ⟨x, e, htimes⟩ := times_fixedValue_error (t := d.type) hshort
      refine .inr ⟨x, e, y, (d, b), htimes, hvalues, ?_⟩
      rw [Leaves, if_neg h]

/-- a batch of values is read where as many single values are; it then has their values, in their
order, and leaves the decoder where they do, and where it fails, the decoder and the batch are as
they were if the values have one width -/
theorem values_eq_times (hmemory : d.remaining < 2 ^ 64)
    (hroom : b.values.length + n ≤ batchSize) :
    ((∃ s, values n (d, b) = (.ok (), s)) ↔ ∃ vs e, Step.times n value d = (.ok vs, e)) ∧
    (∀ vs e, Step.times n value d = (.ok vs, e) →
      vs.length = n ∧ values n (d, b) = (.ok (), (e, b.putAll vs))) ∧
    (∀ y s, values n (d, b) = (.error y, s) → Leaves d n b y s) := by
  rcases values_cases hmemory hroom with ⟨vs, e, htimes, hvalues⟩ |
    ⟨x, e, y, s, htimes, hvalues, hleaves⟩
  · have hlength : vs.length = n :=
      ((Step.maintains_times (Step.maintains_any value) n).of_eq trivial htimes).2.1
    refine ⟨⟨fun _ => ⟨vs, e, htimes⟩, fun _ => ⟨_, hvalues⟩⟩, fun vs' e' h => ?_,
      fun _ _ h => nomatch hvalues.symm.trans h⟩
    rw [htimes] at h
    cases h
    exact ⟨hlength, hvalues⟩
  · refine ⟨⟨fun ⟨_, h⟩ => ?_, fun ⟨_, _, h⟩ => ?_⟩, fun _ _ h => ?_, fun y' s' h => ?_⟩
    · exact nomatch hvalues.symm.trans h
    · exact nomatch htimes.symm.trans h
    · exact nomatch htimes.symm.trans h
    · rw [hvalues] at h
      cases h
      exact hleaves

/-- five booleans from the last bits of one byte on; the sixteen slots have room for them -/
theorem values_eq_times_booleans :
    let d : Decoder := { cursor := ⟨[0xb2], [0x01]⟩, type := .boolean, width := 0,
                         bits := 0xb2, bitOffset := 5 }
    values 5 (d, {}) = (.ok (), ({ d with cursor := ⟨[0x01, 0xb2], []⟩, bits := 1, bitOffset := 2 },
      { values := [.boolean true, .boolean false, .boolean true, .boolean true,
                   .boolean false] })) :=
  ((values_eq_times (by decide) (by decide)).2.1 _ _ rfl).2

end Columnar.Plain.Decoder
