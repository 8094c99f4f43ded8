import Columnar.Proofs.Hybrid.Encoder

/-!
# Batches in one stream

Batches are given to one encoder, one call after the other.  A batch with a value too wide is
refused and leaves nothing behind; the others lie one behind the other in the stream, each
with the zeros that fill its last group, and there is nothing else in it.

* `Encoder.call vs`        one call of an encoder;
* `Encoder.calls batches`  calls one after the other, those that fail included;
* `fits w vs`              the values of a batch have `w` bits;
* `EndsWhole ps`           the last group of pieces is whole;
* `carried w batches`      what a stream of batches holds.
-/

namespace Columnar.Hybrid

/-! ## calls -/

/-- the values of a batch have `w` bits -/
def fits (w : Nat) (vs : List Nat) : Bool := vs.all (· < 2 ^ w)

theorem fits_iff {w : Nat} {vs : List Nat} : fits w vs = true ↔ ∀ v ∈ vs, v < 2 ^ w := by
  rw [fits, List.all_eq_true]
  exact forall₂_congr fun _ _ => decide_eq_true_iff

namespace Encoder

/-- one call: the stream is what was encoded, once it was -/
def call (vs : List Nat) : Step Encoder Error Unit := do
  let e ← Step.state
  let e' ← Step.ofExcept (e.encode vs)
  Step.put e'

/-- calls one after the other, whether they fail or not, and what each of them answered -/
def calls : List (List Nat) → Encoder → List (Except Error Unit) × Encoder
  | [], e => ([], e)
  | vs :: batches, e =>
    let (answer, e₁) := call vs e
    let (answers, e₂) := calls batches e₁
    (answer :: answers, e₂)

/-- the bytes of the batches that fit, in order -/
def written (w : Nat) (batches : List (List Nat)) : Bytes :=
  (batches.filter (fits w)).flatMap fun vs => (cut vs).flatMap (Piece.bytes w)

theorem encode_of_fits {e : Encoder} {vs : List Nat} (h : fits e.width vs = true) :
    e.encode vs = .ok ⟨e.width, e.bytes ++ (cut vs).flatMap (Piece.bytes e.width)⟩ := by
  have hnone : (vs.find? fun v => decide (e.width < bitWidth v)) = none := by
    refine List.find?_eq_none.mpr fun v hv => ?_
    rw [decide_eq_true_iff, Nat.not_lt]
    exact (bitWidth_le_iff v e.width).mpr (fits_iff.mp h v hv)
  rw [encode, hnone]
  rfl

theorem encode_of_not_fits {e : Encoder} {vs : List Nat} (h : fits e.width vs = false) :
    ∃ v ∈ vs, e.encode vs = .error (Fault.valueTooWide v e.width) := by
  rcases hfind : vs.find? fun v => decide (e.width < bitWidth v) with _ | v
  · refine absurd (fits_iff.mpr fun v hv => ?_) (Bool.eq_false_iff.mp h)
    have hv := List.find?_eq_none.mp hfind v hv
    rw [decide_eq_true_iff, Nat.not_lt] at hv
    exact (bitWidth_le_iff v e.width).mp hv
  · exact ⟨v, List.mem_of_find?_eq_some hfind, by rw [encode, hfind]⟩

/-- a batch that fits is put behind the stream -/
theorem call_of_fits {e : Encoder} {vs : List Nat} (h : fits e.width vs = true) :
    call vs e = (.ok (), ⟨e.width, e.bytes ++ (cut vs).flatMap (Piece.bytes e.width)⟩) := by
  rw [call, Step.state_bind, encode_of_fits h]
  rfl

/-- a batch that does not fit changes nothing -/
theorem call_of_not_fits {e : Encoder} {vs : List Nat} (h : fits e.width vs = false) :
    ∃ v ∈ vs, call vs e = (.error (Fault.valueTooWide v e.width), e) := by
  obtain ⟨v, hv, hencode⟩ := encode_of_not_fits h
  refine ⟨v, hv, ?_⟩
  rw [call, Step.state_bind, hencode]
  rfl

/-- a call answers for its own batch -/
theorem call_isOk (e : Encoder) (vs : List Nat) : (call vs e).1.isOk = fits e.width vs := by
  cases h : fits e.width vs with
  | true =>
    rw [call_of_fits h]
    rfl
  | false =>
    obtain ⟨v, -, hcall⟩ := call_of_not_fits h
    rw [hcall]
    rfl

theorem call_width (e : Encoder) (vs : List Nat) : (call vs e).2.width = e.width := by
  cases h : fits e.width vs with
  | true => rw [call_of_fits h]
  | false =>
    obtain ⟨v, -, hcall⟩ := call_of_not_fits h
    rw [hcall]

/-- after any calls the batches that fit are in the stream -/
theorem calls_bytes (batches : List (List Nat)) (e : Encoder) :
    (calls batches e).2 = ⟨e.width, e.bytes ++ written e.width batches⟩ := by
  induction batches generalizing e with
  | nil => rw [calls, written, List.filter_nil, List.flatMap_nil, List.append_nil]
  | cons vs batches ih =>
    show (calls batches (call vs e).2).2 = _
    rw [ih, call_width, written, written]
    cases h : fits e.width vs with
    | true => rw [call_of_fits h, List.filter_cons_of_pos h, List.flatMap_cons, List.append_assoc]
    | false =>
      obtain ⟨v, -, hcall⟩ := call_of_not_fits h
      rw [hcall, List.filter_cons_of_neg (Bool.eq_false_iff.mp h)]

theorem calls_isOk (batches : List (List Nat)) (e : Encoder) :
    (calls batches e).1.map Except.isOk = batches.map (fits e.width) := by
  induction batches generalizing e with
  | nil => rfl
  | cons vs batches ih =>
    show (call vs e).1.isOk :: (calls batches (call vs e).2).1.map Except.isOk = _
    rw [call_isOk, ih, call_width, List.map_cons]

end Encoder

/-! ## what is read -/

/-- the last group of pieces is whole: they end in a repeated run, or in full groups -/
def EndsWhole (ps : List Piece) : Prop :=
  ∀ us, ps.getLast? = some (.packed us) → us.length % groupSize = 0

/-- the batches that fit, each with the zeros that fill its last group -/
def carried (w : Nat) (batches : List (List Nat)) : List Nat :=
  (batches.filter (fits w)).flatMap fun vs => vs ++ List.replicate (filling (cut vs)) 0

theorem filling_eq_zero {ps : List Piece} (h : EndsWhole ps) : filling ps = 0 := by
  rw [filling]
  rcases hlast : ps.getLast? with _ | ⟨v, n⟩ | us
  · rfl
  · rfl
  · exact Piece.padding_of_whole (h us hlast)

/-- a decoder behind its run and at the end of its stream has no further value -/
theorem Decoder.next_at_end {d : Decoder} (hrun : d.run.left = 0) (hrest : d.stream.rest = []) :
    next d = (.error (Fault.outOfRuns d.stream.size), d) := by
  have hheader : header d = (.error (Fault.outOfRuns d.stream.size), d) := by
    rw [header, hrest]
    rfl
  have hready : ready d = (.error (Fault.outOfRuns d.stream.size), d) := by
    rw [ready, Step.state_bind, if_pos hrun, advance, Step.bind_error]
    rw [readRun, Step.bind_error hheader]
  rw [next, Step.bind_error hready]

/-- the pieces of the batches that fit, in one list -/
theorem pieces_of_batches {w : Nat} {batches : List (List Nat)}
    (hlen : ∀ vs ∈ batches, vs.length < 2 ^ 61) :
    ∃ ps : List Piece, (∀ p ∈ ps, p.Sound w) ∧ ps.flatMap Piece.values = carried w batches ∧
      ps.flatMap (Piece.bytes w) = Encoder.written w batches := by
  refine ⟨(batches.filter (fits w)).flatMap cut, ?_, ?_, List.flatMap_assoc⟩
  · intro p hp
    obtain ⟨vs, hvs, hp⟩ := List.mem_flatMap.mp hp
    obtain ⟨hvs, hfits⟩ := List.mem_filter.mp hvs
    exact cut_sound (fits_iff.mp hfits) (hlen vs hvs) p hp
  · rw [List.flatMap_assoc, carried]
    simp only [cut_values]

/-- the batches that fit come back in order, each with the zeros behind it, and with the last
of them the stream is at its end; a batch holds fewer than `2 ^ 61` values, as every slice of
memory does -/
theorem decode_calls {w : Nat} (hw : w ≤ maxWidth) {batches : List (List Nat)}
    (hlen : ∀ vs ∈ batches, vs.length < 2 ^ 61) :
    (∀ (e : Encoder) (vs : List Nat), e.width = w →
      ((Encoder.call vs e).1.isOk ↔ ∀ v ∈ vs, v < 2 ^ w) ∧
      (¬ (Encoder.call vs e).1.isOk → (Encoder.call vs e).2 = e)) ∧
    (∀ vs ∈ batches, filling (cut vs) < groupSize ∧
      (EndsWhole (cut vs) → filling (cut vs) = 0)) ∧
    ∃ (e : Encoder) (d d' : Decoder), Encoder.ofWidth w = .ok e ∧
      (Encoder.calls batches e).1.map Except.isOk = batches.map (fits w) ∧
      Decoder.ofBytes (Encoder.calls batches e).2.bytes w = .ok d ∧
      Step.times (carried w batches).length Decoder.next d = (.ok (carried w batches), d') ∧
      d'.consumed = (Encoder.calls batches e).2.bytes.length ∧
      (∃ x : Error, Decoder.next d' = (.error x, d') ∧ x.kind = .layout) ∧
      ∀ vs, batches = [vs] → (∀ v ∈ vs, v < 2 ^ w) →
        ∃ d₁, Step.times vs.length Decoder.next d = (.ok vs, d₁) := by
  have hcalls (e : Encoder) (vs : List Nat) (he : e.width = w) :
      ((Encoder.call vs e).1.isOk ↔ ∀ v ∈ vs, v < 2 ^ w) ∧
        (¬ (Encoder.call vs e).1.isOk → (Encoder.call vs e).2 = e) := by
    rw [Encoder.call_isOk, he]
    refine ⟨fits_iff, fun hfits => ?_⟩
    obtain ⟨v, -, hcall⟩ := Encoder.call_of_not_fits (he ▸ Bool.eq_false_iff.mpr hfits)
    rw [hcall]
  refine ⟨hcalls, fun vs _ => ⟨filling_lt _, filling_eq_zero⟩, ?_⟩
  obtain ⟨ps, hsound, hvalues, hbytes⟩ := pieces_of_batches (w := w) hlen
  obtain ⟨run, hrun, htimes⟩ :=
    Decoder.times_pieces_all [] hw hsound [] (rfl : (Run.repeated 0 0).left = 0)
  rw [hvalues, hbytes, List.append_nil, List.append_nil] at htimes
  have hwritten : (Encoder.calls batches ⟨w, []⟩).2.bytes = Encoder.written w batches := by
    rw [Encoder.calls_bytes]
    rfl
  refine ⟨⟨w, []⟩, ⟨.ofBytes (Encoder.written w batches), w, .repeated 0 0⟩,
    ⟨⟨(Encoder.written w batches).reverse, []⟩, w, run⟩, if_pos hw, Encoder.calls_isOk _ _, ?_,
    htimes, ?_, ⟨_, Decoder.next_at_end hrun rfl, rfl⟩, ?_⟩
  · rw [hwritten, Decoder.ofBytes, if_pos hw]
  · rw [hwritten]
    exact List.length_reverse
  · intro vs hone hfits
    have hcarried : carried w batches = vs ++ List.replicate (filling (cut vs)) 0 := by
      rw [carried, hone, List.filter_cons_of_pos (fits_iff.mpr hfits), List.filter_nil,
        List.flatMap_singleton]
    rw [hcarried, List.length_append] at htimes
    obtain ⟨d₁, hfirst⟩ := Step.times_prefix htimes
    rw [List.take_left] at hfirst
    exact ⟨d₁, hfirst⟩

/-- nine ones are a repeated run, nine does not fit three bits, and five is filled up with zeros -/
theorem decode_calls_three :
    ∃ e d d', Encoder.ofWidth 3 = .ok e ∧
      Decoder.ofBytes (Encoder.calls [[1, 1, 1, 1, 1, 1, 1, 1, 1], [9], [5]] e).2.bytes 3 = .ok d ∧
      Step.times 17 Decoder.next d =
        (.ok [1, 1, 1, 1, 1, 1, 1, 1, 1, 5, 0, 0, 0, 0, 0, 0, 0], d') := by
  obtain ⟨-, -, e, d, d', he, -, hd, htimes, -⟩ :=
    decode_calls (show 3 ≤ maxWidth by decide)
      (show ∀ vs ∈ [[1, 1, 1, 1, 1, 1, 1, 1, 1], [9], [5]], vs.length < 2 ^ 61 by decide)
  exact ⟨e, d, d', he, hd, htimes⟩

end Columnar.Hybrid
