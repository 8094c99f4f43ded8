import Mathlib
import Columnar.Proofs.Hybrid.Decoder

/-!
# Levels in parts

The levels of a page are read in masks of up to sixteen.  A mask says what as many single
levels say and leaves the decoder where they leave it, so that it does not matter how the
levels are parted: runs without values, runs across two masks and levels other than zero and
one included.

* `Masks ls mask n`        a mask and a count that say which of the levels are zero;
* `Decoder.nullsIn counts` the levels in parts of the given sizes: which of them are nulls.
-/

namespace Columnar.Hybrid

/-- `mask` has the bits of the zeros among the levels and no other, and `n` levels are not zero -/
structure Masks (ls : List Nat) (mask n : Nat) : Prop where
  bit : ∀ i, mask.testBit i = true ↔ ls[i]? = some 0
  clear : ∀ i, ls.length ≤ i → mask.testBit i = false
  present : n = ls.countP (· != 0)

theorem masks_maskOf (ls : List Nat) : Masks ls (maskOf ls) (ls.countP (· != 0)) where
  bit i := by rw [testBit_maskOf, decide_eq_true_iff]
  clear i hi := by
    rw [testBit_maskOf, List.getElem?_eq_none hi]
    rfl
  present := rfl

/-- the first `count` bits of a mask -/
def flags (count mask : Nat) : List Bool := (List.range count).map mask.testBit

theorem flags_maskOf (ls : List Nat) : flags ls.length (maskOf ls) = ls.map (· == 0) := by
  refine List.ext_getElem (by simp [flags]) fun i h _ => ?_
  have hi : i < ls.length := by simpa [flags] using h
  simp only [flags, List.getElem_map, List.getElem_range, testBit_maskOf,
    List.getElem?_eq_getElem hi, Option.some.injEq]
  rfl

namespace Decoder

/-- the levels in parts of the given sizes: which of them are nulls -/
def nullsIn : List Nat → Step Decoder Failure (List Bool)
  | [] => pure []
  | count :: counts => do
    let (mask, _) ← nullMask count
    let rest ← nullsIn counts
    pure (flags count mask ++ rest)

/-- the levels in parts are the levels one by one -/
theorem nullsIn_eq {counts : List Nat} (hcounts : ∀ count ∈ counts, count ≤ maskSize)
    {d : Decoder} (hwidth : d.width = 1) :
    nullsIn counts d = match Step.times counts.sum next d with
      | (.ok ls, e) => (.ok (ls.map (· == 0)), e)
      | (.error x, e) => (.error (.error x), e) := by
  induction counts generalizing d with
  | nil => rfl
  | cons count counts ih =>
    obtain ⟨hcount, hcounts⟩ := List.forall_mem_cons.mp hcounts
    have hmask := nullMask_eq count hwidth hcount
    rw [List.sum_cons, Step.times_add, nullsIn]
    rcases hfirst : Step.times count next d with ⟨x | ls, e⟩
    · rw [hfirst] at hmask
      rw [Step.bind_error hfirst, Step.bind_error hmask]
    · rw [hfirst] at hmask
      -- a decoder keeps its width, so that the parts behind the first one are levels too
      have he : e.width = 1 := by
        have hfollows := Step.maintains_times (next_maintains d) count
        rw [(hfollows.of_eq (Follows.refl d) hfirst).1.width, hwidth]
      have hrest := ih hcounts he
      rw [Step.bind_ok hfirst, Step.bind_ok hmask]
      dsimp only
      rcases hsecond : Step.times counts.sum next e with ⟨x | ms, f⟩
      · rw [hsecond] at hrest
        rw [Step.bind_error hsecond, Step.bind_error hrest]
      · rw [hsecond] at hrest
        rw [Step.bind_ok hsecond, Step.bind_ok hrest]
        dsimp only [Step.pure_apply]
        rw [List.map_append, ← length_times hfirst, flags_maskOf]

/-- a mask answers and fails as so many single levels do, says what they say and leaves the
decoder where they do; in parts of up to sixteen the levels are the same nulls however they are
parted -/
theorem nullMask_refines {d : Decoder} (hwidth : d.width = 1) :
    (∀ count ≤ maskSize,
      ((nullMask count d).1.isOk ↔ (Step.times count next d).1.isOk) ∧
      (∀ ls e, Step.times count next d = (.ok ls, e) →
        ∃ mask n, nullMask count d = (.ok (mask, n), e) ∧ Masks ls mask n) ∧
      (∀ x e, Step.times count next d = (.error x, e) →
        nullMask count d = (.error (.error x), e))) ∧
    (∀ counts : List Nat, (∀ count ∈ counts, count ≤ maskSize) →
      (∀ ls e, Step.times counts.sum next d = (.ok ls, e) →
        nullsIn counts d = (.ok (ls.map (· == 0)), e)) ∧
      (∀ x e, Step.times counts.sum next d = (.error x, e) →
        nullsIn counts d = (.error (.error x), e))) ∧
    ∀ counts counts' : List Nat, (∀ count ∈ counts, count ≤ maskSize) →
      (∀ count ∈ counts', count ≤ maskSize) → counts.sum = counts'.sum →
      nullsIn counts d = nullsIn counts' d := by
  refine ⟨fun count hcount => ?_, fun counts hcounts => ?_, fun counts counts' h h' hsum => ?_⟩
  · have hmask := nullMask_eq count hwidth hcount
    refine ⟨?_, fun ls e hls => ?_, fun x e hx => ?_⟩
    · rcases htimes : Step.times count next d with ⟨x | ls, e⟩
      · rw [htimes] at hmask
        rw [hmask]
        rfl
      · rw [htimes] at hmask
        rw [hmask]
        rfl
    · rw [hls] at hmask
      exact ⟨maskOf ls, _, hmask, masks_maskOf ls⟩
    · rw [hx] at hmask
      exact hmask
  · have hnulls := nullsIn_eq hcounts hwidth
    refine ⟨fun ls e hls => ?_, fun x e hx => ?_⟩
    · rw [hls] at hnulls
      exact hnulls
    · rw [hx] at hnulls
      exact hnulls
  · rw [nullsIn_eq h hwidth, nullsIn_eq h' hwidth, hsum]

/-- three ones, a packed group, an empty run and ten zeros, in one mask and in parts of 5, 0
and 11 -/
theorem nullMask_refines_acrossRuns :
    ∃ d e, Decoder.ofBytes [6, 1, 3, 0x85, 0, 0, 20, 0] 1 = .ok d ∧
      (∃ mask n, nullMask 16 d = (.ok (mask, n), e) ∧
        Masks [1, 1, 1, 1, 0, 1, 0, 0, 0, 0, 1, 0, 0, 0, 0, 0] mask n) ∧
      e.consumed = 8 ∧ nullsIn [5, 0, 11] d = nullsIn [16] d := by
  obtain ⟨hmask, -, hparts⟩ := nullMask_refines
    (d := ⟨.ofBytes [6, 1, 3, 0x85, 0, 0, 20, 0], 1, .repeated 0 0⟩) rfl
  obtain ⟨-, hok, -⟩ := hmask 16 (by decide)
  have hlevels := hok [1, 1, 1, 1, 0, 1, 0, 0, 0, 0, 1, 0, 0, 0, 0, 0]
    ⟨⟨[0, 20, 0, 0, 0x85, 3, 1, 6], []⟩, 1, .repeated 0 5⟩ (by decide +kernel)
  exact ⟨_, _, rfl, hlevels, rfl, hparts [5, 0, 11] [16] (by decide) (by decide) rfl⟩

end Decoder

end Columnar.Hybrid
