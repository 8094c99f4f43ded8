import Columnar.Hybrid.Decoder
import Columnar.Proofs.Hybrid.Bits
import Columnar.Proofs.Varint

/-!
# Levels at once and one by one

A mask of levels is what the levels say one by one, however the runs lie: it fails where they
fail, and leaves the decoder where they do.

* `Run.values n w`      the first values of a run;
* `maskOf levels`       the mask of the zeros of a list;
* `Decoder.nullMask_eq` a mask and as many single levels.
-/

namespace Columnar.Hybrid

/-! ## runs -/

namespace Run

/-- the first `n` values of a run -/
def values (w n : Nat) (r : Run) : List Nat := (List.range n).map fun i => (r.drop i).head w

theorem drop_zero (r : Run) : r.drop 0 = r := by
  cases r <;> rfl

theorem drop_drop (r : Run) (n m : Nat) : (r.drop n).drop m = r.drop (n + m) := by
  cases r <;> simp only [drop, Nat.sub_sub, Nat.add_assoc]

theorem left_drop (r : Run) (n : Nat) : (r.drop n).left = r.left - n := by
  cases r <;> rfl

@[simp] theorem length_values (w n : Nat) (r : Run) : (r.values w n).length = n := by
  rw [values, List.length_map, List.length_range]

theorem values_succ (w n : Nat) (r : Run) :
    r.values w (n + 1) = r.head w :: (r.drop 1).values w n := by
  rw [values, values, List.range_succ_eq_map, List.map_cons, List.map_map, drop_zero]
  congr 2
  funext i
  rw [drop_drop, Nat.add_comm 1 i]
  rfl

end Run

/-! ## masks -/

/-- the mask of the zeros among levels, the first level at the lowest bit -/
def maskOf : List Nat → Nat
  | [] => 0
  | l :: ls => (if l = 0 then 1 else 0) + 2 * maskOf ls

theorem testBit_maskOf (ls : List Nat) (i : Nat) :
    (maskOf ls).testBit i = decide (ls[i]? = some 0) := by
  induction ls generalizing i with
  | nil => simp [maskOf]
  | cons l ls ih =>
    have hb : (if l = 0 then 1 else 0 : Nat) < 2 := by
      split <;> decide
    cases i with
    | zero =>
      rw [maskOf, Nat.testBit_zero, Nat.add_mul_mod_self_left, Nat.mod_eq_of_lt hb]
      by_cases h : l = 0 <;> simp [h]
    | succ i =>
      rw [maskOf, Nat.testBit_succ, Nat.add_mul_div_left _ _ (by decide), Nat.div_eq_of_lt hb,
        Nat.zero_add, ih, List.getElem?_cons_succ]

theorem maskOf_append (ls ms : List Nat) :
    maskOf (ls ++ ms) = maskOf ls ||| (maskOf ms <<< ls.length) := by
  apply Nat.eq_of_testBit_eq
  intro i
  rw [Nat.testBit_or, Nat.testBit_shiftLeft, testBit_maskOf, testBit_maskOf, testBit_maskOf]
  by_cases h : i < ls.length
  · rw [List.getElem?_append_left h]
    simp [Nat.not_le.mpr h]
  · have h' : ls.length ≤ i := Nat.le_of_not_lt h
    rw [List.getElem?_append_right h', List.getElem?_eq_none h']
    simp [h']

/-- the zeros of a run of levels, of which no more are asked for than there are -/
theorem Run.zeros_eq (r : Run) {n : Nat} (h : n ≤ 57) : r.zeros n = maskOf (r.values 1 n) := by
  apply Nat.eq_of_testBit_eq
  intro i
  have hget : (r.values 1 n)[i]? = if i < n then some ((r.drop i).head 1) else none := by
    rw [values, List.getElem?_map]
    by_cases hi : i < n
    · rw [List.getElem?_range hi, if_pos hi]
      rfl
    · rw [List.getElem?_eq_none (by rw [List.length_range]; omega), if_neg hi]
      rfl
  rw [testBit_maskOf, hget]
  cases r with
  | repeated v left =>
    by_cases hv : v = 0 <;> by_cases hi : i < n <;>
      simp [zeros, drop, head, hv, hi, Nat.testBit_two_pow_sub_one]
  | packed bs index left =>
    have hbit : unpack 1 bs (index + i) < 2 := unpack_lt 1 bs _
    rw [zeros, Nat.testBit_xor, Nat.testBit_two_pow_sub_one, testBit_extract h]
    by_cases hi : i < n
    · by_cases hu : unpack 1 bs (index + i) = 1
      · simp [hi, hu, drop, head]
      · have hz : unpack 1 bs (index + i) = 0 := by omega
        simp [hi, hz, drop, head]
    · simp [hi]

/-- the places of a member, among the first `m`, are as many as it is there -/
theorem countP_range {α : Type} [DecidableEq α] (a : α) (as : List α) (m : Nat)
    (h : as.length ≤ m) :
    (List.range m).countP (fun i => decide (as[i]? = some a)) =
      as.countP fun b => decide (b = a) := by
  induction as generalizing m with
  | nil => simp
  | cons b as ih =>
    obtain ⟨m, rfl⟩ : ∃ k, m = k + 1 := ⟨m - 1, by simp at h; omega⟩
    have hm : as.length ≤ m := Nat.le_of_succ_le_succ h
    rw [List.range_succ_eq_map, List.countP_cons, List.countP_map, List.countP_cons, ← ih m hm]
    congr 1
    simp

/-- the bits of a mask are the levels that are zero -/
theorem popCount_maskOf {ls : List Nat} (h : ls.length ≤ 16) :
    Decoder.popCount (maskOf ls) = ls.countP (· == 0) := by
  refine Eq.trans ?_ (countP_range 0 ls 16 h)
  rw [Decoder.popCount]
  congr 1
  funext i
  rw [testBit_maskOf]

/-- the bits of a mask are counted, and what is not counted are the levels that are not zero -/
theorem sub_popCount {ls : List Nat} (h : ls.length ≤ 16) :
    ls.length - Decoder.popCount (maskOf ls) = ls.countP (· != 0) := by
  have hne : (fun l : Nat => decide ¬(l == 0) = true) = (· != 0) := by
    funext l
    cases h : l == 0 <;> simp [bne, h]
  have hsum := List.length_eq_countP_add_countP (· == 0) (l := ls)
  rw [hne] at hsum
  rw [popCount_maskOf h, hsum, Nat.add_sub_cancel_left]

/-! ## single levels -/

namespace Decoder

theorem next_eq {d : Decoder} (h : 0 < d.run.left) :
    next d = (.ok (d.run.head d.width), { d with run := d.run.drop 1 }) := by
  have hr : ready d = (.ok (), d) := by
    rw [ready, Step.state_bind, if_neg (Nat.ne_of_gt h)]
    rfl
  rw [next, Step.bind_ok hr]
  rfl

/-- the values of one run -/
theorem times_next {n : Nat} {d : Decoder} (h : n ≤ d.run.left) :
    Step.times n next d = (.ok (d.run.values d.width n), { d with run := d.run.drop n }) := by
  induction n generalizing d with
  | zero =>
    rw [Step.times_zero, Run.drop_zero]
    rfl
  | succ n ih =>
    have hn : n ≤ (d.run.drop 1).left := by
      rw [Run.left_drop]
      omega
    rw [Step.times_succ, Step.bind_ok (next_eq (Nat.lt_of_lt_of_le (Nat.succ_pos n) h)),
      Step.bind_ok (ih (d := { d with run := d.run.drop 1 }) hn), Run.drop_drop, Run.values_succ,
      Nat.add_comm 1 n]
    rfl

/-! ## moving on -/

/-- how a decoder moves on: over the same stream, in values of the same width -/
structure Follows (d e : Decoder) : Prop where
  stream : d.stream.Follows e.stream
  width : e.width = d.width

theorem Follows.refl (d : Decoder) : d.Follows d := ⟨.refl _, rfl⟩

theorem Follows.trans {d e f : Decoder} (h : d.Follows e) (h' : e.Follows f) : d.Follows f :=
  ⟨h.stream.trans h'.stream, h'.width.trans h.width⟩

theorem Follows.setRun {d e : Decoder} (h : d.Follows e) (run : Run) :
    d.Follows { e with run } := ⟨h.stream, h.width⟩

/-- the place in a stream behind a part that was read on its own -/
theorem follows_join {d : Decoder} {c : Cursor} (h : (Cursor.ofBytes d.stream.rest).Follows c) :
    d.Follows { d with stream := ⟨c.before ++ d.stream.before, c.rest⟩ } := by
  have hd : c.before.reverse ++ c.rest = d.stream.rest := h.data
  refine ⟨⟨?_, ?_⟩, rfl⟩
  · show (c.before ++ d.stream.before).reverse ++ c.rest = d.stream.before.reverse ++ d.stream.rest
    rw [List.reverse_append, List.append_assoc, hd]
  · show d.stream.before.length ≤ (c.before ++ d.stream.before).length
    rw [List.length_append]
    exact Nat.le_add_left _ _

theorem header_follows (d : Decoder) : d.Follows (header d).2 := by
  have hf := Varint.read_follows (.ofBytes d.stream.rest)
  unfold header
  split
  · exact Follows.refl d
  · split
    · rename_i n c e
      rw [e] at hf
      exact follows_join hf
    · exact Follows.refl d

theorem header_pos {d e : Decoder} {n : Nat} (h : header d = (.ok n, e)) :
    d.stream.pos < e.stream.pos := by
  unfold header at h
  split at h
  · cases h
  · split at h
    · rename_i n' c e'
      have hlt := Varint.read_pos e'
      cases h
      show d.stream.before.length < (c.before ++ d.stream.before).length
      rw [List.length_append]
      have : 0 < c.before.length := hlt
      omega
    · cases h

theorem body_follows (n : Nat) (d : Decoder) : d.Follows (body n d).2 := by
  have hf := Cursor.view_follows n d.stream
  unfold body
  split <;> rename_i e <;> rw [e] at hf <;> exact ⟨hf, rfl⟩

theorem readRun_maintains (d : Decoder) : Step.Maintains d.Follows Step.Any readRun := by
  have hbody (n : Nat) : Step.Maintains d.Follows Step.Any (body n) :=
    Step.Maintains.of_forall fun e h => h.trans (body_follows n e)
  refine Step.maintains_bind (Step.Maintains.of_forall fun e h => h.trans (header_follows e))
    fun h _ => ?_
  refine Step.maintains_bind (P := Step.Any) (Step.maintains_look fun _ _ => trivial)
    fun width _ => ?_
  dsimp only
  split
  · split
    · exact Step.maintains_bind (hbody _) fun _ _ => Step.maintains_pure trivial
    · exact Step.maintains_fail _
  · exact Step.maintains_bind (hbody _) fun _ _ => Step.maintains_pure trivial

theorem advance_maintains (d : Decoder) (fuel : Nat) :
    Step.Maintains d.Follows Step.Any (advance fuel) := by
  induction fuel with
  | zero => exact Step.maintains_pure trivial
  | succ fuel ih =>
    apply Step.maintains_bind (readRun_maintains d)
    intro run _
    apply Step.maintains_bind (Step.maintains_update fun e h => h.setRun run)
    intro _ _
    split
    · exact ih
    · exact Step.maintains_pure trivial

theorem ready_maintains (d : Decoder) : Step.Maintains d.Follows Step.Any ready := by
  apply Step.maintains_bind Step.maintains_state
  intro e _
  split
  · exact advance_maintains d _
  · exact Step.maintains_pure trivial

theorem next_maintains (d : Decoder) : Step.Maintains d.Follows Step.Any next := by
  apply Step.maintains_bind (ready_maintains d)
  intro _ _
  apply Step.maintains_bind Step.maintains_state
  intro e he
  exact Step.maintains_bind (Step.maintains_put (he.setRun _)) fun _ _ =>
    Step.maintains_pure trivial

/-! ## standing in front of a value -/

theorem readRun_pos {d e : Decoder} {run : Run} (h : readRun d = (.ok run, e)) :
    d.stream.pos < e.stream.pos := by
  obtain ⟨n, d₁, hh, h₁⟩ := Step.bind_eq_ok.mp h
  have hlt := header_pos hh
  rw [Step.bind_ok (Step.look_apply _ _)] at h₁
  have hbody : ∀ {m : Nat} {f : Bytes → Run},
      (do let bs ← body m; pure (f bs) : Step Decoder Error Run) d₁ = (.ok run, e) →
        d.stream.pos < e.stream.pos := by
    intro m f hm
    obtain ⟨bs, d₂, hb, hp⟩ := Step.bind_eq_ok.mp hm
    have hf := (body_follows m d₁).stream.pos
    rw [hb] at hf
    cases hp
    exact Nat.lt_of_lt_of_le hlt hf
  split at h₁
  · split at h₁
    · exact hbody h₁
    · cases h₁
  · exact hbody h₁

/-- as many runs as bytes are left are enough to meet a value -/
theorem advance_left {fuel : Nat} {d e : Decoder} (hfuel : d.stream.remaining < fuel)
    (h : advance fuel d = (.ok (), e)) : 0 < e.run.left := by
  induction fuel generalizing d with
  | zero => exact absurd hfuel (Nat.not_lt_zero _)
  | succ fuel ih =>
    obtain ⟨run, d₁, hr, h₁⟩ := Step.bind_eq_ok.mp h
    have hlt := readRun_pos hr
    have hrem := ((readRun_maintains d).of_eq (Follows.refl d) hr).1.stream.remaining
    rw [Step.bind_ok (Step.update_apply _ _)] at h₁
    split at h₁
    · refine ih ?_ h₁
      show d₁.stream.remaining < fuel
      omega
    · rename_i hleft
      cases h₁
      exact Nat.pos_of_ne_zero hleft

theorem ready_left {d e : Decoder} (h : ready d = (.ok (), e)) : 0 < e.run.left := by
  rw [ready, Step.state_bind] at h
  split at h
  · exact advance_left (Nat.lt_succ_self _) h
  · rename_i hleft
    cases h
    exact Nat.pos_of_ne_zero hleft

theorem ready_eq {d : Decoder} (h : 0 < d.run.left) : ready d = (.ok (), d) := by
  rw [ready, Step.state_bind, if_neg (Nat.ne_of_gt h)]
  rfl

/-- values are read from where the decoder stands in front of one -/
theorem times_next_of_ready {n : Nat} {d e : Decoder} (h : ready d = (.ok (), e)) :
    Step.times (n + 1) next d = Step.times (n + 1) next e := by
  have he := ready_eq (ready_left h)
  have hn : next d = next e := by
    rw [next, Step.bind_ok h, Step.bind_ok he]
  rw [Step.times_succ, Step.bind_apply, Step.bind_apply, hn]

theorem times_next_of_error {n : Nat} {d e : Decoder} {x : Error} (h : ready d = (.error x, e)) :
    Step.times (n + 1) next d = (.error x, e) := by
  rw [Step.times_succ, Step.bind_error]
  rw [next, Step.bind_error h]

/-! ## several levels at once -/

/-- the levels that are still to be read are put behind the `filled` ones of the mask -/
theorem fillMask_eq (count : Nat) : ∀ (fuel filled mask : Nat) (d : Decoder), d.width = 1 →
    filled ≤ count → count ≤ filled + fuel → count ≤ maskSize →
    fillMask count fuel filled mask d = match Step.times (count - filled) next d with
      | (.ok ls, e) => (.ok (mask ||| (maskOf ls <<< filled)), e)
      | (.error x, e) => (.error x, e) := by
  intro fuel
  induction fuel with
  | zero =>
    intro filled mask d _ hle hfuel _
    obtain rfl : filled = count := by omega
    rw [Nat.sub_self, Step.times_zero, Step.pure_apply]
    simp [fillMask, maskOf, Step.pure_apply]
  | succ fuel ih =>
    intro filled mask d hwidth hle hfuel hmax
    unfold fillMask
    by_cases hlt : filled < count
    · rw [if_pos hlt]
      obtain ⟨k, hk⟩ : ∃ k, count - filled = k + 1 := ⟨count - filled - 1, by omega⟩
      rcases hr : ready d with ⟨x | ⟨⟩, e⟩
      · rw [hk, times_next_of_error hr, Step.bind_error hr]
      · have hleft := ready_left hr
        have hw : e.width = 1 := by
          rw [((ready_maintains d).of_eq (Follows.refl d) hr).1.width, hwidth]
        -- the run in front gives `take` levels, and the rest comes from behind it
        obtain ⟨take, htake⟩ : ∃ t, t = min e.run.left (count - filled) := ⟨_, rfl⟩
        have hsplit : count - filled = take + (count - (filled + take)) := by omega
        have htimes : Step.times (count - filled) next d = (do
            let ls ← Step.times (count - (filled + take)) next
            pure (e.run.values 1 take ++ ls)) { e with run := e.run.drop take } := by
          rw [hk, times_next_of_ready hr, ← hk, hsplit, Step.times_add,
            Step.bind_ok (times_next (by omega)), hw]
        rw [Step.bind_ok hr, htimes, Step.state_bind,
          Step.bind_ok (Step.put_apply _ _), ← htake,
          ih (filled + take) _ { e with run := e.run.drop take } hw (by omega) (by omega) hmax,
          Step.bind_apply]
        rcases Step.times (count - (filled + take)) next { e with run := e.run.drop take } with ⟨x | ls, f⟩
        · rfl
        · have hz : e.run.zeros take = maskOf (e.run.values 1 take) := by
            apply Run.zeros_eq _
            have : maskSize = 16 := rfl
            omega
          show (Except.ok _, f) = (Except.ok _, f)
          rw [maskOf_append, Run.length_values, hz, Nat.shiftLeft_or_distrib, ← Nat.shiftLeft_add,
            Nat.or_assoc, Nat.add_comm take filled]
    · obtain rfl : filled = count := by omega
      rw [if_neg hlt, Nat.sub_self, Step.times_zero, Step.pure_apply]
      simp [maskOf, Step.pure_apply]

theorem length_times {σ ε α : Type} {x : Step σ ε α} {n : Nat} {s t : σ} {as : List α}
    (h : Step.times n x s = (.ok as, t)) : as.length = n :=
  ((Step.maintains_times (Step.maintains_any x) n).of_eq trivial h).2.1

/-- a mask of up to sixteen levels is what as many single levels say -/
theorem nullMask_eq (count : Nat) {d : Decoder} (hwidth : d.width = 1) (h : count ≤ maskSize) :
    nullMask count d = match Step.times count next d with
      | (.ok ls, e) => (.ok (maskOf ls, ls.countP (· != 0)), e)
      | (.error x, e) => (.error (.error x), e) := by
  have hfill := fillMask_eq count count 0 0 d hwidth (Nat.zero_le _) (by omega) h
  rw [Nat.sub_zero] at hfill
  rw [nullMask, if_neg (Nat.not_lt.mpr h)]
  rcases e : Step.times count next d with ⟨x | ls, f⟩
  · rw [e] at hfill
    exact Step.bind_error (Step.lift_error hfill) _
  · rw [e] at hfill
    dsimp only at hfill
    rw [Nat.zero_or, Nat.shiftLeft_zero] at hfill
    have hlen := length_times e
    have hcount : count - popCount (maskOf ls) = ls.countP (· != 0) := by
      rw [← hlen]
      exact sub_popCount (Nat.le_trans (Nat.le_of_eq hlen) h)
    refine (Step.bind_ok (Step.lift_ok hfill) _).trans ?_
    rw [hcount]
    rfl

end Decoder

end Columnar.Hybrid
