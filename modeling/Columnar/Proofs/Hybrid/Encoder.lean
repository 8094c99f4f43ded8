import Columnar.Hybrid.Encoder
import Columnar.Proofs.Hybrid.Decoder
import Columnar.Proofs.Step

/-!
# What the hybrid stream carries

A batch of values is cut into runs and pieces, and a piece is read as one run.  What is read is
the batch, and behind it the zeros that fill its last group.

* `expand rs`             values with their repetitions, one by one;
* `Piece.values p`        the values that are read for a piece;
* `Piece.Sound w p`       a piece of values of `w` bits that can be read;
* `filling ps`            the zeros that are read behind pieces;
* `cut vs`                the pieces of a batch;
* `cut_values`            they hold the batch, and zeros behind it;
* `Decoder.times_pieces`  what is read from pieces;
* `times_encode`          what is read from a batch.
-/

namespace Columnar

/-- the first of several answers of a step -/
theorem Step.times_prefix {σ ε α : Type} {x : Step σ ε α} {n m : Nat} {s t : σ} {as : List α}
    (h : times (n + m) x s = (.ok as, t)) : ∃ u, times n x s = (.ok (as.take n), u) := by
  rw [times_add] at h
  obtain ⟨front, u, hfront, h₁⟩ := bind_eq_ok.mp h
  obtain ⟨back, v, -, h₂⟩ := bind_eq_ok.mp h₁
  cases h₂
  refine ⟨u, ?_⟩
  rw [hfront, ← Hybrid.Decoder.length_times hfront, List.take_left]

namespace Hybrid

/-! ## packed values -/

theorem ofDigits_append (w : Nat) (us vs : List Nat) :
    ofDigits w (us ++ vs) = ofDigits w us + 2 ^ (us.length * w) * ofDigits w vs := by
  induction us with
  | nil => simp [ofDigits]
  | cons u us ih =>
    rw [List.cons_append, ofDigits, ofDigits, ih, List.length_cons, Nat.succ_mul,
      Nat.add_comm (us.length * w), Nat.pow_add, Nat.mul_add, Nat.mul_assoc, Nat.add_assoc]

theorem ofDigits_lt {w : Nat} {vs : List Nat} (h : ∀ v ∈ vs, v < 2 ^ w) :
    ofDigits w vs < 2 ^ (vs.length * w) := by
  induction vs with
  | nil => exact Nat.two_pow_pos _
  | cons v vs ih =>
    have hv := h v List.mem_cons_self
    have hvs := ih fun u hu => h u (List.mem_cons_of_mem v hu)
    have hmul : 2 ^ w * (ofDigits w vs + 1) ≤ 2 ^ w * 2 ^ (vs.length * w) :=
      Nat.mul_le_mul_left _ hvs
    rw [ofDigits, List.length_cons, Nat.succ_mul, Nat.add_comm (vs.length * w), Nat.pow_add]
    rw [Nat.mul_add, Nat.mul_one] at hmul
    omega

/-- the digits of a number of digits -/
theorem ofDigits_div_mod {w : Nat} {vs : List Nat} (h : ∀ v ∈ vs, v < 2 ^ w) (i : Nat) :
    ofDigits w vs / 2 ^ (i * w) % 2 ^ w = vs[i]?.getD 0 := by
  induction vs generalizing i with
  | nil => simp [ofDigits]
  | cons v vs ih =>
    have hv := h v List.mem_cons_self
    have hvs := ih fun u hu => h u (List.mem_cons_of_mem v hu)
    cases i with
    | zero =>
      rw [ofDigits, Nat.zero_mul, Nat.pow_zero, Nat.div_one, Nat.add_mul_mod_self_left,
        Nat.mod_eq_of_lt hv]
      rfl
    | succ i =>
      rw [ofDigits, Nat.succ_mul, Nat.add_comm (i * w), Nat.pow_add, ← Nat.div_div_eq_div_mul,
        Nat.add_mul_div_left _ _ (Nat.two_pow_pos w), Nat.div_eq_of_lt hv, Nat.zero_add, hvs,
        List.getElem?_cons_succ]

theorem pow_group (w : Nat) : 256 ^ w = 2 ^ (groupSize * w) := by
  rw [Nat.pow_mul]
  rfl

theorem fromLE_packGroup {w : Nat} {vs : List Nat} (h : ∀ v ∈ vs, v < 2 ^ w)
    (hlen : vs.length ≤ groupSize) : fromLE (packGroup w vs) = ofDigits w vs := by
  rw [packGroup, fromLE_toLE, pow_group]
  refine Nat.mod_eq_of_lt (Nat.lt_of_lt_of_le (ofDigits_lt h) ?_)
  exact Nat.pow_le_pow_right (by decide) (Nat.mul_le_mul_right w hlen)

/-- groups spell the number whose digits are packed in them -/
theorem fromLE_packGroups {w n : Nat} {vs : List Nat} (h : ∀ v ∈ vs, v < 2 ^ w)
    (hlen : vs.length ≤ n * groupSize) : fromLE (packGroups w n vs) = ofDigits w vs := by
  induction n generalizing vs with
  | zero =>
    have hnil : vs = [] := List.length_eq_zero_iff.mp (by omega)
    rw [hnil]
    rfl
  | succ n ih =>
    have hrest : (vs.drop groupSize).length ≤ n * groupSize := by
      rw [List.length_drop]
      rw [Nat.succ_mul] at hlen
      omega
    have htake : fromLE (packGroup w (vs.take groupSize)) = ofDigits w (vs.take groupSize) :=
      fromLE_packGroup (fun v hv => h v (List.mem_of_mem_take hv)) (List.length_take_le _ _)
    have hdrop := ih (fun v hv => h v (List.mem_of_mem_drop hv)) hrest
    have hsplit := ofDigits_append w (vs.take groupSize) (vs.drop groupSize)
    rw [List.take_append_drop] at hsplit
    rw [packGroups, fromLE_append, packGroup_length, htake, hdrop, hsplit, pow_group]
    by_cases hle : groupSize ≤ vs.length
    · rw [List.length_take_of_le hle]
    · rw [List.drop_eq_nil_of_le (by omega)]
      simp [ofDigits]

/-- a packed value is the digit at its place, zero behind the last -/
theorem unpack_packGroups {w n : Nat} (hw : w ≤ maxWidth) {vs : List Nat}
    (h : ∀ v ∈ vs, v < 2 ^ w) (hlen : vs.length ≤ n * groupSize) (i : Nat) :
    unpack w (packGroups w n vs) i = vs[i]?.getD 0 := by
  rw [unpack_eq hw, fromLE_packGroups h hlen, ofDigits_div_mod h]

/-! ## runs and pieces -/

/-- values with their repetitions, one by one -/
def expand (rs : List (Nat × Nat)) : List Nat := rs.flatMap fun r => List.replicate r.2 r.1

theorem expand_runs (vs : List Nat) : expand (runs vs) = vs := by
  induction vs with
  | nil => rfl
  | cons v vs ih =>
    rw [runs]
    split
    · rename_i u n rest h
      rw [h] at ih
      split
      · rename_i huv
        rw [← ih, huv]
        simp [expand, List.replicate_succ]
      · rw [← ih]
        rfl
    · rename_i h
      rw [h] at ih
      rw [← ih]
      rfl

namespace Piece

/-- the zeros behind packed values -/
def padding (vs : List Nat) : Nat := (vs.length + 7) / 8 * groupSize - vs.length

/-- the values that are read for a piece -/
def values : Piece → List Nat
  | repeated v n => List.replicate n v
  | packed vs => vs ++ List.replicate (padding vs) 0

/-- a piece of values of `w` bits that can be read -/
structure Sound (w : Nat) (p : Piece) : Prop where
  fits : ∀ v ∈ p.values, v < 2 ^ w
  some : p.values ≠ []
  length : p.values.length < 2 ^ 62

/-- the zeros that are read behind what was written as a piece -/
def zeros : Piece → Nat
  | repeated _ _ => 0
  | packed vs => padding vs

theorem padding_lt (vs : List Nat) : padding vs < groupSize := by
  rw [padding, show groupSize = 8 from rfl]
  omega

/-- whole groups are not filled -/
theorem padding_of_whole {vs : List Nat} (h : vs.length % groupSize = 0) : padding vs = 0 := by
  rw [show groupSize = 8 from rfl] at h
  rw [padding, show groupSize = 8 from rfl]
  omega

end Piece

/-! ## the zeros behind a batch -/

/-- the zeros that fill the last group of pieces: no other group has to be filled -/
def filling (ps : List Piece) : Nat := (ps.getLast?.map Piece.zeros).getD 0

theorem filling_lt (ps : List Piece) : filling ps < groupSize := by
  rw [filling]
  rcases ps.getLast? with _ | ⟨v, n⟩ | us
  · decide
  · exact (by decide : 0 < groupSize)
  · exact Piece.padding_lt us

/-- behind pieces that need no filling the filling is that of the pieces behind them -/
theorem filling_append {ps : List Piece} (h : filling ps = 0) (qs : List Piece) :
    filling (ps ++ qs) = filling qs := by
  rw [filling, List.getLast?_append]
  rcases hq : qs.getLast? with _ | q
  · rw [Option.none_or, filling, hq]
    exact h
  · rw [Option.some_or, filling, hq]

theorem filling_cons_repeated (v n : Nat) (ps : List Piece) :
    filling (.repeated v n :: ps) = filling ps :=
  filling_append (rfl : filling [.repeated v n] = 0) ps

theorem filling_literals_of_whole {vs : List Nat} (h : vs.length % groupSize = 0) :
    filling (literals vs) = 0 := by
  rw [literals]
  split
  · rfl
  · exact Piece.padding_of_whole h

theorem literals_values (vs : List Nat) :
    (literals vs).flatMap Piece.values = vs ++ List.replicate (filling (literals vs)) 0 := by
  rw [literals]
  split
  · rename_i h
    rw [h]
    rfl
  · rw [List.flatMap_singleton]
    rfl

theorem literals_values_of_whole {vs : List Nat} (h : vs.length % groupSize = 0) :
    (literals vs).flatMap Piece.values = vs := by
  rw [literals_values, filling_literals_of_whole h, List.replicate_zero, List.append_nil]

theorem expand_cons (v n : Nat) (rs : List (Nat × Nat)) :
    expand ((v, n) :: rs) = List.replicate n v ++ expand rs := rfl

/-- the pieces hold the values that wait and those of the runs, and zeros behind them -/
theorem pieces_values (rs : List (Nat × Nat)) : ∀ waiting : List Nat,
    (pieces waiting rs).flatMap Piece.values =
      waiting ++ expand rs ++ List.replicate (filling (pieces waiting rs)) 0 := by
  induction rs with
  | nil =>
    intro waiting
    rw [pieces, literals_values, expand, List.flatMap_nil, List.append_nil]
  | cons r rs ih =>
    intro waiting
    obtain ⟨v, n⟩ := r
    rw [pieces, expand_cons]
    by_cases hfew : n < minRepeats
    · rw [if_pos hfew, ih, List.append_assoc waiting]
    · rw [if_neg hfew]
      obtain ⟨fill, hfill⟩ : ∃ m, m = (groupSize - waiting.length % groupSize) % groupSize :=
        ⟨_, rfl⟩
      dsimp only
      rw [← hfill]
      rw [show minRepeats = 8 from rfl] at hfew
      rw [show groupSize = 8 from rfl] at hfill
      have hle : fill ≤ n := by omega
      have hwhole : (waiting ++ List.replicate fill v).length % groupSize = 0 := by
        rw [List.length_append, List.length_replicate, show groupSize = 8 from rfl]
        omega
      have hsplit : List.replicate n v = List.replicate fill v ++ List.replicate (n - fill) v := by
        rw [List.replicate_append_replicate, Nat.add_sub_cancel' hle]
      have hfront := literals_values_of_whole hwhole
      have hnone := filling_literals_of_whole hwhole
      by_cases hmore : n - fill < minRepeats
      · rw [if_pos hmore, filling_append hnone, List.flatMap_append, hfront, ih, hsplit]
        simp only [List.append_assoc]
      · rw [if_neg hmore, filling_append hnone, filling_cons_repeated, List.flatMap_append,
          List.flatMap_cons, hfront, ih, hsplit]
        simp only [Piece.values, List.append_assoc, List.nil_append]

theorem literals_some {vs : List Nat} : ∀ p ∈ literals vs, p.values ≠ [] := by
  intro p hp
  by_cases h : vs = []
  · rw [literals, if_pos h] at hp
    cases hp
  · rw [literals, if_neg h] at hp
    obtain rfl := List.mem_singleton.mp hp
    simp [Piece.values, h]

/-- there are no empty pieces -/
theorem pieces_some (rs : List (Nat × Nat)) : ∀ waiting : List Nat,
    ∀ p ∈ pieces waiting rs, p.values ≠ [] := by
  induction rs with
  | nil => exact fun waiting => literals_some
  | cons r rs ih =>
    intro waiting p hp
    obtain ⟨v, n⟩ := r
    rw [pieces] at hp
    split at hp
    · exact ih _ p hp
    · dsimp only at hp
      split at hp
      · rcases List.mem_append.mp hp with hp | hp
        · exact literals_some p hp
        · exact ih _ p hp
      · rename_i hmore
        rcases List.mem_append.mp hp with hp | hp
        · exact literals_some p hp
        · rcases List.mem_cons.mp hp with rfl | hp
          · intro hnil
            rw [Piece.values, List.replicate_eq_nil_iff] at hnil
            rw [hnil] at hmore
            exact hmore (by decide)
          · exact ih _ p hp

/-- the pieces of a batch -/
def cut (vs : List Nat) : List Piece := pieces [] (runs vs)

/-- the pieces of a batch hold the batch, and the zeros that fill its last group -/
theorem cut_values (vs : List Nat) :
    (cut vs).flatMap Piece.values = vs ++ List.replicate (filling (cut vs)) 0 := by
  rw [cut, pieces_values, expand_runs, List.nil_append]

/-- the pieces of a batch can be read -/
theorem cut_sound {w : Nat} {vs : List Nat} (h : ∀ v ∈ vs, v < 2 ^ w)
    (hlen : vs.length < 2 ^ 61) : ∀ p ∈ cut vs, p.Sound w := by
  have hk := filling_lt (cut vs)
  rw [show groupSize = 8 from rfl] at hk
  intro p hp
  have hsub : p.values.Sublist (vs ++ List.replicate (filling (cut vs)) 0) := by
    rw [← cut_values]
    exact List.sublist_flatten_of_mem (List.mem_map_of_mem hp)
  refine ⟨fun v hv => ?_, pieces_some _ _ p hp, ?_⟩
  · rcases List.mem_append.mp (hsub.subset hv) with hv | hv
    · exact h v hv
    · rw [(List.mem_replicate.mp hv).2]
      exact Nat.two_pow_pos w
  · have hle := hsub.length_le
    rw [List.length_append, List.length_replicate] at hle
    omega

/-! ## reading a piece -/

/-- where packed values lie, and zeros behind them -/
theorem map_unpack {w n : Nat} (hw : w ≤ maxWidth) {vs : List Nat} (h : ∀ v ∈ vs, v < 2 ^ w)
    (hlen : vs.length ≤ n * groupSize) :
    (Run.packed (packGroups w n vs) 0 (n * groupSize)).values w (n * groupSize) =
      vs ++ List.replicate (n * groupSize - vs.length) 0 := by
  refine List.ext_getElem? fun i => ?_
  rw [Run.values, List.getElem?_map]
  by_cases hi : i < n * groupSize
  · rw [List.getElem?_range hi]
    show some (unpack w (packGroups w n vs) (0 + i)) = _
    rw [Nat.zero_add, unpack_packGroups hw h hlen]
    by_cases hv : i < vs.length
    · rw [List.getElem?_append_left hv, List.getElem?_eq_getElem hv]
      rfl
    · rw [List.getElem?_append_right (Nat.le_of_not_lt hv),
        List.getElem?_eq_none (Nat.le_of_not_lt hv), List.getElem?_replicate, if_pos (by omega)]
      rfl
  · rw [List.getElem?_eq_none (by rw [List.length_range]; omega), List.getElem?_eq_none]
    · rfl
    · rw [List.length_append, List.length_replicate]
      omega

namespace Decoder

variable (before rest : Bytes) {w : Nat} (run : Run)

theorem header_varint {n : Nat} (hn : n < 2 ^ 64) :
    header ⟨⟨before, Varint.encode n ++ rest⟩, w, run⟩ =
      (.ok n, ⟨⟨(Varint.encode n).reverse ++ before, rest⟩, w, run⟩) := by
  have hne : (Varint.encode n ++ rest).isEmpty = false := by
    have := Varint.encode_ne_nil n
    simp [List.isEmpty_eq_false_iff, this]
  have hread : Varint.read (.ofBytes (Varint.encode n ++ rest)) =
      (.ok n, ⟨(Varint.encode n).reverse ++ [], rest⟩) := Varint.read_encode hn [] rest
  simp only [header, hne, hread, List.append_nil]
  rfl

theorem body_append (bs : Bytes) :
    body bs.length ⟨⟨before, bs ++ rest⟩, w, run⟩ =
      (.ok bs, ⟨⟨bs.reverse ++ before, rest⟩, w, run⟩) := by
  rw [body, Cursor.view_append]

/-- a decoder behind its run stands in front of the first value of the next one -/
theorem ready_run {d e : Decoder} {r : Run} (hrun : d.run.left = 0) (h : readRun d = (.ok r, e))
    (hpos : r.left ≠ 0) : ready d = (.ok (), { e with run := r }) := by
  rw [ready, Step.state_bind, if_pos hrun, advance, Step.bind_ok h,
    Step.bind_ok (Step.update_apply _ _), if_neg hpos]
  rfl

theorem readRun_repeated {v n : Nat} (hn : n < 2 ^ 62) (hv : v < 2 ^ w) :
    readRun ⟨⟨before, (Piece.repeated v n).bytes w ++ rest⟩, w, run⟩ =
      (.ok (.repeated v n), ⟨⟨((Piece.repeated v n).bytes w).reverse ++ before, rest⟩, w, run⟩) := by
  have hvalue : fromLE (toLE ((w + 7) / 8) v) = v := by
    rw [fromLE_toLE]
    refine Nat.mod_eq_of_lt (Nat.lt_of_lt_of_le hv ?_)
    rw [show (256 : Nat) = 2 ^ 8 from rfl, ← Nat.pow_mul]
    exact Nat.pow_le_pow_right (by decide) (by omega)
  have hbody := body_append ((Varint.encode (2 * n)).reverse ++ before) rest (w := w) run
    (toLE ((w + 7) / 8) v)
  rw [toLE_length] at hbody
  rw [readRun, Piece.bytes, List.append_assoc,
    Step.bind_ok (header_varint before _ run (by omega)), Step.bind_ok (Step.look_apply _ _),
    if_neg (by omega), Step.bind_ok hbody, hvalue, List.reverse_append, List.append_assoc,
    Nat.mul_div_cancel_left n (by decide)]
  rfl

theorem readRun_packed (hw : w ≤ maxWidth) {vs : List Nat}
    (hlen : (vs.length + 7) / 8 * 8 < 2 ^ 62) :
    readRun ⟨⟨before, (Piece.packed vs).bytes w ++ rest⟩, w, run⟩ =
      (.ok (.packed (packGroups w ((vs.length + 7) / 8) vs) 0 ((vs.length + 7) / 8 * groupSize)),
        ⟨⟨((Piece.packed vs).bytes w).reverse ++ before, rest⟩, w, run⟩) := by
  have hbits : (vs.length + 7) / 8 * w ≤ (vs.length + 7) / 8 * 32 := Nat.mul_le_mul_left _ hw
  have hbody := body_append ((Varint.encode (2 * ((vs.length + 7) / 8) + 1)).reverse ++ before)
    rest (w := w) run (packGroups w ((vs.length + 7) / 8) vs)
  rw [packGroups_length] at hbody
  have hhalf : (2 * ((vs.length + 7) / 8) + 1) / 2 = (vs.length + 7) / 8 := by omega
  rw [readRun, Piece.bytes, List.append_assoc,
    Step.bind_ok (header_varint before _ run (by omega)), Step.bind_ok (Step.look_apply _ _),
    if_pos (by omega), hhalf, if_pos ⟨show (vs.length + 7) / 8 * w < 2 ^ 64 by omega,
      show (vs.length + 7) / 8 * 8 < 2 ^ 64 by omega⟩, Step.bind_ok hbody,
    List.reverse_append, List.append_assoc]
  rfl

/-- a piece is read as one run -/
theorem readRun_piece (hw : w ≤ maxWidth) {p : Piece} (h : p.Sound w) :
    ∃ r : Run, readRun ⟨⟨before, p.bytes w ++ rest⟩, w, run⟩ =
        (.ok r, ⟨⟨(p.bytes w).reverse ++ before, rest⟩, w, run⟩) ∧
      r.left = p.values.length ∧ r.values w r.left = p.values := by
  have hlen := h.length
  cases p with
  | repeated v n =>
    have hpos : n ≠ 0 := fun h0 => h.some (by rw [Piece.values, h0]; rfl)
    rw [Piece.values, List.length_replicate] at hlen
    refine ⟨.repeated v n, readRun_repeated before rest run hlen
      (h.fits v (List.mem_replicate.mpr ⟨hpos, rfl⟩)), ?_, ?_⟩
    · rw [Piece.values, List.length_replicate]
      rfl
    · show (List.range n).map (fun _ => v) = List.replicate n v
      rw [List.map_const', List.length_range]
  | packed vs =>
    have hgroups : vs.length ≤ (vs.length + 7) / 8 * groupSize := by
      rw [show groupSize = 8 from rfl]
      omega
    have hcount : (Piece.packed vs).values.length = (vs.length + 7) / 8 * groupSize := by
      rw [Piece.values, List.length_append, List.length_replicate, Piece.padding]
      omega
    rw [hcount] at hlen
    have hfits : ∀ v ∈ vs, v < 2 ^ w := fun v hv => h.fits v (List.mem_append_left _ hv)
    exact ⟨.packed (packGroups w ((vs.length + 7) / 8) vs) 0 ((vs.length + 7) / 8 * groupSize),
      readRun_packed before rest run hw hlen, hcount.symm, map_unpack hw hfits hgroups⟩

/-- a decoder that stands in front of a piece reads its values, and then stands behind it -/
theorem times_piece (hw : w ≤ maxWidth) {p : Piece} (h : p.Sound w) (hrun : run.left = 0) :
    ∃ run' : Run, run'.left = 0 ∧
      Step.times p.values.length next ⟨⟨before, p.bytes w ++ rest⟩, w, run⟩ =
        (.ok p.values, ⟨⟨(p.bytes w).reverse ++ before, rest⟩, w, run'⟩) := by
  obtain ⟨r, hr, hleft, hvalues⟩ := readRun_piece before rest run hw h
  obtain ⟨n, hn⟩ : ∃ n, r.left = n + 1 := by
    refine Nat.exists_eq_succ_of_ne_zero fun h0 => h.some ?_
    exact List.length_eq_zero_iff.mp (hleft.symm.trans h0)
  have hready : ready ⟨⟨before, p.bytes w ++ rest⟩, w, run⟩ =
      (.ok (), ⟨⟨(p.bytes w).reverse ++ before, rest⟩, w, r⟩) := ready_run hrun hr (by omega)
  have htimes : Step.times r.left next ⟨⟨(p.bytes w).reverse ++ before, rest⟩, w, r⟩ =
      (.ok (r.values w r.left), ⟨⟨(p.bytes w).reverse ++ before, rest⟩, w, r.drop r.left⟩) :=
    times_next (Nat.le_refl _)
  refine ⟨r.drop r.left, by rw [Run.left_drop, Nat.sub_self], ?_⟩
  rw [← hleft, hn, times_next_of_ready hready, ← hn, htimes, hvalues]

/-- a decoder that stands in front of pieces reads the values of all of them, and then stands
behind them -/
theorem times_pieces_all (hw : w ≤ maxWidth) {ps : List Piece} (h : ∀ p ∈ ps, p.Sound w) :
    ∀ (before : Bytes) {run : Run}, run.left = 0 → ∃ run' : Run, run'.left = 0 ∧
      Step.times (ps.flatMap Piece.values).length next
          ⟨⟨before, ps.flatMap (Piece.bytes w) ++ rest⟩, w, run⟩ =
        (.ok (ps.flatMap Piece.values),
          ⟨⟨(ps.flatMap (Piece.bytes w)).reverse ++ before, rest⟩, w, run'⟩) := by
  induction ps with
  | nil => exact fun before run hrun => ⟨run, hrun, rfl⟩
  | cons p ps ih =>
    intro before run hrun
    obtain ⟨run₁, hrun₁, hfirst⟩ := times_piece before (ps.flatMap (Piece.bytes w) ++ rest) run hw
      (h p List.mem_cons_self) hrun
    obtain ⟨run₂, hrun₂, hrest⟩ := ih (fun q hq => h q (List.mem_cons_of_mem p hq))
      ((p.bytes w).reverse ++ before) hrun₁
    refine ⟨run₂, hrun₂, ?_⟩
    rw [List.flatMap_cons, List.flatMap_cons, List.length_append, List.append_assoc,
      Step.times_add, Step.bind_ok hfirst, Step.bind_ok hrest, List.reverse_append,
      List.append_assoc]
    rfl

/-- of the values of pieces as many are read as are asked for -/
theorem times_pieces (hw : w ≤ maxWidth) {ps : List Piece} (h : ∀ p ∈ ps, p.Sound w)
    {n : Nat} (hrun : run.left = 0) (hn : n ≤ (ps.flatMap Piece.values).length) :
    ∃ e, Step.times n next ⟨⟨before, ps.flatMap (Piece.bytes w) ++ rest⟩, w, run⟩ =
      (.ok ((ps.flatMap Piece.values).take n), e) := by
  obtain ⟨run', -, hall⟩ := times_pieces_all rest hw h before hrun
  rw [← Nat.add_sub_cancel' hn] at hall
  exact Step.times_prefix hall

end Decoder

/-- a batch is encoded when its values fit -/
theorem encode_eq_ok {w : Nat} {vs : List Nat} {bs : Bytes} (h : encode w vs = .ok bs) :
    w ≤ maxWidth ∧ (∀ v ∈ vs, v < 2 ^ w) ∧
      (cut vs).flatMap (Piece.bytes w) = bs := by
  obtain ⟨e, he, h₁⟩ := Except.bind_eq_ok.mp h
  obtain ⟨e', he', h₂⟩ := Except.bind_eq_ok.mp h₁
  cases h₂
  rw [Encoder.ofWidth] at he
  split at he
  · rename_i hw
    cases he
    rw [Encoder.encode] at he'
    split at he'
    · cases he'
    · rename_i hfind
      cases he'
      refine ⟨hw, fun v hv => ?_, rfl⟩
      have hv := List.find?_eq_none.mp hfind v hv
      rw [decide_eq_true_iff, Nat.not_lt] at hv
      exact (bitWidth_le_iff v w).mp hv
  · cases he

/-- what is read of an encoded batch is the batch -/
theorem times_encode {w : Nat} {vs : List Nat} {bs : Bytes} (h : encode w vs = .ok bs)
    (hlen : vs.length < 2 ^ 61) (before rest : Bytes) {run : Run} (hrun : run.left = 0) :
    ∃ e, Step.times vs.length Decoder.next ⟨⟨before, bs ++ rest⟩, w, run⟩ = (.ok vs, e) := by
  obtain ⟨hw, hfits, rfl⟩ := encode_eq_ok h
  have hlen' : vs.length ≤ ((cut vs).flatMap Piece.values).length := by
    rw [cut_values, List.length_append]
    omega
  obtain ⟨e, htimes⟩ := Decoder.times_pieces before rest run hw (cut_sound hfits hlen) hrun hlen'
  rw [cut_values, List.take_left] at htimes
  exact ⟨e, htimes⟩

end Hybrid

end Columnar
