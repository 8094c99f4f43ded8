import Columnar.Proofs.Varint

/-!
# Numbers in machine words

A number is cut into groups by quotients and remainders, and a signed one is folded by a case on
its sign.  On words both come down to masks and shifts, and the sign is a mask of its own.

* `Varint.ofWord v`       the groups of a word: seven bits are masked, then shifted out, until
                          nothing is left;
* `Varint.readWord`       a word: the bits of a group are set at the place of the group;
* `Zigzag.foldWord n`     a word in two's complement, shifted by one under its sign in every bit;
* `Zigzag.unfoldWord m`   the other way, with the lowest bit as the sign.

`encode_toNat`, `readWord_eq`, `toNat_foldWord` and `toInt_unfoldWord` say that these are the
codecs of numbers.  No group is shifted by a whole word: the tenth is shifted by 63 bits.
-/

namespace Columnar

/-- what stands above the other bits of a word is added to it, as far as the word reaches -/
theorem toNat_or_above {word : UInt64} {s : Nat} (hs : s < 64) (hword : word.toNat < 2 ^ s)
    (v : UInt64) :
    (word ||| v <<< UInt64.ofNat s).toNat = (word.toNat + 2 ^ s * v.toNat) % 2 ^ 64 := by
  have hparts : 2 ^ 64 = 2 ^ s * 2 ^ (64 - s) := by
    rw [← Nat.pow_add, Nat.add_sub_cancel' (Nat.le_of_lt hs)]
  have hshift : (v <<< UInt64.ofNat s).toNat = 2 ^ s * (v.toNat % 2 ^ (64 - s)) := by
    have hplace : (UInt64.ofNat s).toNat % 64 = s := by
      rw [UInt64.toNat_ofNat']
      omega
    rw [UInt64.toNat_shiftLeft, hplace, Nat.shiftLeft_eq, Nat.mul_comm, hparts,
      Nat.mul_mod_mul_left]
  have hlow : (word.toNat + 2 ^ s * v.toNat) % 2 ^ s = word.toNat := by
    rw [Nat.add_mul_mod_self_left, Nat.mod_eq_of_lt hword]
  have hhigh : (word.toNat + 2 ^ s * v.toNat) / 2 ^ s = v.toNat := by
    rw [Nat.add_mul_div_left _ _ (Nat.two_pow_pos s), Nat.div_eq_of_lt hword, Nat.zero_add]
  rw [UInt64.toNat_or, hshift, Nat.or_comm, ← Nat.two_pow_add_eq_or_of_lt hword, hparts,
    Nat.mod_mul, hlow, hhigh, Nat.add_comm]

namespace Varint

/-! ## groups of a word -/

theorem toNat_shiftRight_seven (v : UInt64) : (v >>> 7).toNat = v.toNat / 128 := by
  rw [UInt64.toNat_shiftRight, show (7 : UInt64).toNat % 64 = 7 from rfl,
    Nat.shiftRight_eq_div_pow]

theorem shiftRight_seven_eq_zero (v : UInt64) : v >>> 7 = 0 ↔ v.toNat < 128 := by
  rw [← UInt64.toNat_inj, toNat_shiftRight_seven, UInt64.toNat_zero]
  omega

/-- the groups of a word, the lowest seven bits first -/
def ofWord (v : UInt64) : Bytes :=
  if v >>> 7 = 0 then [(v &&& 0x7F).toUInt8]
  else ((v &&& 0x7F).toUInt8 ||| 0x80) :: ofWord (v >>> 7)
termination_by v.toNat
decreasing_by
  rename_i h
  rw [shiftRight_seven_eq_zero] at h
  rw [toNat_shiftRight_seven]
  omega

/-- the bits of a group -/
theorem toNat_mask (v : UInt64) : (v &&& 0x7F).toUInt8.toNat = v.toNat % 128 := by
  have hmask : (v &&& 0x7F).toNat = v.toNat % 2 ^ 7 := by
    rw [UInt64.toNat_and]
    exact Nat.and_two_pow_sub_one_eq_mod v.toNat 7
  rw [UInt64.toNat_toUInt8, hmask]
  omega

/-- a top bit that is set where none was is added -/
theorem toNat_or_top {b : UInt8} (h : b.toNat < 128) : (b ||| 0x80).toNat = b.toNat + 128 := by
  have hor := Nat.two_pow_add_eq_or_of_lt (i := 7) h 1
  rw [UInt8.toNat_or, Nat.or_comm]
  exact hor.symm.trans (Nat.add_comm _ _)

/-- masks and shifts cut a word as quotients and remainders cut its number -/
theorem encode_toNat (v : UInt64) : encode v.toNat = ofWord v := by
  induction hn : v.toNat using Nat.strongRecOn generalizing v with
  | ind n ih =>
    have hmask := toNat_mask v
    rw [ofWord]
    by_cases hlt : v.toNat < 128
    · rw [if_pos ((shiftRight_seven_eq_zero v).mpr hlt), ← hn, encode_lt hlt]
      congr 1
      rw [← UInt8.toNat_inj, hmask, UInt8.toNat_ofNat']
      omega
    · rw [if_neg (mt (shiftRight_seven_eq_zero v).mp hlt), ← hn,
        encode_ge (Nat.le_of_not_lt hlt),
        ← ih (v >>> 7).toNat (by rw [toNat_shiftRight_seven]; omega) _ rfl,
        toNat_shiftRight_seven]
      congr 1
      rw [← UInt8.toNat_inj, toNat_or_top (by omega), hmask, UInt8.toNat_ofNat']
      omega

/-! ## a word of groups -/

/-- a word with the bits of a group `shift` bits above its lowest -/
def setGroup (word : UInt64) (shift : Nat) (b : UInt8) : UInt64 :=
  word ||| (b &&& 0x7F).toUInt64 <<< UInt64.ofNat shift

/-- the groups that follow, of which the next one is set `shift` bits above the lowest -/
def readWordFrom : Nat → Nat → UInt64 → Step Cursor Error UInt64
  | 0, _, _ => do
    let pos ← Step.look Cursor.pos
    Step.fail (Fault.varintTooLong (pos - maxLen))
  | budget + 1, shift, word => do
    let b ← Cursor.byte
    if b &&& 0x80 = 0 then
      pure (setGroup word shift b)
    else
      readWordFrom budget (shift + 7) (setGroup word shift b)

/-- a word of at most ten groups -/
def readWord : Step Cursor Error UInt64 := readWordFrom maxLen 0 0

/-- the top bit of a byte is that of the numbers from 128 on -/
theorem and_top_eq_zero (b : UInt8) : b &&& 0x80 = 0 ↔ b.toNat < 128 := by
  have key : ∀ n : Fin 256, n.val &&& 128 = 0 ↔ n.val < 128 := by decide +kernel
  rw [← UInt8.toNat_inj, UInt8.toNat_and]
  exact key ⟨b.toNat, b.toNat_lt⟩

variable {k : Nat} {word : UInt64}

theorem toNat_setGroup (hk : 7 * k < 64) (hword : word.toNat < 2 ^ (7 * k)) (b : UInt8) :
    (setGroup word (7 * k) b).toNat = (word.toNat + 2 ^ (7 * k) * (b.toNat % 128)) % 2 ^ 64 := by
  have hgroup : (b &&& 0x7F).toUInt64.toNat = b.toNat % 128 := by
    rw [UInt8.toNat_toUInt64, UInt8.toNat_and]
    exact Nat.and_two_pow_sub_one_eq_mod b.toNat 7
  rw [setGroup, toNat_or_above hk hword, hgroup]

theorem two_pow_groups (k : Nat) : 2 ^ (7 * (k + 1)) = 2 ^ (7 * k) * 128 := by
  rw [Nat.mul_succ, Nat.pow_add]

theorem setGroup_lt (hk : 7 * k < 64) (hword : word.toNat < 2 ^ (7 * k)) (b : UInt8) :
    (setGroup word (7 * k) b).toNat < 2 ^ (7 * (k + 1)) := by
  have hgroup : b.toNat % 128 < 128 := Nat.mod_lt _ (by decide)
  have hmul := Nat.mul_le_mul_left (2 ^ (7 * k)) (Nat.le_of_lt_succ hgroup)
  have hmod := Nat.mod_le (word.toNat + 2 ^ (7 * k) * (b.toNat % 128)) (2 ^ 64)
  rw [toNat_setGroup hk hword, two_pow_groups]
  omega

/-- a group that was set is part of the number, whatever stands above it -/
theorem ofNat_setGroup (hk : 7 * k < 64) (hword : word.toNat < 2 ^ (7 * k)) (b : UInt8)
    (bs : Bytes) :
    UInt64.ofNat ((setGroup word (7 * k) b).toNat + 2 ^ (7 * (k + 1)) * value bs) =
      UInt64.ofNat (word.toNat + 2 ^ (7 * k) * value (b :: bs)) := by
  rw [← UInt64.toNat_inj, UInt64.toNat_ofNat', UInt64.toNat_ofNat', toNat_setGroup hk hword,
    Nat.mod_add_mod, value, two_pow_groups, Nat.mul_add, Nat.mul_assoc, Nat.add_assoc]

/-- behind `k` groups the others are set above them -/
theorem readWordFrom_eq (budget : Nat) : ∀ {k : Nat} {word : UInt64}, k + budget = maxLen →
    word.toNat < 2 ^ (7 * k) → readWordFrom budget (7 * k) word = (do
      let bs ← readGroups budget
      pure (UInt64.ofNat (word.toNat + 2 ^ (7 * k) * value bs))) := by
  induction budget with
  | zero => exact fun _ _ => rfl
  | succ budget ih =>
    intro k word hk hword
    -- the last of ten groups is shifted by 63 bits
    have hshift : 7 * k < 64 := by
      rw [maxLen] at hk
      omega
    have hset := ofNat_setGroup hshift hword
    funext c
    rw [readWordFrom, readGroups, Step.bind_apply, Step.bind_apply, Step.bind_apply]
    rcases Cursor.byte c with ⟨e | b, c'⟩
    · rfl
    · dsimp only
      by_cases hlast : b.toNat < 128
      · rw [if_pos ((and_top_eq_zero b).mpr hlast), if_pos hlast, Step.pure_apply, Step.pure_apply]
        dsimp only
        rw [Step.pure_apply, ← hset, value, Nat.mul_zero, Nat.add_zero, UInt64.ofNat_toNat]
      · rw [if_neg (mt (and_top_eq_zero b).mp hlast), if_neg hlast,
          show 7 * k + 7 = 7 * (k + 1) from rfl, ih (by omega) (setGroup_lt hshift hword b),
          Step.bind_apply, Step.bind_apply]
        rcases readGroups budget c' with ⟨e | bs, c''⟩
        · rfl
        · dsimp only
          rw [hset]
          rfl

/-- shifts and masks read the word of the number that is read -/
theorem readWord_eq : readWord = (do
    let n ← read
    pure (UInt64.ofNat n)) := by
  have h := @readWordFrom_eq maxLen 0 0 rfl (by decide)
  funext c
  rw [readWord, show 0 = 7 * 0 from rfl, h, read, Step.bind_apply, Step.bind_apply, Step.bind_apply]
  rcases readGroups maxLen c with ⟨e | bs, c'⟩
  · rfl
  · dsimp only
    rw [Step.pure_apply, Step.pure_apply]
    dsimp only
    rw [Step.pure_apply, UInt64.toNat_zero, Nat.zero_add, Nat.mul_zero, Nat.pow_zero, Nat.one_mul,
      UInt64.ofNat_mod_size]

end Varint

namespace Zigzag

/-! ## two's complement -/

variable {w : Nat}

/-- a signed word as an unsigned one: it is shifted by one, and all bits are turned over where the
sign, which the other shift spreads over the word, is set -/
def foldWord (n : BitVec w) : BitVec w := n <<< 1 ^^^ n.sshiftRight (w - 1)

/-- the other way: the lowest bit, negated, is the mask -/
def unfoldWord (m : BitVec w) : BitVec w := m >>> 1 ^^^ -(m &&& 1#w)

/-- the sign in every bit -/
theorem sshiftRight_sign (n : BitVec w) :
    n.sshiftRight (w - 1) = if n.toInt < 0 then BitVec.allOnes w else 0#w := by
  cases w with
  | zero => exact BitVec.of_length_zero.trans BitVec.of_length_zero.symm
  | succ k =>
    have hpow : (0 : Int) < (2 ^ k : Nat) := Int.natCast_pos.mpr (Nat.two_pow_pos k)
    have hlow := BitVec.le_toInt n
    have hhigh := BitVec.toInt_lt (x := n)
    have hcast : ((2 ^ k : Nat) : Int) = 2 ^ k := Int.natCast_pow 2 k
    rw [Nat.add_sub_cancel, ← hcast] at hlow hhigh
    apply BitVec.eq_of_toInt_eq
    rw [BitVec.toInt_sshiftRight, Int.shiftRight_eq_div_pow, Nat.add_sub_cancel]
    by_cases hneg : n.toInt < 0
    · rw [if_pos hneg, BitVec.toInt_allOnes, if_pos (Nat.succ_pos k),
        Int.ediv_eq_iff_of_pos hpow]
      omega
    · rw [if_neg hneg, BitVec.toInt_zero]
      exact Int.ediv_eq_zero_of_lt (Int.not_lt.mp hneg) hhigh

/-- the lowest bit in every bit -/
theorem neg_and_one (m : BitVec w) :
    -(m &&& 1#w) = if m.toNat % 2 = 0 then 0#w else BitVec.allOnes w := by
  have hbit : m &&& 1#w = BitVec.ofNat w (m.toNat % 2) := by
    cases w with
    | zero => exact BitVec.of_length_zero.trans BitVec.of_length_zero.symm
    | succ k =>
      have htwo : 2 ≤ 2 ^ (k + 1) := Nat.le_self_pow (Nat.succ_ne_zero k) 2
      have hlt : m.toNat % 2 < 2 ^ (k + 1) := Nat.lt_of_lt_of_le (Nat.mod_lt _ (by decide)) htwo
      rw [← BitVec.toNat_inj, BitVec.toNat_and, BitVec.toNat_one (Nat.succ_pos k),
        Nat.and_one_is_mod, BitVec.toNat_ofNat, Nat.mod_eq_of_lt hlt]
  rw [hbit]
  split
  · rename_i heven
    rw [heven, BitVec.neg_zero]
  · rename_i hodd
    rw [Nat.mod_two_ne_zero.mp hodd, ← BitVec.neg_one_eq_allOnes]

/-- the shifts fold a word as the case on its sign folds its number -/
theorem toNat_foldWord (n : BitVec w) : (foldWord n).toNat = fold n.toInt := by
  have hlt := n.isLt
  have hint := BitVec.toInt_eq_toNat_cond n
  have hshift : (n <<< 1).toNat = 2 * n.toNat % 2 ^ w := by
    rw [BitVec.toNat_shiftLeft, Nat.shiftLeft_eq, Nat.mul_comm, Nat.pow_one]
  rw [foldWord, sshiftRight_sign, fold]
  by_cases hhalf : 2 * n.toNat < 2 ^ w
  · rw [if_pos hhalf] at hint
    rw [if_neg (by omega), BitVec.xor_zero, hshift, Nat.mod_eq_of_lt hhalf, hint,
      if_pos (Int.natCast_nonneg _), Int.toNat_natCast]
  · have hmod : 2 * n.toNat % 2 ^ w = 2 * n.toNat - 2 ^ w := by
      rw [Nat.mod_eq_sub_mod (Nat.le_of_not_lt hhalf), Nat.mod_eq_of_lt (by omega)]
    rw [if_neg hhalf] at hint
    rw [if_pos (by omega), BitVec.xor_allOnes, BitVec.toNat_not, hshift, if_neg (by omega), hmod]
    omega

theorem toInt_unfoldWord (m : BitVec w) : (unfoldWord m).toInt = unfold m.toNat := by
  have hlt := m.isLt
  have hshift : (m >>> 1).toNat = m.toNat / 2 := by
    rw [BitVec.toNat_ushiftRight, Nat.shiftRight_eq_div_pow, Nat.pow_one]
  rw [unfoldWord, neg_and_one, unfold, BitVec.toInt_eq_toNat_cond]
  by_cases heven : m.toNat % 2 = 0
  · rw [if_pos heven, if_pos heven, BitVec.xor_zero, hshift, if_pos (by omega)]
  · rw [if_neg heven, if_neg heven, BitVec.xor_allOnes, BitVec.toNat_not, hshift,
      if_neg (by omega)]
    omega

/-- so a word is folded and unfolded as its number is -/
theorem unfoldWord_foldWord (n : BitVec w) : unfoldWord (foldWord n) = n := by
  apply BitVec.eq_of_toInt_eq
  rw [toInt_unfoldWord, toNat_foldWord, unfold_fold]

end Zigzag

end Columnar
