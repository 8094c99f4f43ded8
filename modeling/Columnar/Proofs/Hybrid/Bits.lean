import Columnar.Hybrid.Bits

/-!
# Windows of a bit string

A byte string spells one number, and every window of its bits is a quotient and a remainder of
it.  Eight bytes are looked at, which is enough for windows of up to 57 bits wherever they begin.

* `word_mod`      a window, as far as it is looked at;
* `unpack_eq`     a packed value;
* `extract_eq`    several levels at once.
-/

namespace Columnar

theorem fromLE_append (bs cs : Bytes) :
    fromLE (bs ++ cs) = fromLE bs + 256 ^ bs.length * fromLE cs := by
  induction bs with
  | nil => simp [fromLE]
  | cons b bs ih =>
    rw [List.cons_append, fromLE, fromLE, ih, List.length_cons, Nat.pow_succ', Nat.mul_add,
      Nat.mul_assoc, Nat.add_assoc]

theorem fromLE_lt (bs : Bytes) : fromLE bs < 256 ^ bs.length := by
  induction bs with
  | nil => exact Nat.one_pos
  | cons b bs ih =>
    have hb : b.toNat < 256 := b.toNat_lt
    rw [fromLE, List.length_cons, Nat.pow_succ']
    omega

/-- the bytes before a place do not reach behind it -/
theorem fromLE_div_drop (bs : Bytes) (n : Nat) (h : n ≤ bs.length) :
    fromLE bs / 256 ^ n = fromLE (bs.drop n) := by
  have hlen : (bs.take n).length = n := List.length_take_of_le h
  have hlt := fromLE_lt (bs.take n)
  have e := fromLE_append (bs.take n) (bs.drop n)
  rw [hlen] at e hlt
  rw [← List.take_append_drop n bs, e, List.take_append_drop,
    Nat.add_mul_div_left _ _ (Nat.pow_pos (by decide)), Nat.div_eq_of_lt hlt, Nat.zero_add]

theorem fromLE_eq_zero {bs : Bytes} {n : Nat} (h : bs.length ≤ n) : fromLE bs / 256 ^ n = 0 :=
  Nat.div_eq_of_lt (Nat.lt_of_lt_of_le (fromLE_lt bs) (Nat.pow_le_pow_right (by decide) h))

theorem fromLE_div (bs : Bytes) (n : Nat) : fromLE bs / 256 ^ n = fromLE (bs.drop n) := by
  by_cases h : n ≤ bs.length
  · exact fromLE_div_drop bs n h
  · have h' : bs.length ≤ n := by omega
    rw [fromLE_eq_zero h', List.drop_eq_nil_of_le h']
    rfl

namespace Hybrid

/-- the number spelled by a string is that of its first eight bytes, up to 64 bits -/
theorem fromLE_take_mod (bs : Bytes) : fromLE (bs.take 8) = fromLE bs % 2 ^ 64 := by
  by_cases h : 8 ≤ bs.length
  · have hlen : (bs.take 8).length = 8 := List.length_take_of_le h
    have e := fromLE_append (bs.take 8) (bs.drop 8)
    have hlt : fromLE (bs.take 8) < 2 ^ 64 := by
      have h := fromLE_lt (bs.take 8)
      rwa [hlen] at h
    rw [hlen, List.take_append_drop] at e
    rw [e, show (256 : Nat) ^ 8 = 2 ^ 64 by decide, Nat.add_mul_mod_self_left, Nat.mod_eq_of_lt hlt]
  · have h' : bs.length ≤ 8 := by omega
    have hlt : fromLE bs < 2 ^ 64 :=
      Nat.lt_of_lt_of_le (fromLE_lt bs) (Nat.pow_le_pow_right (by decide) h')
    rw [List.take_of_length_le h', Nat.mod_eq_of_lt hlt]

/-- the bits of a window, as far as eight bytes reach from wherever it begins -/
theorem word_mod {n : Nat} (h : n ≤ 57) (bs : Bytes) (p : Nat) :
    word bs p % 2 ^ n = fromLE bs / 2 ^ p % 2 ^ n := by
  have hs : p % 8 < 8 := Nat.mod_lt _ (by decide)
  have hp : 2 ^ p = 256 ^ (p / 8) * 2 ^ (p % 8) := by
    rw [show (256 : Nat) = 2 ^ 8 by decide, ← Nat.pow_mul, ← Nat.pow_add, Nat.div_add_mod]
  rw [hp, ← Nat.div_div_eq_div_mul, fromLE_div, word, Nat.shiftRight_eq_div_pow, fromLE_take_mod]
  have h64 : 2 ^ 64 = 2 ^ (p % 8) * 2 ^ (64 - p % 8) := by
    rw [← Nat.pow_add]
    congr 1
    omega
  rw [h64, Nat.mod_mul_right_div_self]
  exact Nat.mod_mod_of_dvd _ (Nat.pow_dvd_pow 2 (by omega))

theorem unpack_eq {w : Nat} (h : w ≤ maxWidth) (bs : Bytes) (i : Nat) :
    unpack w bs i = fromLE bs / 2 ^ (i * w) % 2 ^ w :=
  word_mod (Nat.le_trans h (by decide)) bs _

theorem extract_eq {n : Nat} (h : n ≤ 57) (bs : Bytes) (p : Nat) :
    extract n bs p = fromLE bs / 2 ^ p % 2 ^ n := word_mod h bs p

/-- the levels that are extracted together are those that are unpacked one by one -/
theorem testBit_extract {n : Nat} (h : n ≤ 57) (bs : Bytes) (p k : Nat) :
    (extract n bs p).testBit k = decide (k < n ∧ unpack 1 bs (p + k) = 1) := by
  have e : unpack 1 bs (p + k) = fromLE bs / 2 ^ (p + k) % 2 := by
    rw [unpack_eq (by decide), Nat.mul_one, Nat.pow_one]
  rw [extract_eq h, Nat.testBit_mod_two_pow, Nat.testBit_div_two_pow,
    Nat.testBit_eq_decide_div_mod_eq, e, Bool.decide_and, Nat.add_comm k p]

end Hybrid

end Columnar
