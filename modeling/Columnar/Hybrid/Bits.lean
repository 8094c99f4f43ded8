import Columnar.Bytes

/-!
# Packed bits

Values of `w` bits lie one behind the other, the lowest bit of a byte first: bit `k` of value
`i` is bit `i * w + k` of the string, and that is bit `(i * w + k) % 8` of byte
`(i * w + k) / 8`.

* `word bs p`        the bits from bit `p` on, as far as eight bytes reach;
* `unpack w bs i`    value `i`;
* `extract n bs p`   the `n` bits from bit `p` on;
* `packGroup w vs`   the `w` bytes of eight values;
* `bitWidth n`       the bits that a number needs.

Bits behind the end of a string are zero.
-/

namespace Columnar.Hybrid

/-- the widest value -/
def maxWidth : Nat := 32

/-- values are packed in groups of eight, so that a group is a whole number of bytes -/
def groupSize : Nat := 8

/-- the bits from bit `p` on: those of the byte that `p` lies in and of the seven behind it -/
def word (bs : Bytes) (p : Nat) : Nat := fromLE ((bs.drop (p / 8)).take 8) >>> (p % 8)

/-- value `i` of a string of values of `w` bits -/
def unpack (w : Nat) (bs : Bytes) (i : Nat) : Nat := word bs (i * w) % 2 ^ w

/-- the `n` bits from bit `p` on -/
def extract (n : Nat) (bs : Bytes) (p : Nat) : Nat := word bs p % 2 ^ n

/-- the number whose digits to the base `2 ^ w` are `vs`, the lowest first -/
def ofDigits (w : Nat) : List Nat → Nat
  | [] => 0
  | v :: vs => v + 2 ^ w * ofDigits w vs

/-- the bytes of a group of eight values of `w` bits -/
def packGroup (w : Nat) (vs : List Nat) : Bytes := toLE w (ofDigits w vs)

/-- the bytes of `n` groups -/
def packGroups (w : Nat) : Nat → List Nat → Bytes
  | 0, _ => []
  | n + 1, vs => packGroup w (vs.take groupSize) ++ packGroups w n (vs.drop groupSize)

/-- the bits that `n` needs; zero needs none -/
def bitWidth (n : Nat) : Nat := if n = 0 then 0 else n.log2 + 1

theorem unpack_lt (w : Nat) (bs : Bytes) (i : Nat) : unpack w bs i < 2 ^ w :=
  Nat.mod_lt _ (Nat.two_pow_pos w)

@[simp] theorem packGroup_length (w : Nat) (vs : List Nat) : (packGroup w vs).length = w :=
  toLE_length w _

theorem packGroups_length (w n : Nat) (vs : List Nat) : (packGroups w n vs).length = n * w := by
  induction n generalizing vs with
  | zero => simp [packGroups]
  | succ n ih => simp [packGroups, ih, Nat.succ_mul, Nat.add_comm]

/-- a number fits `w` bits exactly when it needs no more -/
theorem bitWidth_le_iff (n w : Nat) : bitWidth n ≤ w ↔ n < 2 ^ w := by
  unfold bitWidth
  split
  · rename_i h
    exact ⟨fun _ => h ▸ Nat.two_pow_pos w, fun _ => Nat.zero_le w⟩
  · rename_i h
    rw [Nat.add_one_le_iff, Nat.log2_lt h]

end Columnar.Hybrid
