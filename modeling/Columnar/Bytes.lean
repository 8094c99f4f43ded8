/-!
# Byte strings

A byte string is a list of bytes; numbers stand in it with the lowest byte first.

* `fromLE`   the number that a byte string spells;
* `toLE n v` the `n` lowest bytes of `v`.

`fromLE_toLE` and `toLE_fromLE` say that the two are inverse on strings of one length.
-/

-- powers are those of the core library, also where another instance is in scope
attribute [instance (high), default_instance 20000] instPowNat

namespace Columnar

abbrev Bytes := List UInt8

/-- the number spelled by a byte string, lowest byte first -/
def fromLE : Bytes → Nat
  | [] => 0
  | b :: bs => b.toNat + 256 * fromLE bs

/-- the `n` lowest bytes of `v`, lowest byte first -/
def toLE : Nat → Nat → Bytes
  | 0, _ => []
  | n + 1, v => UInt8.ofNat (v % 256) :: toLE n (v / 256)

@[simp] theorem toLE_length (n v : Nat) : (toLE n v).length = n := by
  induction n generalizing v with
  | zero => rfl
  | succ n ih => simp [toLE, ih]

theorem fromLE_toLE (n v : Nat) : fromLE (toLE n v) = v % 256 ^ n := by
  induction n generalizing v with
  | zero => simp [toLE, fromLE, Nat.mod_one]
  | succ n ih =>
    have hb : (UInt8.ofNat (v % 256)).toNat = v % 256 := by
      simp
    rw [toLE, fromLE, hb, ih, Nat.pow_succ', Nat.mod_mul]

theorem toLE_fromLE (bs : Bytes) : toLE bs.length (fromLE bs) = bs := by
  induction bs with
  | nil => rfl
  | cons b bs ih =>
    have hb : b.toNat < 256 := b.toNat_lt
    have h0 : (b.toNat + 256 * fromLE bs) % 256 = b.toNat := by omega
    have h1 : (b.toNat + 256 * fromLE bs) / 256 = fromLE bs := by omega
    simp [toLE, fromLE, h0, h1, ih]

/-- the split of a byte string behind its first `n` bytes, `none` when it is shorter -/
def splitFirst? : Nat → Bytes → Option (Bytes × Bytes)
  | 0, bs => some ([], bs)
  | _ + 1, [] => none
  | n + 1, b :: bs => (splitFirst? n bs).map fun (front, rest) => (b :: front, rest)

theorem splitFirst?_eq (n : Nat) (bs : Bytes) :
    splitFirst? n bs = if n ≤ bs.length then some (bs.take n, bs.drop n) else none := by
  induction n generalizing bs with
  | zero => simp [splitFirst?]
  | succ n ih =>
    cases bs with
    | nil => simp [splitFirst?]
    | cons b bs =>
      by_cases h : n ≤ bs.length <;> simp [splitFirst?, ih, h]

end Columnar
