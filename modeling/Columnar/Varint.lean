import Columnar.Cursor

/-!
# Variable-length numbers

A number is written in groups of seven bits, the lowest group first, one group to a byte; the
top bit of a byte says that another byte follows.  Signed numbers are folded into unsigned
ones first, so that small magnitudes stay short: 0, -1, 1, -2, 2 become 0, 1, 2, 3, 4.

* `Varint.encode`, `Varint.read`   numbers below `2 ^ 64`; at most ten bytes are read, and what
                                   they spell above 64 bits is dropped;
* `Zigzag.fold`, `Zigzag.unfold`   the signed numbers.
-/

namespace Columnar

namespace Varint

/-- the most bytes that a 64-bit number needs -/
def maxLen : Nat := 10

/-- the number that groups of seven bits spell, the lowest first; top bits are ignored -/
def value : Bytes → Nat
  | [] => 0
  | b :: bs => b.toNat % 128 + 128 * value bs

/-- the groups of a number, every byte but the last marked as followed by another -/
def encode (n : Nat) : Bytes :=
  if n < 128 then [UInt8.ofNat n]
  else UInt8.ofNat (n % 128 + 128) :: encode (n / 128)
termination_by n
decreasing_by omega

/-- the bytes of one number, of which at most `budget` are read -/
def readGroups : Nat → Step Cursor Error Bytes
  | 0 => do
    let pos ← Step.look Cursor.pos
    Step.fail (Fault.varintTooLong (pos - maxLen))
  | budget + 1 => do
    let b ← Cursor.byte
    if b.toNat < 128 then
      pure [b]
    else
      let bs ← readGroups budget
      pure (b :: bs)

/-- a number of 64 bits -/
def read : Step Cursor Error Nat := do
  let bs ← readGroups maxLen
  pure (value bs % 2 ^ 64)

/-- the number at the front of a byte string, and how many bytes it takes -/
def decode (bs : Bytes) : Except Error (Nat × Nat) :=
  match read (.ofBytes bs) with
  | (.ok n, c) => .ok (n, c.pos)
  | (.error e, _) => .error e

end Varint

namespace Zigzag

/-- a signed number as an unsigned one -/
def fold (n : Int) : Nat :=
  if 0 ≤ n then 2 * n.toNat else 2 * (-n).toNat - 1

def unfold (m : Nat) : Int :=
  if m % 2 = 0 then (m / 2 : Nat) else -((m / 2 : Nat) : Int) - 1

theorem unfold_fold (n : Int) : unfold (fold n) = n := by
  unfold unfold fold
  split <;> split <;> omega

theorem fold_unfold (m : Nat) : fold (unfold m) = m := by
  unfold unfold fold
  split <;> split <;> omega

end Zigzag

end Columnar
