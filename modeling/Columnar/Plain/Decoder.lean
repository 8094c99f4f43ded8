import Columnar.Batch
import Columnar.Cursor

/-!
# Reading plain values

In the plain encoding values lie one behind the other: numbers in four or eight bytes, byte
arrays behind their length in four bytes, byte arrays of fixed length as they are, booleans
eight to a byte, the lowest bit first.

* `Decoder.value`    the next value;
* `Decoder.values`   several values at once, into a batch.

A byte of booleans counts as read as soon as its first bit is.
-/

namespace Columnar.Plain

structure Decoder where
  cursor : Cursor
  type : PhysicalType
  /-- the width of a value in bytes, where all have one width -/
  width : Nat
  /-- the byte of booleans being read -/
  bits : UInt8 := 0
  /-- how many of its bits were read; none at the end of a byte -/
  bitOffset : Nat := 0
deriving DecidableEq

namespace Decoder

/-- a decoder at the start of the values of a page; byte arrays of fixed length need their
length -/
def ofBytes (bs : Bytes) (t : PhysicalType) (typeLength : Option Nat) : Except Error Decoder :=
  match t, typeLength with
  | .fixedLenByteArray, some width => .ok { cursor := .ofBytes bs, type := t, width }
  | .fixedLenByteArray, none => .error Fault.noTypeLength
  | .int96, _ => .error Fault.int96Values
  | t, _ => .ok { cursor := .ofBytes bs, type := t, width := t.fixedWidth?.getD 0 }

def consumed (d : Decoder) : Nat := d.cursor.pos

def remaining (d : Decoder) : Nat := d.cursor.remaining

/-- a step of the cursor -/
def ofCursor {α : Type} (x : Step Cursor Error α) : Step Decoder Error α :=
  x.on Decoder.cursor fun d c => { d with cursor := c }

/-- the next boolean; a byte is read for the first of its eight -/
def bool : Step Decoder Error Bool := do
  let d ← Step.state
  if d.bitOffset = 0 then
    let b ← ofCursor Cursor.byte
    Step.update fun d => { d with bits := b }
  let d ← Step.state
  Step.put { d with bitOffset := (d.bitOffset + 1) % 8 }
  pure (d.bits.toNat.testBit d.bitOffset)

/-- the next byte array, with its length; the length stays read where the payload is missing -/
def byteArray : Step Decoder Error Value := do
  let start ← Step.look consumed
  let head ← ofCursor (Cursor.view 4)
  let len := fromLE head
  let body ← (ofCursor (Cursor.view len)).within (.byteArrayAt len start)
  pure (.byteArray (head ++ body))

def value : Step Decoder Error Value := do
  let d ← Step.state
  match d.type with
  | .boolean => Value.boolean <$> bool
  | .byteArray => byteArray
  | t => Value.ofFixed t <$> ofCursor (Cursor.view d.width)

/-! ## several values at once -/

/-- `n` values of `width` bytes out of `bs` -/
def pushFixed (t : PhysicalType) (width : Nat) : Nat → Bytes → Step Batch Failure Unit
  | 0, _ => pure ()
  | n + 1, bs => do
    Batch.push (.ofFixed t (bs.take width))
    pushFixed t width n (bs.drop width)

/-- `n` values into the batch; those of one width are read together -/
def values (n : Nat) : Step (Decoder × Batch) Failure Unit := do
  let (d, _) ← Step.state
  match d.type with
  | .boolean => Batch.pushEach (Value.boolean <$> bool : Step Decoder Error Value) n
  | .byteArray => Batch.pushEach byteArray n
  | t =>
    if 2 ^ 64 ≤ d.width * n then
      Step.fail Misuse.multiplyOverflow
    else
      let bs ← (ofCursor (Cursor.view (d.width * n)) : Step Decoder Failure Bytes).onFst
      (pushFixed t d.width n bs).onSnd

end Decoder

end Columnar.Plain
