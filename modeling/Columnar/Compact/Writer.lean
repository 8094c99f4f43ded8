import Columnar.Sink
import Columnar.Text.Utf8
import Columnar.Varint

/-!
# Writing the compact protocol

The other direction of `Columnar.Compact.Reader`.  Every writer answers the number of bytes it
wrote.  The header of a boolean field is held back until the value is known, since the value
stands in it.

* `Writer`        the sink, the number of the last field, the last fields of the enclosing
                  structs, and the boolean field held back;
* `fieldHeader`   a field's header: one byte when the field follows the last one by 1 to 15;
* `fieldBegin`, `listBegin`, and one writer for each type of value;
* `field`, `struct` a field and a struct as a whole.
-/

namespace Columnar.Compact

structure Writer where
  sink : Sink
  /-- the number of the last field of the innermost open struct -/
  lastField : Int16 := 0
  /-- the last fields of the structs around it, the innermost first -/
  enclosing : List Int16 := []
  /-- the boolean field whose value is still to come -/
  pendingBool : Option Int16 := none

abbrev Write := Step Writer Error

namespace Write

/-- one call to the sink -/
def call (bs : Bytes) : Write Nat := do
  (Sink.write bs).on Writer.sink fun w s => { w with sink := s }
  pure bs.length

def byte (b : UInt8) : Write Nat := call [b]

def varint (n : Nat) : Write Nat := call (Varint.encode n)

/-! ## numbers -/

def i8 (n : Int8) : Write Nat := byte n.toUInt8

def i16 (n : Int16) : Write Nat := varint (Zigzag.fold n.toInt)

def i32 (n : Int32) : Write Nat := varint (Zigzag.fold n.toInt)

def i64 (n : Int64) : Write Nat := varint (Zigzag.fold n.toInt)

/-- a floating-point number by its bits -/
def double (bits : UInt64) : Write Nat := call (toLE 8 bits.toNat)

/-- a byte string behind its length, in two calls -/
def binary (bs : Bytes) : Write Nat := do
  let head ← varint bs.length
  let body ← call bs
  pure (head + body)

def string (s : String) : Write Nat := binary (Utf8.encode s)

/-! ## structs and fields -/

def structBegin : Write Nat := do
  let w ← Step.state
  if w.enclosing.length = maxStructDepth then
    Step.fail Fault.writtenStructTooDeep
  else
    Step.put { w with enclosing := w.lastField :: w.enclosing, lastField := 0 }
    pure 0

def structEnd : Write Nat := do
  let w ← Step.state
  match w.enclosing with
  | [] => Step.fail Fault.unmatchedStructEnd
  | last :: enclosing =>
    Step.put { w with enclosing := enclosing, lastField := last }
    pure 0

/-- a header with the given type nibble; the step from the last field is taken modulo `2 ^ 16`,
and the number itself follows where the step does not fit its nibble -/
def fieldHeader (code : UInt8) (id : Int16) : Write Nat := do
  let last ← Step.look Writer.lastField
  let delta := id - last
  let n ←
    if last < id ∧ delta ≤ 15 then
      byte ((delta.toUInt16.toUInt8 <<< 4) ||| code)
    else do
      let head ← byte code
      let number ← i16 id
      pure (head + number)
  Step.update fun w => { w with lastField := id }
  pure n

/-- a field's header, held back when the field is a boolean -/
def fieldBegin (t : WireType) (id : Int16) : Write Nat := do
  if t = .bool then
    let pending ← Step.look Writer.pendingBool
    if pending.isSome then
      Step.fail (Fault.boolFieldPending id.toInt)
    else
      Step.update fun w => { w with pendingBool := some id }
      pure 0
  else
    fieldHeader t.code id

/-- the end of a field; a boolean field has to have had its value -/
def fieldEnd : Write Nat := do
  let pending ← Step.look Writer.pendingBool
  match pending with
  | some id => Step.fail (Fault.boolFieldWithoutValue id.toInt)
  | none => pure 0

/-- a field whose payload is written by `x` -/
def field (t : WireType) (id : Int16) (x : Write Nat) : Write Nat := do
  let head ← fieldBegin t id
  let body ← x
  let tail ← fieldEnd
  pure (head + body + tail)

def fieldStop : Write Nat := byte 0

/-- a struct whose fields are written by `x` -/
def struct (x : Write Nat) : Write Nat := do
  let head ← structBegin
  let body ← x
  let stop ← fieldStop
  let tail ← structEnd
  pure (head + body + stop + tail)

/-- a boolean: the header of the field held back, else a byte -/
def bool (b : Bool) : Write Nat := do
  let code : UInt8 := if b then 1 else 2
  let pending ← Step.look Writer.pendingBool
  match pending with
  | some id =>
    Step.update fun w => { w with pendingBool := none }
    fieldHeader code id
  | none => byte code

/-- the header of a list; a size below 15 stands in it, a larger one follows -/
def listBegin (t : WireType) (size : Nat) : Write Nat := do
  if size < 15 then
    byte (UInt8.ofNat (size * 16) ||| t.code)
  else
    let head ← byte (0xF0 ||| t.code)
    let number ← varint size
    pure (head + number)

/-- the number of bytes written by a list of writers, one after the other -/
def total : List (Write Nat) → Write Nat
  | [] => pure 0
  | x :: xs => do
    let n ← x
    let m ← total xs
    pure (n + m)

end Write

end Columnar.Compact
