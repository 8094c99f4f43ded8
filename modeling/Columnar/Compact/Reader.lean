import Columnar.Options
import Columnar.Text.Utf8
import Columnar.Varint

/-!
# Reading the compact protocol

A struct is a run of fields and a zero byte.  The header of a field gives its type in the low
nibble and the step from the last field's number in the high one; a step of zero is followed by
the number itself.  A boolean field has its value in the type nibble, so the value is held back
until it is asked for.

* `Reader`       the place in the buffer, the number of the last field, the last fields of the
                 enclosing structs, and a boolean held back;
* `fieldBegin`, `listBegin`, `mapBegin`, and one reader for each type of value;
* `reserve`      memory for a list whose elements are to be kept;
* `foldStruct`   all fields of a struct, each handed on with its type and number;
* `skip`         a value of a given type, read for its extent only.

Structs nest up to eight deep, and `skip` follows values up to sixty-four deep.
-/

namespace Columnar.Compact

/-- how deep `skip` follows a value -/
def maxSkipDepth : Nat := 64

structure Reader where
  cursor : Cursor
  /-- the number of the last field of the innermost open struct -/
  lastField : Int16 := 0
  /-- the last fields of the structs around it, the innermost first -/
  enclosing : List Int16 := []
  /-- the value of a boolean field whose header was read -/
  pendingBool : Option Bool := none
  stringLimit : Nat
  containerLimit : Nat
deriving DecidableEq

def Reader.ofCursor (c : Cursor) (o : Options) : Reader :=
  { cursor := c, stringLimit := o.stringLimit, containerLimit := o.containerLimit }

abbrev Read := Step Reader Failure

namespace Read

/-- a step of the cursor -/
def ofCursor {α : Type} (x : Step Cursor Error α) : Read α :=
  (x : Step Cursor Failure α).on Reader.cursor fun r c => { r with cursor := c }

def byte : Read UInt8 := ofCursor Cursor.byte

def view (n : Nat) : Read Bytes := ofCursor (Cursor.view n)

def varint : Read Nat := ofCursor Varint.read

/-! ## numbers -/

def i8 : Read Int8 := do
  let b ← byte
  pure b.toInt8

/-- a folded number that has to fit `bits` bits -/
def folded (bits : Nat) : Read Int := do
  let raw ← varint
  if raw < 2 ^ bits then
    pure (Zigzag.unfold raw)
  else
    Step.fail (Fault.varintTooWide raw bits)

def i16 : Read Int16 := do
  let n ← folded 16
  pure (Int16.ofInt n)

def i32 : Read Int32 := do
  let n ← folded 32
  pure (Int32.ofInt n)

def i64 : Read Int64 := do
  let raw ← varint
  pure (Int64.ofInt (Zigzag.unfold raw))

/-- the bits of a floating-point number -/
def double : Read UInt64 := do
  let bs ← view 8
  pure (UInt64.ofNat (fromLE bs))

/-! ## structs and fields -/

def structBegin : Read Unit := do
  let r ← Step.state
  if r.enclosing.length = maxStructDepth then
    Step.fail (Fault.readStructTooDeep r.cursor.pos)
  else
    Step.put { r with enclosing := r.lastField :: r.enclosing, lastField := 0 }

def structEnd : Read Unit := do
  let r ← Step.state
  match r.enclosing with
  | [] => Step.fail Fault.unmatchedStructEnd
  | last :: enclosing => Step.put { r with enclosing := enclosing, lastField := last }

def wireType (code : UInt8) : Read WireType :=
  match WireType.ofCode? code with
  | some t => pure t
  | none => Step.fail (Fault.unknownWireType code)

/-- the number of a field that stands `delta` behind the last one; it has to fit 16 bits -/
def nextField (last : Int16) (delta : Nat) : Option Int16 :=
  if last.toInt + delta < 2 ^ 15 then some (Int16.ofInt (last.toInt + delta)) else none

/-- the number of the next field: `delta` behind the last one, or in the bytes that follow -/
def fieldNumber (delta : Nat) : Read Int16 := do
  let last ← Step.look Reader.lastField
  if delta = 0 then
    i16
  else
    match nextField last delta with
    | some id => pure id
    | none => Step.fail Fault.fieldIdOverflow

/-- the value of a boolean field is in its type nibble, and is held back -/
def holdBack (t : WireType) (code : UInt8) : Read Unit :=
  Step.update fun r => { r with
    pendingBool := if t = .bool then some (code == 1) else r.pendingBool }

/-- the type and number of the next field, `none` at the end of the struct; a zero type nibble
ends it whatever the other nibble is -/
def fieldBegin : Read (Option (WireType × Int16)) := do
  let header ← byte
  let code := header &&& 0x0F
  if code = 0 then
    pure none
  else
    let t ← wireType code
    holdBack t code
    let id ← fieldNumber (header >>> 4).toNat
    Step.update fun r => { r with lastField := id }
    pure (some (t, id))

/-! ## containers -/

/-- a container's size, taken as a signed number and held against the limit -/
def containerSize (raw : Nat) : Read Nat := do
  let limit ← Step.look Reader.containerLimit
  let size := (Int64.ofNat raw).toInt
  if size < 0 then
    Step.fail (Fault.negativeContainerSize size)
  else if limit < size.toNat then
    Step.fail (Fault.containerTooLarge size.toNat limit)
  else
    pure size.toNat

/-- the element type and size of a list; a size below 15 stands in the header and is taken as
it is, a larger one follows and is held against the limit -/
def listBegin : Read (WireType × Nat) := do
  let header ← byte
  let t ← wireType (header &&& 0x0F)
  let short := (header >>> 4).toNat
  if short < 15 then
    pure (t, short)
  else
    let raw ← varint
    let size ← containerSize raw
    pure (t, size)

/-- the bytes of memory that a list can take at most -/
def maxListRoom : Nat := 2 ^ 63 - 1

/-- memory for a list of `count` elements of `room` bytes each, set aside before the first of
them is read -/
def reserve (count room : Nat) : Read Unit :=
  if maxListRoom < count * room then Step.fail Misuse.capacityOverflow else pure ()

theorem reserve_ok {count room : Nat} (h : count * room ≤ maxListRoom) :
    reserve count room = pure () := if_neg (Nat.not_lt.mpr h)

structure MapHeader where
  /-- the types of keys and values; an empty map has none -/
  types : Option (WireType × WireType)
  size : Nat
deriving DecidableEq

def mapBegin : Read MapHeader := do
  let raw ← varint
  let size ← containerSize raw
  if size = 0 then
    pure ⟨none, 0⟩
  else
    let types ← byte
    let key ← wireType (types >>> 4)
    let value ← wireType (types &&& 0x0F)
    pure ⟨some (key, value), size⟩

/-! ## booleans and byte strings -/

/-- a boolean: of the field whose header was read, else a byte that is 1 for `true` -/
def bool : Read Bool := do
  let r ← Step.state
  match r.pendingBool with
  | some b =>
    Step.put { r with pendingBool := none }
    pure b
  | none =>
    let b ← byte
    pure (b == 1)

def binary : Read Bytes := do
  let raw ← varint
  let limit ← Step.look Reader.stringLimit
  let len := (Int64.ofNat raw).toInt
  if len < 0 then
    Step.fail (Fault.negativeBinaryLength len)
  else if limit < len.toNat then
    Step.fail (Fault.binaryTooLong len.toNat limit)
  else
    view len.toNat

def string : Read String := do
  let bs ← binary
  match Utf8.decode bs with
  | .ok s => pure s
  | .error f => Step.fail (Fault.badUtf8 f)

/-! ## whole structs -/

/-- the fields up to the end of a struct, `fuel` at most -/
def foldFields {β : Type} (f : β → WireType → Int16 → Read β) : Nat → β → Read β
  | 0, b => pure b
  | fuel + 1, b => do
    match ← fieldBegin with
    | none => pure b
    | some (t, id) =>
      let b ← f b t id
      foldFields f fuel b

/-- a struct, its fields handed on in order; each field takes a byte at least, so that the bytes
left bound their number -/
def foldStruct {β : Type} (f : β → WireType → Int16 → Read β) (b : β) : Read β := do
  structBegin
  let left ← Step.look fun r => r.cursor.remaining
  let b ← foldFields f (left + 1) b
  structEnd
  pure b

/-- a value of type `t` that is at most `depth` deep -/
def skipWithin : Nat → WireType → Read Unit
  | 0, _ => Step.fail Fault.skippedTooDeep
  | depth + 1, t =>
    match t with
    | .bool => do let _ ← bool
    | .i8 => do let _ ← i8
    | .i16 => do let _ ← i16
    | .i32 => do let _ ← i32
    | .i64 => do let _ ← i64
    | .double => do let _ ← double
    | .binary => do let _ ← binary
    | .struct => foldStruct (fun _ t _ => skipWithin depth t) ()
    | .list | .set => do
      let (t, n) ← listBegin
      Step.replicate n (skipWithin depth t)
    | .map => do
      let header ← mapBegin
      match header.types with
      | none => pure ()
      | some (key, value) =>
        Step.replicate header.size do
          skipWithin depth key
          skipWithin depth value
    | .stop => Step.fail Fault.skippedStop

/-- a value of type `t`, read for its extent only -/
def skip (t : WireType) : Read Unit := skipWithin maxSkipDepth t

end Read

end Columnar.Compact
