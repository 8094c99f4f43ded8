import Columnar.Plain.Layout

/-!
# Columns to be written

* `ColumnSpec`            the name and type of a column;
* `ColumnValues`          the slots of a column in one row group, all of one type;
* `ColumnValues.staged`   the slots by their bytes.
-/

namespace Columnar

structure ColumnSpec where
  name : String
  type : PhysicalType
  /-- the length of the values, for byte arrays of fixed length -/
  typeLength : Option Int32 := none
deriving DecidableEq

inductive ColumnValues where
  | boolean (slots : List (Option Bool))
  | int32 (slots : List (Option Int32))
  | int64 (slots : List (Option Int64))
  | float (slots : List (Option UInt32))
  | double (slots : List (Option UInt64))
  | byteArray (slots : List (Option Bytes))
  | fixedLenByteArray (slots : List (Option Bytes))
deriving DecidableEq

namespace ColumnValues

def type : ColumnValues → PhysicalType
  | boolean _ => .boolean
  | int32 _ => .int32
  | int64 _ => .int64
  | float _ => .float
  | double _ => .double
  | byteArray _ => .byteArray
  | fixedLenByteArray _ => .fixedLenByteArray

/-- the slots, each with what it holds -/
def data : ColumnValues → List (Option Datum)
  | boolean slots => slots.map (·.map .boolean)
  | int32 slots => slots.map (·.map .int32)
  | int64 slots => slots.map (·.map .int64)
  | float slots => slots.map (·.map .float)
  | double slots => slots.map (·.map .double)
  | byteArray slots => slots.map (·.map .byteArray)
  | fixedLenByteArray slots => slots.map (·.map .fixedLenByteArray)

/-- the number of slots -/
def size (vs : ColumnValues) : Nat := vs.data.length

/-- the bytes of one value; the length of a byte array has to fit 32 bits, and one of fixed
length has to have that length -/
def stageDatum (spec : ColumnSpec) (length : Int) (d : Datum) : Except Error Bytes :=
  match d with
  | .byteArray bs =>
    if 2 ^ 32 ≤ bs.length then .error (Fault.byteArrayTooLong bs.length) else .ok d.plain
  | .fixedLenByteArray bs =>
    if (bs.length : Int) ≠ length then .error (Fault.wrongFixedLength bs.length spec.name length)
    else .ok d.plain
  | _ => .ok d.plain

/-- the length of the values; a column of byte arrays of fixed length needs to know it, whether
it has values or not -/
def fixedLength (spec : ColumnSpec) (vs : ColumnValues) : Except Error Int :=
  match vs, spec.typeLength with
  | fixedLenByteArray _, none => .error (Fault.noFixedLength spec.name)
  | _, length => .ok ((length.map Int32.toInt).getD 0)

/-- the bytes of each slot -/
def staged (spec : ColumnSpec) (vs : ColumnValues) : Except Error (List (Option Bytes)) := do
  let length ← vs.fixedLength spec
  vs.data.mapM fun slot => slot.mapM (stageDatum spec length)

end ColumnValues

end Columnar
