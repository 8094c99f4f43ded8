import Columnar.Value

/-!
# The plain layout

Where each value of a plain page lies, said once and without a writer: `Datum.plain` is the
bytes of one value, `packBools` the bytes of booleans, which share bytes, and `layout` the bytes
of the values of a page.
-/

namespace Columnar

namespace Plain

/-- the byte whose lowest bits are `bs` -/
def boolByte : List Bool → Nat
  | [] => 0
  | b :: bs => b.toNat + 2 * boolByte bs

/-- booleans eight to a byte, the lowest bit first -/
def packBools (bs : List Bool) : Bytes :=
  if bs = [] then [] else UInt8.ofNat (boolByte (bs.take 8)) :: packBools (bs.drop 8)
termination_by bs.length
decreasing_by
  rename_i h
  have : 0 < bs.length := List.length_pos_iff.mpr h
  simp only [List.length_drop]
  omega

/-- a byte array behind its length -/
def byteArray (bs : Bytes) : Bytes := toLE 4 bs.length ++ bs

/-- the bytes of the values of a page, given as their own bytes; a boolean is given as a byte
that is zero for `false` -/
def layout (t : PhysicalType) (values : List Bytes) : Bytes :=
  if t = .boolean then packBools (values.map fun v => v ≠ [0]) else values.flatten

end Plain

/-- the bytes of a value on its own; a boolean takes a whole byte here -/
def Datum.plain : Datum → Bytes
  | boolean b => [b.toUInt8]
  | int32 n => toLE 4 n.toUInt32.toNat
  | int64 n => toLE 8 n.toUInt64.toNat
  | float bits => toLE 4 bits.toNat
  | double bits => toLE 8 bits.toNat
  | byteArray bs => Plain.byteArray bs
  | fixedLenByteArray bs => bs

end Columnar
