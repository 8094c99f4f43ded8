import Columnar.Fault

/-!
# Values

* `Value`   a value as it stands in a page: its type and its bytes.  A byte array keeps the four
            bytes of its length; the bytes of a boolean are bits and are not kept;
* `Datum`   a value by what it means.  Floating-point numbers are given by their bits.

`Value.datum` goes from one to the other.  It and the readers of one type are misused on a value
of another type or of the wrong width.
-/

namespace Columnar

inductive Value where
  | boolean (b : Bool)
  | int32 (raw : Bytes)
  | int64 (raw : Bytes)
  | float (raw : Bytes)
  | double (raw : Bytes)
  /-- the payload behind its length -/
  | byteArray (raw : Bytes)
  | fixedLenByteArray (raw : Bytes)
deriving DecidableEq

inductive Datum where
  | boolean (b : Bool)
  | int32 (n : Int32)
  | int64 (n : Int64)
  | float (bits : UInt32)
  | double (bits : UInt64)
  | byteArray (bytes : Bytes)
  | fixedLenByteArray (bytes : Bytes)
deriving DecidableEq

namespace Value

/-- the value of a slot that nothing was put into -/
instance : Inhabited Value := ⟨boolean false⟩

def physicalType : Value → PhysicalType
  | boolean _ => .boolean
  | int32 _ => .int32
  | int64 _ => .int64
  | float _ => .float
  | double _ => .double
  | byteArray _ => .byteArray
  | fixedLenByteArray _ => .fixedLenByteArray

/-- a value of a type of fixed width -/
def ofFixed : PhysicalType → Bytes → Value
  | .int32 => int32
  | .int64 => int64
  | .float => float
  | .double => double
  | _ => fixedLenByteArray

/-- the bytes of a value in its page -/
def raw : Value → Bytes
  | boolean _ => []
  | int32 bs | int64 bs | float bs | double bs | byteArray bs | fixedLenByteArray bs => bs

def byteLen (v : Value) : Nat := v.raw.length

/-! ## what a value means -/

/-- the number in `width` bytes -/
def number (width : Nat) (bs : Bytes) : Except Misuse Nat :=
  if bs.length = width then .ok (fromLE bs) else .error (.wrongWidth width bs.length)

/-- what stands behind the length of a byte array -/
def payload (bs : Bytes) : Except Misuse Bytes :=
  if 4 ≤ bs.length then .ok (bs.drop 4) else .error (.sliceStart 4 bs.length)

def asBool : Value → Except Misuse Bool
  | boolean b => .ok b
  | v => .error (.wrongValue "a boolean" v.physicalType)

def asInt32 : Value → Except Misuse Int32
  | int32 bs => do
    let n ← number 4 bs
    pure (Int32.ofNat n)
  | v => .error (.wrongValue "an int32" v.physicalType)

def asInt64 : Value → Except Misuse Int64
  | int64 bs => do
    let n ← number 8 bs
    pure (Int64.ofNat n)
  | v => .error (.wrongValue "an int64" v.physicalType)

/-- the bits of a `float` -/
def asFloat : Value → Except Misuse UInt32
  | float bs => do
    let n ← number 4 bs
    pure (UInt32.ofNat n)
  | v => .error (.wrongValue "a float" v.physicalType)

/-- the bits of a `double` -/
def asDouble : Value → Except Misuse UInt64
  | double bs => do
    let n ← number 8 bs
    pure (UInt64.ofNat n)
  | v => .error (.wrongValue "a double" v.physicalType)

def asBytes : Value → Except Misuse Bytes
  | byteArray bs => payload bs
  | fixedLenByteArray bs => .ok bs
  | v => .error (.wrongValue "a byte array" v.physicalType)

def datum (v : Value) : Except Misuse Datum :=
  match v with
  | boolean b => .ok (.boolean b)
  | int32 _ => .int32 <$> v.asInt32
  | int64 _ => .int64 <$> v.asInt64
  | float _ => .float <$> v.asFloat
  | double _ => .double <$> v.asDouble
  | byteArray _ => .byteArray <$> v.asBytes
  | fixedLenByteArray bs => .ok (.fixedLenByteArray bs)

end Value

end Columnar
