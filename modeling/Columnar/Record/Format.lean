import Columnar.Compact.Reader
import Columnar.Compact.Writer

/-!
# Formats of records

A record is written as a struct of the compact protocol.  Its format is a table of fields; one
table serves both directions.

* `Codec α`      how a payload of type `α` is read and written, and its type on the wire;
* `Field D`      a numbered payload of a record under construction;
* `Format R`     the fields of a record `R`, a draft in which all of them are optional, and the
                 passage between drafts and records;
* `Format.decode`, `Format.encode`   a record and its bytes;
* `Format.append`   the bytes of a record behind others.

Reading a field whose number and type are not in the table skips it; the last field of a number
and type wins; what is missing at the end is reported in the order of the record's own fields.
-/

namespace Columnar

open Columnar.Compact

structure Codec (α : Type) where
  type : WireType
  read : Read α
  write : α → Write Nat

/-- a payload of a draft `D`, with its number -/
structure Field (D : Type) where
  id : Int16
  {Payload : Type}
  codec : Codec Payload
  get : D → Option Payload
  set : D → Payload → D

/-- the format of a record `R` -/
structure Format (R : Type) where
  kind : RecordKind
  /-- a record of which any field may be missing -/
  Draft : Type
  blank : Draft
  /-- the fields, in the order in which they are written -/
  fields : List (Field Draft)
  /-- the record, when nothing it needs is missing -/
  finish : Draft → Except Error R
  draft : R → Draft

/-- a field that a record cannot do without -/
def require {α : Type} (kind : RecordKind) (field : String) : Option α → Except Error α
  | some x => .ok x
  | none => .error (Fault.missingField kind field)

/-- the member of a closed set with the number `c` -/
def decodeCode (α : Type) [Coded α] (c : Int32) : Except Error α :=
  match Coded.ofCode? c with
  | some x => .ok x
  | none => .error (Fault.unknownCode (Coded.noun α) c.toInt)

/-! ## formats at work -/

namespace Format

variable {R : Type} (F : Format R)

/-- one field of the struct: into the draft when the table has it, else skipped -/
def readField (d : F.Draft) (t : WireType) (id : Int16) : Read F.Draft :=
  match F.fields.find? fun f => f.id == id && f.codec.type == t with
  | some f => do
    let x ← f.codec.read
    pure (f.set d x)
  | none => do
    Read.skip t
    pure d

def read : Read R := do
  let d ← Read.foldStruct F.readField F.blank
  let r ← F.finish d
  pure r

/-- one field of a draft; a missing one writes nothing -/
def writeField (d : F.Draft) (f : Field F.Draft) : Write Nat :=
  match f.get d with
  | none => pure 0
  | some x => Write.field f.codec.type f.id (f.codec.write x)

def write (r : R) : Write Nat :=
  Write.struct (Write.total (F.fields.map (F.writeField (F.draft r))))

/-- the record at the front of a byte string, and how many bytes it takes -/
def decode (o : Options) (bs : Bytes) : Except Failure (R × Nat) :=
  match F.read (.ofCursor (.ofBytes bs) o) with
  | (.ok r, s) => .ok (r, s.cursor.pos)
  | (.error e, _) => .error (e.within (.decodingRecord F.kind))

/-- `front` with a record behind it, and how many bytes the record takes -/
def append (front : Bytes) (r : R) : Except Error (Bytes × Nat) :=
  match F.write r { sink := .holding front } with
  | (.ok n, w) => .ok (w.sink.bytes, n)
  | (.error e, _) => .error e

/-- the bytes of a record, and how many there are -/
def encode (r : R) : Except Error (Bytes × Nat) := F.append [] r

end Format

/-! ## codecs of payloads -/

namespace Codec

def bool : Codec Bool := ⟨.bool, Read.bool, Write.bool⟩

def i16 : Codec Int16 := ⟨.i16, Read.i16, Write.i16⟩

def i32 : Codec Int32 := ⟨.i32, Read.i32, Write.i32⟩

def i64 : Codec Int64 := ⟨.i64, Read.i64, Write.i64⟩

def binary : Codec Bytes := ⟨.binary, Read.binary, Write.binary⟩

def string : Codec String := ⟨.binary, Read.string, Write.string⟩

/-- a member of a closed set by its number -/
def code (α : Type) [Coded α] : Codec α where
  type := .i32
  read := do
    let c ← Read.i32
    let x ← decodeCode α c
    pure x
  write x := Write.i32 (Coded.code x)

/-- the bytes of memory that a number takes in a list -/
def codeRoom : Nat := 4

/-- the bytes of memory that a text takes in a list, without its characters -/
def textRoom : Nat := 24

/-- members of a closed set by their numbers; all numbers are read before the first is looked
up, and the element type that the list declares plays no part -/
def codes (α : Type) [Coded α] : Codec (List α) where
  type := .list
  read := do
    let (_, n) ← Read.listBegin
    Read.reserve n codeRoom
    let cs ← Step.times n Read.i32
    let xs ← (cs.mapM (decodeCode α) : Except Error (List α))
    pure xs
  write xs := do
    let head ← Write.listBegin .i32 xs.length
    let body ← Write.total (xs.map fun x => Write.i32 (Coded.code x))
    pure (head + body)

/-- texts; the element type that the list declares plays no part -/
def strings : Codec (List String) where
  type := .list
  read := do
    let (_, n) ← Read.listBegin
    Read.reserve n textRoom
    Step.times n Read.string
  write xs := do
    let head ← Write.listBegin .binary xs.length
    let body ← Write.total (xs.map Write.string)
    pure (head + body)

/-- a record inside a record -/
def record {R : Type} (F : Format R) : Codec R := ⟨.struct, F.read, F.write⟩

/-- a list of records; it has to declare structs -/
def records {R : Type} (F : Format R) : Codec (List R) where
  type := .list
  read := do
    let (t, n) ← Read.listBegin
    if t = .struct then
      Read.reserve n F.kind.room
      Step.times n F.read
    else
      Step.fail (Fault.notAListOf F.kind t)
  write rs := do
    let head ← Write.listBegin .struct rs.length
    let body ← Write.total (rs.map F.write)
    pure (head + body)

end Codec

end Columnar
