import Columnar.Column.Writer
import Columnar.Plain.Encoder

/-!
# Staging a column

Before a column is written, the encoder of plain values lays its values one behind the other, and a
slot is the range of bytes that its value takes there.  A dictionary is built in one pass over the
slots: each is looked up by its bytes, and becomes an entry when these are met for the first time.

* `Staging.ofColumn`        the values of a column, and the range of each slot;
* `Staging.dictionary`      the entries, and the index of each slot;
* `Staging.dictionaryBody`, `Staging.indexBody`   the bodies of the pages that are written of them.
-/

namespace Columnar

/-- the bytes from `start` up to `stop` -/
structure ByteRange where
  start : Nat
  stop : Nat
deriving DecidableEq

def ByteRange.of (bs : Bytes) (r : ByteRange) : Bytes := (bs.drop r.start).take (r.stop - r.start)

/-- the values of a column in plain layout, and where the value of each slot lies -/
structure Staging where
  bytes : Bytes
  slots : List (Option ByteRange)
deriving DecidableEq

/-- the entries of a dictionary, and the index of each slot -/
structure StagedDictionary where
  entries : List ByteRange
  indices : List (Option UInt32)
deriving DecidableEq

/-- the bits of an index; the number of entries is taken in 32 bits -/
def StagedDictionary.bitWidth (d : StagedDictionary) : Nat :=
  Hybrid.bitWidth ((d.entries.length - 1) % 2 ^ 32)

namespace Staging

/-! ## values -/

/-- one value to the encoder; a boolean takes a byte here -/
def encodeDatum (spec : ColumnSpec) (length : Int) : Datum → Step Plain.Encoder Error Unit
  | .boolean b => Plain.Encoder.scalar 1 b.toUInt8.toNat
  | .int32 n => Plain.Encoder.scalar 4 n.toUInt32.toNat
  | .int64 n => Plain.Encoder.scalar 8 n.toUInt64.toNat
  | .float bits => Plain.Encoder.scalar 4 bits.toNat
  | .double bits => Plain.Encoder.scalar 8 bits.toNat
  | .byteArray bs => Plain.Encoder.byteArray bs
  | .fixedLenByteArray bs =>
    if (bs.length : Int) ≠ length then Step.fail (Fault.wrongFixedLength bs.length spec.name length)
    else Plain.Encoder.fixed bs

/-- the range that the value of a slot takes -/
def encodeSlot (spec : ColumnSpec) (length : Int) :
    Option Datum → Step Plain.Encoder Error (Option ByteRange)
  | none => pure none
  | some d => do
    let start ← Step.look Plain.Encoder.encodedLen
    encodeDatum spec length d
    let stop ← Step.look Plain.Encoder.encodedLen
    pure (some ⟨start, stop⟩)

def encodeSlots (spec : ColumnSpec) (length : Int) :
    List (Option Datum) → Step Plain.Encoder Error (List (Option ByteRange))
  | [] => pure []
  | slot :: slots => do
    let r ← encodeSlot spec length slot
    let rs ← encodeSlots spec length slots
    pure (r :: rs)

/-- what an encoder over a sink of its own answers, with the bytes in the sink -/
def collect {α : Type} (x : Step Plain.Encoder Error α) : Except Error (α × Bytes) :=
  match (do let a ← x; Plain.Encoder.finish; pure a : Step Plain.Encoder Error α)
    { sink := .unbounded } with
  | (.ok a, e) => .ok (a, e.sink.bytes)
  | (.error x, _) => .error x

def ofColumn (spec : ColumnSpec) (vs : ColumnValues) : Except Error Staging := do
  let length ← vs.fixedLength spec
  let (slots, bytes) ← collect (encodeSlots spec length vs.data)
  pure { bytes, slots }

variable (s : Staging)

/-- the bytes of each slot -/
def slotBytes : List (Option Bytes) := s.slots.map (·.map (ByteRange.of s.bytes))

/-! ## dictionaries -/

/-- the entries that were met, and the index of each by its bytes -/
structure Met where
  entries : List ByteRange := []
  lookup : List (Bytes × UInt32) := []

/-- the index of a range by its bytes, which becomes an entry when they were not met before -/
def enter (r : ByteRange) (m : Met) : UInt32 × Met :=
  match m.lookup.lookup (r.of s.bytes) with
  | some i => (i, m)
  | none =>
    let entries := m.entries ++ [r]
    let i := UInt32.ofNat (entries.length - 1)
    (i, { entries, lookup := (r.of s.bytes, i) :: m.lookup })

/-- the indices of slots, and the entries behind the last of them -/
def indexSlots : List (Option ByteRange) → Met → StagedDictionary
  | [], m => { entries := m.entries, indices := [] }
  | none :: slots, m =>
    let d := indexSlots slots m
    { d with indices := none :: d.indices }
  | some r :: slots, m =>
    let (i, m) := s.enter r m
    let d := indexSlots slots m
    { d with indices := some i :: d.indices }

def dictionary : StagedDictionary := s.indexSlots s.slots {}

/-! ## pages -/

/-- ranges to the encoder, each as a span of the staged bytes -/
def encodeRanges : List ByteRange → Step Plain.Encoder Error Unit
  | [] => pure ()
  | r :: rs => do
    Plain.Encoder.span ⟨⟨0, s.bytes⟩, r.start, r.stop⟩
    encodeRanges rs

/-- the body of the page of a dictionary -/
def dictionaryBody (d : StagedDictionary) : Except Error Bytes := do
  let (_, body) ← collect (s.encodeRanges d.entries)
  pure body

/-- the body of a data page: the levels of the rows, then their indices behind the width of one -/
def indexBody (width : Nat) (rows : List (Option ByteRange)) (indices : List (Option UInt32)) :
    Except Error Bytes := do
  let levels ← encodeLevels (rows.map Option.isSome)
  let indices ← Hybrid.encode width ((indices.filterMap id).map UInt32.toNat)
  pure (levels ++ UInt8.ofNat width :: indices)

end Staging

end Columnar
