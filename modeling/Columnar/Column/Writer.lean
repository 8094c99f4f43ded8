import Columnar.Column.Dictionary
import Columnar.Column.Values
import Columnar.Levels
import Columnar.Record.Chunk
import Columnar.Record.Page

/-!
# Writing a column

A column of a row group becomes a chunk: its dictionary if it has one, then its data pages, each
of a fixed number of slots.  A delta column becomes a single page with the header of a
dictionary.

* `ColumnWriter.chunk`   the bytes of a chunk that begins at a given place of the file, and the
                         record of it;
* `DeltaWriter.chunk`    the same for a delta column.
-/

namespace Columnar

/-- a part of a file and the record of it -/
structure Written (α : Type) where
  bytes : Bytes
  record : α

/-- a page: a header for the body, then the body; its size has to fit 31 bits -/
def writePage (header : PageHeader) (body : Bytes) : Except Error Bytes := do
  if 2 ^ 31 ≤ body.length then
    .error (Fault.pageTooLarge body.length)
  else
    let size := Int32.ofNat body.length
    let header := { header with uncompressedPageSize := size, compressedPageSize := size }
    let (bytes, _) ← PageHeader.format.encode header
    pure (bytes ++ body)

/-- a header without a size -/
def PageHeader.ofType (t : PageType) : PageHeader :=
  { pageType := t, uncompressedPageSize := 0, compressedPageSize := 0, crc := none,
    dataPageHeader := none, dictionaryPageHeader := none, dataPageHeaderV2 := none }

/-- a list in pieces of `n`, the last one shorter -/
def piecesOf {α : Type} (n : Nat) (xs : List α) : List (List α) :=
  if _h : n = 0 ∨ xs = [] then [] else xs.take n :: piecesOf n (xs.drop n)
termination_by xs.length
decreasing_by
  have h := not_or.mp _h
  have : 0 < xs.length := List.length_pos_iff.mpr h.2
  simp only [List.length_drop]
  omega

structure ColumnWriter where
  /-- the most slots of a data page -/
  pageRows : Nat
  /-- whether columns get a dictionary; booleans never do -/
  dictionary : Bool
  /-- whether the number of empty slots is noted -/
  statistics : Bool

namespace ColumnWriter

/-- what is noted about slots -/
def note (w : ColumnWriter) (slots : List (Option Bytes)) : Option Statistics :=
  if w.statistics then some { nullCount := some (Int64.ofNat (slots.countP Option.isNone)) }
  else none

/-- the body of a data page with its encoding: levels, then the values or their indices behind
the width of an index -/
def body (t : PhysicalType) (d : Option Dictionary) (slots : List (Option Bytes)) :
    Except Error (Bytes × Encoding) := do
  let levels ← encodeLevels (slots.map Option.isSome)
  match d with
  | none => pure (levels ++ Plain.layout t (slots.filterMap id), .plain)
  | some d =>
    let indices ← Hybrid.encode d.bitWidth ((d.indices slots).filterMap id)
    pure (levels ++ UInt8.ofNat d.bitWidth :: indices, .rleDictionary)

/-- a data page -/
def dataPage (w : ColumnWriter) (t : PhysicalType) (d : Option Dictionary)
    (slots : List (Option Bytes)) : Except Error Bytes := do
  let (body, encoding) ← body t d slots
  writePage { PageHeader.ofType .dataPage with
    dataPageHeader := some {
      numValues := Int32.ofNat slots.length
      encoding
      definitionLevelEncoding := .rle
      repetitionLevelEncoding := .rle
      statistics := w.note slots } } body

/-- the page of a dictionary, nothing without one -/
def dictionaryPage : Option Dictionary → Except Error Bytes
  | none => pure []
  | some d => writePage { PageHeader.ofType .dictionaryPage with
      dictionaryPageHeader := some {
        numValues := Int32.ofNat d.entries.length
        encoding := .plainDictionary
        isSorted := none } } d.entries.flatten

/-- the dictionary of a column, if it gets one -/
def dictionaryOf (w : ColumnWriter) (t : PhysicalType) (slots : List (Option Bytes)) :
    Option Dictionary :=
  if w.dictionary ∧ t ≠ .boolean then some (.ofSlots slots) else none

/-- a chunk that begins at `start` -/
def chunk (w : ColumnWriter) (start : Nat) (spec : ColumnSpec) (values : ColumnValues) :
    Except Error (Written ColumnChunk) := do
  let slots ← values.staged spec
  let d := w.dictionaryOf spec.type slots
  let first ← dictionaryPage d
  let pages ← (piecesOf w.pageRows slots).mapM (w.dataPage spec.type d)
  let bytes := first ++ pages.flatten
  let size := Int64.ofNat bytes.length
  pure {
    bytes
    record := {
      filePath := none
      fileOffset := 0
      metaData := some {
        physicalType := spec.type
        encodings := if d.isSome then [.rle, .plainDictionary, .rleDictionary] else [.rle, .plain]
        pathInSchema := [spec.name]
        codec := .uncompressed
        numValues := Int64.ofNat slots.length
        totalUncompressedSize := size
        totalCompressedSize := size
        keyValueMetadata := none
        dataPageOffset := Int64.ofNat (start + first.length)
        indexPageOffset := none
        dictionaryPageOffset := if d.isSome then some (Int64.ofNat start) else none
        statistics := w.note slots } } }

end ColumnWriter

namespace DeltaWriter

/-- one entry of a delta column: a value, or the empty value that ends a run -/
def entry (spec : ColumnSpec) : Option Bytes → Except Error Bytes
  | none => pure (Plain.byteArray [])
  | some bs =>
    if bs = [] then .error (Fault.emptyDeltaValue spec.name)
    else if 2 ^ 32 ≤ bs.length then .error (Fault.byteArrayTooLong bs.length)
    else pure (Plain.byteArray bs)

/-- the empty value behind a run that is not ended yet -/
def lastTerminator (values : List (Option Bytes)) : Bytes :=
  match values.getLast? with
  | some (some _) => Plain.byteArray []
  | _ => []

/-- a chunk that begins at `start`; the empty values are not counted -/
def chunk (start : Nat) (spec : ColumnSpec) (values : List (Option Bytes)) :
    Except Error (Written ColumnChunk) := do
  let entries ← values.mapM (entry spec)
  let count := values.countP Option.isSome
  let bytes ← writePage { PageHeader.ofType .dictionaryPage with
    dictionaryPageHeader := some {
      numValues := Int32.ofNat count
      encoding := .plain
      isSorted := none } } (entries.flatten ++ lastTerminator values)
  let size := Int64.ofNat bytes.length
  pure {
    bytes
    record := {
      filePath := none
      fileOffset := 0
      metaData := some {
        physicalType := .byteArray
        encodings := [.plain]
        pathInSchema := [spec.name]
        codec := .uncompressed
        numValues := Int64.ofNat count
        totalUncompressedSize := size
        totalCompressedSize := size
        keyValueMetadata := none
        dataPageOffset := Int64.ofNat start
        indexPageOffset := none
        dictionaryPageOffset := some (Int64.ofNat start)
        statistics := none } } }

end DeltaWriter

end Columnar
