import Columnar.Column.Writer
import Columnar.Options
import Columnar.Record.File

/-!
# Writing a file

A file is its signature, the chunks of its row groups, its metadata behind which its length
stands, and its signature again.

* `FileWriter.content`   the chunks of all row groups, and the metadata of the file;
* `FileWriter.finish`    the bytes of the file.
-/

namespace Columnar

/-- the leaf of a column -/
def ColumnSpec.leaf (spec : ColumnSpec) : SchemaElement :=
  { SchemaElement.optional spec.name spec.type with typeLength := spec.typeLength }

structure FileWriter where
  columns : List ColumnSpec
  /-- the name of a delta column behind the others -/
  delta : Option String := none
  /-- the slots of each row group, column by column -/
  rowGroups : List (List ColumnValues)
  pageRows : Nat := 1024
  dictionary : Bool := false
  statistics : Bool := true
  createdBy : Option String := some "parquet-flat version 0.1.0"

namespace FileWriter

/-- the columns with the delta column, which is the last -/
def specs (w : FileWriter) : List ColumnSpec :=
  w.columns ++ w.delta.toList.map fun name => { name, type := .byteArray }

def columnWriter (w : FileWriter) : ColumnWriter :=
  { pageRows := w.pageRows, dictionary := w.dictionary, statistics := w.statistics }

/-- a chunk of a regular column, of `rows` slots -/
def regularChunk (w : FileWriter) (rows start : Nat) (spec : ColumnSpec) (values : ColumnValues) :
    Except Error (Written ColumnChunk) :=
  if values.size ≠ rows then .error (Fault.rowCountMismatch spec.name values.size rows)
  else w.columnWriter.chunk start spec values

/-- a chunk of any column, of the type that its values have to have -/
def chunk (w : FileWriter) (rows start : Nat) (regular : Bool) (spec : ColumnSpec)
    (values : ColumnValues) : Except Error (Written ColumnChunk) :=
  if values.type ≠ spec.type then
    .error (Fault.columnTypeMismatch spec.name spec.type values.type)
  else match regular, values with
    | false, .byteArray slots => DeltaWriter.chunk start spec slots
    | _, _ => w.regularChunk rows start spec values

/-- the chunks of columns from `start` on, of which the first `regular` are regular -/
def chunks (w : FileWriter) (rows : Nat) :
    Nat → Nat → List (ColumnSpec × ColumnValues) → Except Error (Written (List ColumnChunk))
  | _, _, [] => pure ⟨[], []⟩
  | start, regular, (spec, values) :: rest => do
    let c ← w.chunk rows start (0 < regular) spec values
    let cs ← w.chunks rows (start + c.bytes.length) (regular - 1) rest
    pure ⟨c.bytes ++ cs.bytes, c.record :: cs.record⟩

/-- a row group that begins at `start`; the first regular column says how many rows it has -/
def rowGroup (w : FileWriter) (start ordinal : Nat) (columns : List ColumnValues) :
    Except Error (Written RowGroup) := do
  let specs := w.specs
  if columns.length ≠ specs.length then
    .error (Fault.columnCountMismatch columns.length specs.length)
  else
    let regular := w.columns.length
    let rows := ((columns.take regular).head?.map ColumnValues.size).getD 0
    let cs ← w.chunks rows start regular (specs.zip columns)
    let size := Int64.ofNat cs.bytes.length
    pure {
      bytes := cs.bytes
      record := {
        columns := cs.record
        totalByteSize := size
        numRows := Int64.ofNat rows
        fileOffset := some (Int64.ofNat start)
        totalCompressedSize := some size
        ordinal := some (Int16.ofNat ordinal) } }

/-- the row groups from `start` on, of which the first is number `ordinal` -/
def groups (w : FileWriter) :
    Nat → Nat → List (List ColumnValues) → Except Error (Written (List RowGroup))
  | _, _, [] => pure ⟨[], []⟩
  | start, ordinal, columns :: rest => do
    let g ← (w.rowGroup start ordinal columns).mapError (Error.within (.writingRowGroup ordinal))
    let gs ← w.groups (start + g.bytes.length) (ordinal + 1) rest
    pure ⟨g.bytes ++ gs.bytes, g.record :: gs.record⟩

/-- a root and a leaf for each column -/
def schema (w : FileWriter) : List SchemaElement :=
  .root "schema" (Int32.ofNat w.specs.length) :: w.specs.map ColumnSpec.leaf

/-- the metadata of a file with the given row groups -/
def metadata (w : FileWriter) (groups : List RowGroup) : FileMetaData :=
  { version := 1
    schema := w.schema
    numRows := (groups.map RowGroup.numRows).foldl (· + ·) 0
    rowGroups := groups
    keyValueMetadata := none
    createdBy := w.createdBy }

/-- the row groups, which stand behind the first signature, and the metadata -/
def content (w : FileWriter) : Except Error (Written FileMetaData) :=
  if w.pageRows = 0 then .error Fault.noPageRows
  else do
    let gs ← w.groups defaultMagic.length 0 w.rowGroups
    pure ⟨gs.bytes, w.metadata gs.record⟩

/-- the bytes of the file -/
def finish (w : FileWriter) : Except Error Bytes := do
  let c ← w.content
  let (footer, len) ← FileMetaData.format.encode c.record
  pure (defaultMagic ++ c.bytes ++ footer ++ toLE 4 len ++ defaultMagic)

end FileWriter

end Columnar
