import Columnar.Column.Delta
import Columnar.Column.Reader
import Columnar.File.Footer

/-!
# Reading a file

A file reader goes through the row groups of a file.  In each it binds one column reader and
one delta reader, which it keeps, to the chunks that are asked for.

* `FileReader.prepare`        reads the footer and takes a slot for each record in it;
* `FileReader.nextRowGroup`   goes to the next row group;
* `FileReader.prepareColumn`, `FileReader.prepareDelta`   bind the readers;
* `FileReader.close`          gives the slots back.
-/

namespace Columnar

structure FileReader where
  buffer : Bytes
  metadata : FileMetaData
  /-- the row group being read: `none` before the first, the number of row groups behind the
  last -/
  rowGroup : Option Nat := none
  column : ColumnReader
  delta : DeltaReader
  slots : List Slot

namespace FileReader

/-- a reader of a file, or no change to the pools -/
def prepare (buffer : Bytes) (o : Options) : Step Pools Failure FileReader := do
  let metadata ← Footer.read buffer o
  Footer.validate metadata
  let slots ← Pools.acquireAll (Footer.kinds metadata) []
  pure { buffer, metadata, slots, column := .ofBuffer buffer o, delta := .ofBuffer buffer o }

/-- the pools without the slots of the file -/
def close (r : FileReader) (p : Pools) : Pools := p.releaseAll r.slots

def size (r : FileReader) : Nat := r.buffer.length

/-- the leaves of the schema, without its root -/
def leaves (r : FileReader) : List SchemaElement := r.metadata.schema.tail

def numColumns (r : FileReader) : Nat := r.leaves.length

def numRowGroups (r : FileReader) : Nat := r.metadata.rowGroups.length

/-- the row group being read -/
def current (r : FileReader) : Option RowGroup := do
  let i ← r.rowGroup
  r.metadata.rowGroups[i]?

/-- the number of the next row group -/
def next (r : FileReader) : Nat :=
  match r.rowGroup with
  | none => 0
  | some i => i + 1

/-- go to the next row group; the answer is whether there is one -/
def nextRowGroup : Step FileReader Failure Bool := do
  let r ← Step.state
  if r.next < r.numRowGroups then
    Step.put { r with rowGroup := some r.next }
    pure true
  else
    Step.put { r with rowGroup := some r.numRowGroups }
    pure false

/-- the row group being read, with its number -/
def inRowGroup (r : FileReader) : Except Error (Nat × RowGroup) :=
  match r.rowGroup with
  | none => .error Fault.noRowGroupYet
  | some i =>
    match r.metadata.rowGroups[i]? with
    | some g => .ok (i, g)
    | none => .error Fault.allRowGroupsRead

/-- the schema element and the chunk of a column -/
def chunk (r : FileReader) (g : RowGroup) (column : Nat) :
    Except Failure (SchemaElement × ColumnChunk) :=
  match r.leaves[column]?, g.columns[column]? with
  | some leaf, some chunk => .ok (leaf, chunk)
  | _, _ => .error (.misuse (.sliceStart column g.columns.length))

/-- bind the column reader to a column of the row group -/
def prepareColumn (column : Nat) : Step FileReader Failure Unit := do
  let r ← Step.state
  let (i, g) ← (r.inRowGroup : Except Error (Nat × RowGroup))
  if r.numColumns ≤ column then
    Step.fail (Fault.noSuchColumn column r.numColumns)
  else
    let (leaf, chunk) ← r.chunk g column
    ((ColumnReader.prepare column leaf chunk).within (.readingRowGroup i)).on FileReader.column
      fun r column => { r with column }

/-- bind the delta reader to the last column of the row group -/
def prepareDelta : Step FileReader Failure Unit := do
  let r ← Step.state
  let (i, g) ← (r.inRowGroup : Except Error (Nat × RowGroup))
  if r.numColumns = 0 then
    Step.fail Fault.noColumns
  else
    let column := r.numColumns - 1
    let (leaf, chunk) ← r.chunk g column
    ((DeltaReader.prepare column leaf chunk).within (.readingRowGroup i)).on FileReader.delta
      fun r delta => { r with delta }

/-- the next batch of the column that is bound -/
def readColumn : Step (FileReader × Batch) Failure Nat :=
  ColumnReader.read.on (fun s => (s.1.column, s.2))
    fun s t => ({ s.1 with column := t.1 }, t.2)

/-- the next batch of the delta column that is bound -/
def readDelta : Step (FileReader × Batch) Failure Nat :=
  DeltaReader.read.on (fun s => (s.1.delta, s.2))
    fun s t => ({ s.1 with delta := t.1 }, t.2)

end FileReader

end Columnar
