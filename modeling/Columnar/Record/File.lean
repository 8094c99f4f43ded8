import Columnar.Record.Chunk
import Columnar.Record.Schema

/-!
# Row groups and the metadata of a file

A row group holds one chunk of every column.  The metadata of a file is its schema, its row
groups, and what the writer said about itself.
-/

namespace Columnar

structure RowGroup where
  columns : List ColumnChunk
  totalByteSize : Int64
  numRows : Int64
  fileOffset : Option Int64
  totalCompressedSize : Option Int64
  ordinal : Option Int16
deriving DecidableEq

structure RowGroup.Draft where
  columns : Option (List ColumnChunk) := none
  totalByteSize : Option Int64 := none
  numRows : Option Int64 := none
  fileOffset : Option Int64 := none
  totalCompressedSize : Option Int64 := none
  ordinal : Option Int16 := none

/-- the number 4 is not read -/
def RowGroup.format : Format RowGroup where
  kind := .rowGroup
  Draft := RowGroup.Draft
  blank := {}
  fields := [
    { id := 1, codec := .records ColumnChunk.format, get := (·.columns),
      set := fun d x => { d with columns := some x } },
    { id := 2, codec := .i64, get := (·.totalByteSize),
      set := fun d x => { d with totalByteSize := some x } },
    { id := 3, codec := .i64, get := (·.numRows),
      set := fun d x => { d with numRows := some x } },
    { id := 5, codec := .i64, get := (·.fileOffset),
      set := fun d x => { d with fileOffset := some x } },
    { id := 6, codec := .i64, get := (·.totalCompressedSize),
      set := fun d x => { d with totalCompressedSize := some x } },
    { id := 7, codec := .i16, get := (·.ordinal),
      set := fun d x => { d with ordinal := some x } }]
  finish d := do
    let columns ← require .rowGroup "columns" d.columns
    let totalByteSize ← require .rowGroup "total_byte_size" d.totalByteSize
    let numRows ← require .rowGroup "num_rows" d.numRows
    pure { d with columns, totalByteSize, numRows }
  draft r := { r with
    columns := some r.columns
    totalByteSize := some r.totalByteSize
    numRows := some r.numRows }

structure FileMetaData where
  version : Int32
  /-- depth first; the root comes first -/
  schema : List SchemaElement
  numRows : Int64
  rowGroups : List RowGroup
  keyValueMetadata : Option (List KeyValue)
  createdBy : Option String
deriving DecidableEq

structure FileMetaData.Draft where
  version : Option Int32 := none
  schema : Option (List SchemaElement) := none
  numRows : Option Int64 := none
  rowGroups : Option (List RowGroup) := none
  keyValueMetadata : Option (List KeyValue) := none
  createdBy : Option String := none

def FileMetaData.format : Format FileMetaData where
  kind := .fileMetaData
  Draft := FileMetaData.Draft
  blank := {}
  fields := [
    { id := 1, codec := .i32, get := (·.version),
      set := fun d x => { d with version := some x } },
    { id := 2, codec := .records SchemaElement.format, get := (·.schema),
      set := fun d x => { d with schema := some x } },
    { id := 3, codec := .i64, get := (·.numRows),
      set := fun d x => { d with numRows := some x } },
    { id := 4, codec := .records RowGroup.format, get := (·.rowGroups),
      set := fun d x => { d with rowGroups := some x } },
    { id := 5, codec := .records KeyValue.format, get := (·.keyValueMetadata),
      set := fun d x => { d with keyValueMetadata := some x } },
    { id := 6, codec := .string, get := (·.createdBy),
      set := fun d x => { d with createdBy := some x } }]
  finish d := do
    let version ← require .fileMetaData "version" d.version
    let schema ← require .fileMetaData "schema" d.schema
    let numRows ← require .fileMetaData "num_rows" d.numRows
    let rowGroups ← require .fileMetaData "row_groups" d.rowGroups
    pure { d with version, schema, numRows, rowGroups }
  draft r := { r with
    version := some r.version
    schema := some r.schema
    numRows := some r.numRows
    rowGroups := some r.rowGroups }

end Columnar
