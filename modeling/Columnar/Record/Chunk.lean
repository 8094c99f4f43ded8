import Columnar.Record.Statistics

/-!
# Column chunks

A column chunk is the part of a column that lies in one row group.  Its metadata says what it
holds and where its pages begin.
-/

namespace Columnar

structure ColumnMetaData where
  physicalType : PhysicalType
  encodings : List Encoding
  pathInSchema : List String
  codec : Compression
  numValues : Int64
  totalUncompressedSize : Int64
  totalCompressedSize : Int64
  keyValueMetadata : Option (List KeyValue)
  dataPageOffset : Int64
  indexPageOffset : Option Int64
  dictionaryPageOffset : Option Int64
  statistics : Option Statistics
deriving DecidableEq

structure ColumnMetaData.Draft where
  physicalType : Option PhysicalType := none
  encodings : Option (List Encoding) := none
  pathInSchema : Option (List String) := none
  codec : Option Compression := none
  numValues : Option Int64 := none
  totalUncompressedSize : Option Int64 := none
  totalCompressedSize : Option Int64 := none
  keyValueMetadata : Option (List KeyValue) := none
  dataPageOffset : Option Int64 := none
  indexPageOffset : Option Int64 := none
  dictionaryPageOffset : Option Int64 := none
  statistics : Option Statistics := none

def ColumnMetaData.format : Format ColumnMetaData where
  kind := .columnMetaData
  Draft := ColumnMetaData.Draft
  blank := {}
  fields := [
    { id := 1, codec := .code PhysicalType, get := (·.physicalType),
      set := fun d x => { d with physicalType := some x } },
    { id := 2, codec := .codes Encoding, get := (·.encodings),
      set := fun d x => { d with encodings := some x } },
    { id := 3, codec := .strings, get := (·.pathInSchema),
      set := fun d x => { d with pathInSchema := some x } },
    { id := 4, codec := .code Compression, get := (·.codec),
      set := fun d x => { d with codec := some x } },
    { id := 5, codec := .i64, get := (·.numValues),
      set := fun d x => { d with numValues := some x } },
    { id := 6, codec := .i64, get := (·.totalUncompressedSize),
      set := fun d x => { d with totalUncompressedSize := some x } },
    { id := 7, codec := .i64, get := (·.totalCompressedSize),
      set := fun d x => { d with totalCompressedSize := some x } },
    { id := 8, codec := .records KeyValue.format, get := (·.keyValueMetadata),
      set := fun d x => { d with keyValueMetadata := some x } },
    { id := 9, codec := .i64, get := (·.dataPageOffset),
      set := fun d x => { d with dataPageOffset := some x } },
    { id := 10, codec := .i64, get := (·.indexPageOffset),
      set := fun d x => { d with indexPageOffset := some x } },
    { id := 11, codec := .i64, get := (·.dictionaryPageOffset),
      set := fun d x => { d with dictionaryPageOffset := some x } },
    { id := 12, codec := .record Statistics.format, get := (·.statistics),
      set := fun d x => { d with statistics := some x } }]
  finish d := do
    let physicalType ← require .columnMetaData "type" d.physicalType
    let encodings ← require .columnMetaData "encodings" d.encodings
    let pathInSchema ← require .columnMetaData "path_in_schema" d.pathInSchema
    let codec ← require .columnMetaData "codec" d.codec
    let numValues ← require .columnMetaData "num_values" d.numValues
    let totalUncompressedSize ←
      require .columnMetaData "total_uncompressed_size" d.totalUncompressedSize
    let totalCompressedSize ←
      require .columnMetaData "total_compressed_size" d.totalCompressedSize
    let dataPageOffset ← require .columnMetaData "data_page_offset" d.dataPageOffset
    pure { d with
      physicalType, encodings, pathInSchema, codec, numValues, totalUncompressedSize,
      totalCompressedSize, dataPageOffset }
  draft r := { r with
    physicalType := some r.physicalType
    encodings := some r.encodings
    pathInSchema := some r.pathInSchema
    codec := some r.codec
    numValues := some r.numValues
    totalUncompressedSize := some r.totalUncompressedSize
    totalCompressedSize := some r.totalCompressedSize
    dataPageOffset := some r.dataPageOffset }

structure ColumnChunk where
  /-- the file that the chunk lies in, when it is another one -/
  filePath : Option String
  /-- an old place of the metadata, now zero -/
  fileOffset : Int64
  metaData : Option ColumnMetaData
deriving DecidableEq

structure ColumnChunk.Draft where
  filePath : Option String := none
  fileOffset : Option Int64 := none
  metaData : Option ColumnMetaData := none

def ColumnChunk.format : Format ColumnChunk where
  kind := .columnChunk
  Draft := ColumnChunk.Draft
  blank := {}
  fields := [
    { id := 1, codec := .string, get := (·.filePath),
      set := fun d x => { d with filePath := some x } },
    { id := 2, codec := .i64, get := (·.fileOffset),
      set := fun d x => { d with fileOffset := some x } },
    { id := 3, codec := .record ColumnMetaData.format, get := (·.metaData),
      set := fun d x => { d with metaData := some x } }]
  finish d := do
    let fileOffset ← require .columnChunk "file_offset" d.fileOffset
    pure { d with fileOffset }
  draft r := { r with fileOffset := some r.fileOffset }

end Columnar
