import Columnar.Record.File

/-!
# Binding a column chunk

Before a column is read, its schema element and its chunk are held against each other and
against the buffer.  What can be refused without reading a page is refused here, and in a fixed
order: the first reason to refuse is the one that is given.
-/

namespace Columnar

/-- how far a reader of a column has come -/
inductive Progress where
  | uninitialized | ready | exhausted
deriving DecidableEq

def Progress.name : Progress → String
  | uninitialized => "Uninitialized"
  | ready => "Ready"
  | exhausted => "Exhausted"

/-- a column chunk that can be read: what it holds and where it lies -/
structure Binding where
  column : Nat
  name : String
  type : PhysicalType
  /-- the length of the values, where the schema fixes it -/
  typeLength : Option Nat
  numValues : Nat
  start : Nat
  size : Nat
  dictionaryOffset : Option Nat
deriving DecidableEq

namespace Binding

/-- the bytes of the chunk -/
def bytes (b : Binding) (buffer : Bytes) : Bytes := (buffer.drop b.start).take b.size

/-- a number of the chunk that must not be negative -/
def natural (which : ChunkNumber) (n : Int64) : Except Error Nat :=
  if n < 0 then .error (Fault.negativeChunkNumber which n.toInt) else .ok n.toInt.toNat

/-- the metadata of a chunk that lies in this file, uncompressed -/
def checkChunk (chunk : ColumnChunk) : Except Error ColumnMetaData :=
  match chunk.filePath, chunk.metaData with
  | some path, _ => .error (Fault.externalFile path)
  | none, meta? =>
    if chunk.fileOffset ≠ 0 then .error (Fault.fileOffsetSet chunk.fileOffset.toInt)
    else match meta? with
      | none => .error Fault.chunkWithoutMetaData
      | some m =>
        if m.codec ≠ .uncompressed then .error (Fault.codec m.codec)
        else if m.totalCompressedSize ≠ m.totalUncompressedSize then
          .error (Fault.compressedChunk m.totalCompressedSize.toInt m.totalUncompressedSize.toInt)
        else .ok m

/-- the type of an optional column that its chunk agrees on -/
def checkType (schema : SchemaElement) (m : ColumnMetaData) : Except Error PhysicalType :=
  if schema.repetition ≠ some .optional then
    .error (Fault.notOptional schema.name schema.repetition)
  else match schema.physicalType with
    | none => .error (Fault.noPhysicalType schema.name)
    | some t =>
      if t ≠ m.physicalType then
        .error (Fault.chunkTypeMismatch schema.name t m.physicalType)
      else if t = .int96 then .error (Fault.int96Column schema.name)
      else .ok t

/-- the length of the values of a column, which only byte arrays of fixed length have -/
def checkLength (schema : SchemaElement) (t : PhysicalType) : Except Error (Option Nat) :=
  if t = .fixedLenByteArray then
    match schema.typeLength with
    | some len =>
      if 0 ≤ len then .ok (some len.toInt.toNat)
      else .error (Fault.badTypeLength schema.name (some len.toInt))
    | none => .error (Fault.badTypeLength schema.name none)
  else .ok none

/-- where a chunk begins: at its dictionary when it has one -/
def chunkStart (m : ColumnMetaData) : Option Nat → Except Error Nat
  | some offset => .ok offset
  | none => natural .dataPageOffset m.dataPageOffset

/-- the binding of a chunk in a buffer of `size` bytes -/
def ofChunk (column : Nat) (schema : SchemaElement) (chunk : ColumnChunk) (size : Nat) :
    Except Error Binding := do
  let m ← checkChunk chunk
  let type ← checkType schema m
  let typeLength ← checkLength schema type
  let numValues ← natural .valueCount m.numValues
  let chunkSize ← natural .chunkSize m.totalCompressedSize
  let dictionaryOffset ← m.dictionaryPageOffset.mapM (natural .dictionaryPageOffset)
  let start ← chunkStart m dictionaryOffset
  if size < start + chunkSize then
    .error (Fault.chunkPastEnd start chunkSize size)
  else
    pure { column, name := schema.name, type, typeLength, numValues, start, size := chunkSize,
           dictionaryOffset }

end Binding

end Columnar
