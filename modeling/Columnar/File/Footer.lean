import Columnar.Pool
import Columnar.Record.File

/-!
# Footers

A file begins and ends with its signature.  Before the last signature stands the length of the
footer in four bytes, and before that the footer, which is the metadata of the file.

* `Footer.read`       the metadata of a file;
* `Footer.validate`   the shape of metadata that can be read: a root with nothing but leaves
                      below it, and row groups with one chunk for each leaf, of the same type.
-/

namespace Columnar.Footer

/-- both signatures and the length of the footer -/
def minFileSize : Nat := 12

/-- the length of the footer and the last signature -/
def trailerSize : Nat := 8

/-- the first signature is only looked at when the metadata could be read -/
def read (buffer : Bytes) (o : Options) : Except Failure FileMetaData := do
  let size := buffer.length
  if size < minFileSize then
    .error (Fault.fileTooSmall size minFileSize)
  else
    let trailer := buffer.drop (size - trailerSize)
    if trailer.drop 4 ≠ o.magic then
      .error (Fault.badTrailingMagic (trailer.drop 4))
    else
      let len := fromLE (trailer.take 4)
      if size - minFileSize < len then
        .error (Fault.footerTooLong len size)
      else
        let start := size - len - trailerSize
        let (metadata, _) ← (FileMetaData.format.decode o ((buffer.drop start).take len)).mapError
          (Failure.within (.footerAt start))
        if buffer.take 4 ≠ o.magic then
          .error (Fault.badLeadingMagic (buffer.take 4))
        else
          pure metadata

/-- a leaf of a type that can be read -/
def validateLeaf (leaf : SchemaElement) : Except Error Unit :=
  if leaf.numChildren.any (· ≠ 0) then .error (Fault.nestedColumn leaf.name)
  else match leaf.physicalType with
    | none => .error (Fault.noPhysicalType leaf.name)
    | some .int96 => .error (Fault.int96Column leaf.name)
    | some _ => .ok ()

/-- a chunk with metadata of the type of its leaf -/
def validateChunk (group : Nat) (leaf : SchemaElement) (chunk : ColumnChunk) : Except Error Unit :=
  match chunk.metaData with
  | none => .error (Fault.groupChunkWithoutMetaData group leaf.name)
  | some m =>
    if leaf.physicalType ≠ some m.physicalType then
      .error (Fault.groupChunkTypeMismatch group leaf.name m.physicalType leaf.physicalType)
    else .ok ()

/-- a row group with one chunk for each leaf -/
def validateGroup (leaves : List SchemaElement) (index : Nat) (g : RowGroup) :
    Except Error Unit :=
  if g.columns.length ≠ leaves.length then
    .error (Fault.chunkCountMismatch index g.columns.length leaves.length)
  else
    (leaves.zip g.columns).forM fun (leaf, chunk) => validateChunk index leaf chunk

/-- the root has to count the leaves, in 32 bits -/
def validate (m : FileMetaData) : Except Error Unit :=
  match m.schema with
  | [] => .error Fault.emptySchema
  | root :: leaves => do
    if root.numChildren ≠ some (Int32.ofNat leaves.length) then
      .error (Fault.nestedSchema (root.numChildren.map Int32.toInt) leaves.length)
    else
      leaves.forM validateLeaf
      m.rowGroups.zipIdx.forM fun (g, i) => validateGroup leaves i g

/-- the records of a file that take a slot, in the order in which they take it -/
def kinds (m : FileMetaData) : List RecordKind :=
  m.rowGroups.flatMap fun g =>
    .rowGroup :: g.columns.flatMap fun _ => [.columnChunk, .columnMetaData]

end Columnar.Footer
