import Columnar.Proofs.Column.Rebinding
import Columnar.Proofs.File.RoundTrip

/-!
# Binding the readers of a file again

A file reader keeps one column reader and one delta reader, and binds them again and again.  What
was called of it before, and what became of that, is not told from what they answer.

* `FileReader.Reads.prepareColumn_answer`, `FileReader.Reads.prepareDelta_answer`   two readers of
  a file that have come to the same row group;
* `FileReader.rebinds`   a reader with any calls behind it, and a new one.
-/

namespace Columnar.FileReader

open Step

variable {bytes : Bytes} {o : Options} {m : FileMetaData} {k : Nat} {r r' : FileReader}

/-! ## two readers in one row group -/

namespace Reads

theorem inRowGroup_eq (h : Reads bytes o m k r) (h' : Reads bytes o m k r') :
    r.inRowGroup = r'.inRowGroup := by
  rw [FileReader.inRowGroup, FileReader.inRowGroup, h.rowGroup, h'.rowGroup, h.metadata,
    h'.metadata]

theorem numColumns_eq (h : Reads bytes o m k r) (h' : Reads bytes o m k r') :
    r.numColumns = r'.numColumns := by
  rw [FileReader.numColumns, FileReader.numColumns, leaves, leaves, h.metadata, h'.metadata]

theorem chunk_eq (h : Reads bytes o m k r) (h' : Reads bytes o m k r') :
    r.chunk = r'.chunk := by
  funext g column
  rw [FileReader.chunk, FileReader.chunk, leaves, leaves, h.metadata, h'.metadata]

/-- the column reader is bound in the same way, whatever it was bound to -/
theorem prepareColumn_answer (h : Reads bytes o m k r) (h' : Reads bytes o m k r')
    (column : Nat) :
    (FileReader.prepareColumn column r).1 = (FileReader.prepareColumn column r').1 := by
  rw [FileReader.prepareColumn, state_bind, state_bind, h.inRowGroup_eq h', h.numColumns_eq h',
    h.chunk_eq h']
  rcases r'.inRowGroup with x | ⟨i, g⟩
  · rfl
  rw [bind_ok (liftM_ok rfl r), bind_ok (liftM_ok rfl r')]
  dsimp only
  split
  · rfl
  rcases r'.chunk g column with x | ⟨leaf, chunk⟩
  · rfl
  rw [bind_ok (ofExcept_ok rfl r), bind_ok (ofExcept_ok rfl r')]
  dsimp only
  have hbuffer := h.column.buffer.trans h'.column.buffer.symm
  have hoptions := h.column.options.trans h'.column.options.symm
  rw [on_apply, on_apply, within_congr (ColumnReader.prepare_renewed column leaf chunk r.column),
    within_congr (ColumnReader.prepare_renewed column leaf chunk r'.column), hbuffer, hoptions]

/-- the delta reader is bound in the same way, whatever it was bound to -/
theorem prepareDelta_answer (h : Reads bytes o m k r) (h' : Reads bytes o m k r') :
    (FileReader.prepareDelta r).1 = (FileReader.prepareDelta r').1 := by
  rw [FileReader.prepareDelta, state_bind, state_bind, h.inRowGroup_eq h', h.numColumns_eq h',
    h.chunk_eq h']
  rcases r'.inRowGroup with x | ⟨i, g⟩
  · rfl
  rw [bind_ok (liftM_ok rfl r), bind_ok (liftM_ok rfl r')]
  dsimp only
  split
  · rfl
  rcases r'.chunk g (r'.numColumns - 1) with x | ⟨leaf, chunk⟩
  · rfl
  rw [bind_ok (ofExcept_ok rfl r), bind_ok (ofExcept_ok rfl r')]
  dsimp only
  have hbuffer := h.delta.buffer.trans h'.delta.buffer.symm
  have hoptions := h.delta.options.trans h'.delta.options.symm
  rw [on_apply, on_apply, within_congr (DeltaReader.prepare_renewed _ leaf chunk r.delta),
    within_congr (DeltaReader.prepare_renewed _ leaf chunk r'.delta), hbuffer, hoptions]

end Reads

/-! ## any calls -/

/-- a file that was opened is read from its front -/
theorem reads_prepare {p q : Pools} (h : prepare bytes o p = (.ok r, q)) :
    Reads bytes o r.metadata 0 r := by
  obtain ⟨m, slots, -, -, -, rfl⟩ := prepare_eq_ok.mp h
  exact ⟨rfl, rfl, ⟨rfl, rfl⟩, ⟨rfl, rfl⟩, rfl⟩

theorem turns_replicate (n : Nat) : turns (List.replicate n .nextRowGroup) = n := by
  rw [turns, List.countP_replicate]
  rfl

theorem lt_of_chunk {g : RowGroup} {column : Nat} {leaf : SchemaElement} {chunk : ColumnChunk}
    (h : r.chunk g column = .ok (leaf, chunk)) : column < r.numColumns := by
  unfold FileReader.chunk at h
  split at h
  · rename_i hleaf _
    exact (List.getElem?_eq_some_iff.mp hleaf).1
  · cases h

/-- a reader that calls were made of answers like a new one that has come to the same row group.
Once a column is bound, all that is seen of its reader and all that is read of it is what a new
reader of the column shows, and that depends on the bytes of its chunk alone -/
theorem rebinds {p q : Pools} {r₀ : FileReader} (h : prepare bytes o p = (.ok r₀, q))
    (calls : List Call) :
    let r := r₀.run calls
    let new := r₀.run (List.replicate (turns calls) .nextRowGroup)
    (∀ column, (prepareColumn column r).1 = (prepareColumn column new).1) ∧
    (prepareDelta r).1 = (prepareDelta new).1 ∧
    ∀ i g column leaf chunk buffer, r.inRowGroup = .ok (i, g) →
      r.chunk g column = .ok (leaf, chunk) → SameChunk column leaf chunk bytes buffer →
      Alike ColumnReader.seen ColumnReader.read
        (Prod.map id FileReader.column (prepareColumn column r))
        ((ColumnReader.prepare column leaf chunk).within (.readingRowGroup i)
          (.ofBuffer buffer o)) ∧
      (r.numColumns = column + 1 → Alike DeltaReader.seen DeltaReader.read
        (Prod.map id FileReader.delta (prepareDelta r))
        ((DeltaReader.prepare column leaf chunk).within (.readingRowGroup i)
          (.ofBuffer buffer o))) := by
  intro r new
  have hr : Reads bytes o r₀.metadata (0 + turns calls) r := (reads_prepare h).calls calls
  have hnew : Reads bytes o r₀.metadata (0 + turns calls) new := by
    have hcalls := (reads_prepare h).calls (List.replicate (turns calls) .nextRowGroup)
    rwa [turns_replicate] at hcalls
  refine ⟨hr.prepareColumn_answer hnew, hr.prepareDelta_answer hnew,
    fun i g column leaf chunk buffer hgroup hchunk hsame => ⟨?_, fun hlast => ?_⟩⟩
  · rw [prepareColumn_apply hgroup (lt_of_chunk hchunk) hchunk]
    rw [← hr.column.buffer] at hsame
    have halike := ColumnReader.prepare_alike (.readingRowGroup i) hsame
    rwa [hr.column.options] at halike
  · rw [prepareDelta_apply hgroup hlast hchunk]
    rw [← hr.delta.buffer] at hsame
    have halike := DeltaReader.prepare_alike (.readingRowGroup i) hsame
    rwa [hr.delta.options] at halike

/-- the chunk of the first column of `twoColumns` -/
def firstChunk : ColumnChunk where
  filePath := none
  fileOffset := 0
  metaData := some {
    physicalType := .int32
    encodings := [.rle, .plain]
    pathInSchema := ["n"]
    codec := .uncompressed
    numValues := 2
    totalUncompressedSize := 27
    totalCompressedSize := 27
    keyValueMetadata := none
    dataPageOffset := 4
    indexPageOffset := none
    dictionaryPageOffset := none
    statistics := none }

/-- the chunk of the delta column of `twoColumns` -/
def secondChunk : ColumnChunk :=
  { firstChunk with metaData := firstChunk.metaData.map fun m => { m with
      physicalType := .byteArray
      encodings := [.plain]
      pathInSchema := ["d"]
      numValues := 1
      totalUncompressedSize := 26
      totalCompressedSize := 26
      dataPageOffset := 31
      dictionaryPageOffset := some 31 } }

/-- the row group of `twoColumns` and its chunks -/
theorem chunks_twoColumns {gs : Written (List RowGroup)}
    (h : twoColumns.groups defaultMagic.length 0 twoColumns.rowGroups = .ok gs) :
    ∃ g, gs.record[0]? = some g ∧ g.columns = [firstChunk, secondChunk] := by
  have hchunks : (twoColumns.groups defaultMagic.length 0 twoColumns.rowGroups).map
      (fun gs => gs.record.map RowGroup.columns) = .ok [[firstChunk, secondChunk]] := by cbv
  rw [h] at hchunks
  obtain ⟨g, hg, hcolumns⟩ := List.map_eq_singleton_iff.mp (Except.ok.inj hchunks)
  refine ⟨g, ?_, hcolumns⟩
  rw [hg]
  rfl

/-- calls of a file of two columns; the first column that is asked for is not there -/
def mixedCalls : List Call :=
  [.nextRowGroup, .prepareColumn 7, .prepareDelta, .prepareColumn 0, .readColumn {}]

/-- the columns of a file of two are bound behind other calls, one of them refused, as new readers
bind them in buffers that hold one chunk and nothing else of the file -/
theorem rebinds_twoColumns : ∃ bytes r₀ p', twoColumns.finish = .ok bytes ∧
    prepare bytes {} fewPools = (.ok r₀, p') ∧
    let r := r₀.run mixedCalls
    Alike ColumnReader.seen ColumnReader.read
      (Prod.map id FileReader.column (prepareColumn 0 r))
      ((ColumnReader.prepare 0 (.optional "n" .int32) firstChunk).within (.readingRowGroup 0)
        (.ofBuffer (List.replicate 4 0 ++ (bytes.drop 4).take 27) {})) ∧
    Alike DeltaReader.seen DeltaReader.read
      (Prod.map id FileReader.delta (prepareDelta r))
      ((DeltaReader.prepare 1 (.optional "d" .byteArray) secondChunk).within (.readingRowGroup 0)
        (.ofBuffer (List.replicate 31 0 ++ (bytes.drop 31).take 26) {})) := by
  obtain ⟨bytes, hfinish, hsame, hsame'⟩ : ∃ bytes, twoColumns.finish = .ok bytes ∧
      SameChunk 0 (.optional "n" .int32) firstChunk bytes
        (List.replicate 4 0 ++ (bytes.drop 4).take 27) ∧
      SameChunk 1 (.optional "d" .byteArray) secondChunk bytes
        (List.replicate 31 0 ++ (bytes.drop 31).take 26) := by
    refine ⟨_, finish_twoColumns,
      Or.inr ⟨⟨0, "n", .int32, none, 2, 4, 27, none⟩, ?_, ?_, ?_⟩,
      Or.inr ⟨⟨1, "d", .byteArray, none, 1, 31, 26, some 31⟩, ?_, ?_, ?_⟩⟩
    all_goals cbv
  obtain ⟨-, gs, behind, r₀, p', hgs, -, hprepare, hreads⟩ :=
    prepare_finish fits_twoColumns hfinish slots_twoColumns
  obtain ⟨g, hg, hcolumns⟩ := chunks_twoColumns hgs
  have hcalls := hreads.calls mixedCalls
  have hgroup := hcalls.inRowGroup hg
  have hall := (rebinds hprepare mixedCalls).2.2 0 g
  refine ⟨bytes, r₀, p', hfinish, hprepare, ?_, ?_⟩
  · have hchunk := hcalls.chunk (j := 0) rfl (show g.columns[0]? = some firstChunk by
      rw [hcolumns]; rfl)
    exact (hall 0 _ _ _ hgroup hchunk hsame).1
  · have hchunk := hcalls.chunk (j := 1) rfl (show g.columns[1]? = some secondChunk by
      rw [hcolumns]; rfl)
    exact (hall 1 _ _ _ hgroup hchunk hsame').2 hcalls.numColumns

end Columnar.FileReader
