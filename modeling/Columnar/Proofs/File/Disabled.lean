import Columnar.Proofs.Column.Disabled
import Columnar.Proofs.File.Rebinding

/-!
# A file that is read without dictionaries

Where dictionaries are disabled, whatever was called of a reader of a file, a chunk that has slots
and bytes and declares a dictionary page is refused, and an ordinary column gives no value of such
a page.  A chunk that is empty is not refused, and a delta column is read as it is where
dictionaries are allowed, its values from the dictionary page that its chunk declares.

* `FileReader.Twins d r r'`   two readers of a file, of which the second is told `d` of
                              dictionaries;
* `FileReader.dictionary_disabled`   what is refused, and what is not.
-/

namespace Columnar

open Step

namespace Binding

theorem natural_ok {which : ChunkNumber} {n : Int64} {m : Nat} (h : natural which n = .ok m) :
    n.toInt = m := by
  unfold natural at h
  split at h
  · cases h
  · rename_i hge
    cases h
    rw [Int64.lt_iff_toInt_lt, Int64.toInt_zero] at hge
    omega

theorem checkChunk_ok {chunk : ColumnChunk} {m : ColumnMetaData} (h : checkChunk chunk = .ok m) :
    chunk.metaData = some m := by
  unfold checkChunk at h
  split at h
  · cases h
  split at h
  · cases h
  split at h
  · cases h
  split at h
  · cases h
  split at h
  · cases h
  · cases h
    assumption

/-- what a chunk that was bound says of its slots, its bytes and its dictionary page -/
theorem ofChunk_declares {column size : Nat} {schema : SchemaElement} {chunk : ColumnChunk}
    {b : Binding} {m : ColumnMetaData} (h : ofChunk column schema chunk size = .ok b)
    (hm : chunk.metaData = some m) : m.numValues.toInt = b.numValues ∧
      m.totalCompressedSize.toInt = b.size ∧
      b.dictionaryOffset.isSome = m.dictionaryPageOffset.isSome := by
  obtain ⟨m', hcheck, h₁⟩ := Except.bind_eq_ok.mp h
  obtain rfl : m' = m := Option.some.inj ((checkChunk_ok hcheck).symm.trans hm)
  obtain ⟨t, -, h₂⟩ := Except.bind_eq_ok.mp h₁
  obtain ⟨length, -, h₃⟩ := Except.bind_eq_ok.mp h₂
  obtain ⟨numValues, hvalues, h₄⟩ := Except.bind_eq_ok.mp h₃
  obtain ⟨chunkSize, hsize, h₅⟩ := Except.bind_eq_ok.mp h₄
  obtain ⟨offset, hoffset, h₆⟩ := Except.bind_eq_ok.mp h₅
  obtain ⟨start, -, h₇⟩ := Except.bind_eq_ok.mp h₆
  split at h₇
  · cases h₇
  · cases h₇
    refine ⟨natural_ok hvalues, natural_ok hsize, ?_⟩
    show offset.isSome = _
    cases hdeclared : m'.dictionaryPageOffset with
    | none =>
      rw [hdeclared] at hoffset
      cases hoffset
      rfl
    | some n =>
      rw [hdeclared] at hoffset
      obtain ⟨k, -, hk⟩ := Except.bind_eq_ok.mp hoffset
      cases hk
      rfl

end Binding

namespace FileReader

variable {bytes : Bytes} {o : Options} {p q : Pools} {d : Bool} {r r' : FileReader}

/-! ## two readers of a file -/

/-- two readers of a file that are alike but for their column readers, and for what the second
delta reader is told of dictionaries -/
structure Twins (d : Bool) (r r' : FileReader) : Prop where
  metadata : r'.metadata = r.metadata
  rowGroup : r'.rowGroup = r.rowGroup
  delta : r'.delta = r.delta.allowing d

/-- a file is opened whether dictionaries are allowed or not -/
theorem prepare_allowing (h : prepare bytes o p = (.ok r, q)) (d : Bool) : ∃ r',
    prepare bytes { o with dictionary := d } p = (.ok r', q) ∧ Twins d r r' := by
  obtain ⟨m, slots, hread, hvalid, hslots, rfl⟩ := prepare_eq_ok.mp h
  exact ⟨_, prepare_eq_ok.mpr ⟨m, slots, hread, hvalid, hslots, rfl⟩, rfl, rfl, rfl⟩

/-- what was bound is a column reader, if anything was -/
theorem prepareColumn_frame (column : Nat) (r : FileReader) :
    ∃ c, (FileReader.prepareColumn column r).2 = { r with column := c } ∧
      (c = r.column ∨ ∃ leaf chunk, c = (ColumnReader.prepare column leaf chunk r.column).2) := by
  rw [FileReader.prepareColumn, state_bind]
  rcases r.inRowGroup with x | ⟨i, g⟩
  · exact ⟨r.column, rfl, Or.inl rfl⟩
  rw [bind_ok (liftM_ok rfl r)]
  dsimp only
  split
  · exact ⟨r.column, rfl, Or.inl rfl⟩
  rcases r.chunk g column with x | ⟨leaf, chunk⟩
  · exact ⟨r.column, rfl, Or.inl rfl⟩
  rw [bind_ok (ofExcept_ok rfl r)]
  exact ⟨_, rfl, Or.inr ⟨leaf, chunk, within_snd _ _ _⟩⟩

namespace Twins

theorem nextRowGroup (h : Twins d r r') :
    Twins d (FileReader.nextRowGroup r).2 (FileReader.nextRowGroup r').2 := by
  have hnext : r'.next = r.next := by
    rw [next, next, h.rowGroup]
  have hcount : r'.numRowGroups = r.numRowGroups := by
    rw [numRowGroups, numRowGroups, h.metadata]
  rw [FileReader.nextRowGroup, state_bind, state_bind, hnext, hcount]
  split
  · exact ⟨h.metadata, rfl, h.delta⟩
  · exact ⟨h.metadata, rfl, h.delta⟩

theorem prepareColumn (h : Twins d r r') (column : Nat) :
    Twins d (FileReader.prepareColumn column r).2 (FileReader.prepareColumn column r').2 := by
  obtain ⟨c, hc, -⟩ := prepareColumn_frame column r
  obtain ⟨c', hc', -⟩ := prepareColumn_frame column r'
  rw [hc, hc']
  exact ⟨h.metadata, h.rowGroup, h.delta⟩

/-- the delta reader is bound in the same way -/
theorem prepareDelta (h : Twins d r r') :
    (FileReader.prepareDelta r').1 = (FileReader.prepareDelta r).1 ∧
      Twins d (FileReader.prepareDelta r).2 (FileReader.prepareDelta r').2 := by
  have hgroup : r'.inRowGroup = r.inRowGroup := by
    rw [FileReader.inRowGroup, FileReader.inRowGroup, h.rowGroup, h.metadata]
  have hcount : r'.numColumns = r.numColumns := by
    rw [FileReader.numColumns, FileReader.numColumns, leaves, leaves, h.metadata]
  have hchunk : r'.chunk = r.chunk := by
    funext g column
    rw [FileReader.chunk, FileReader.chunk, leaves, leaves, h.metadata]
  rw [FileReader.prepareDelta, state_bind, state_bind, hgroup, hcount, hchunk]
  rcases r.inRowGroup with x | ⟨i, g⟩
  · exact ⟨rfl, h⟩
  rw [bind_ok (liftM_ok rfl r), bind_ok (liftM_ok rfl r')]
  dsimp only
  split
  · exact ⟨rfl, h⟩
  rcases r.chunk g (r.numColumns - 1) with x | ⟨leaf, chunk⟩
  · exact ⟨rfl, h⟩
  rw [bind_ok (ofExcept_ok rfl r), bind_ok (ofExcept_ok rfl r')]
  dsimp only
  have hdelta := mirrors_within (c := .readingRowGroup i)
    (DeltaReader.prepare_allowing (d := d) (r.numColumns - 1) leaf chunk) r.delta
  rw [on_apply, on_apply, h.delta, hdelta]
  exact ⟨rfl, h.metadata, h.rowGroup, rfl⟩

/-- the delta column is read in the same way -/
theorem readDelta (h : Twins d r r') (into : Batch) :
    (FileReader.readDelta (r', into)).1 = (FileReader.readDelta (r, into)).1 ∧
      (FileReader.readDelta (r', into)).2.2 = (FileReader.readDelta (r, into)).2.2 ∧
      Twins d (FileReader.readDelta (r, into)).2.1 (FileReader.readDelta (r', into)).2.1 := by
  have hread := DeltaReader.read_allowing (d := d) (r.delta, into)
  rw [show Prod.map (DeltaReader.allowing d) id (r.delta, into) = (r'.delta, into) by
    rw [h.delta]; rfl] at hread
  rw [FileReader.readDelta, on_apply, on_apply, hread]
  exact ⟨rfl, rfl, h.metadata, h.rowGroup, rfl⟩

/-- one call -/
theorem call (h : Twins d r r') (c : Call) : Twins d (c.run r) (c.run r') := by
  cases c with
  | nextRowGroup => exact h.nextRowGroup
  | prepareColumn column => exact h.prepareColumn column
  | prepareDelta => exact h.prepareDelta.2
  | readColumn into => exact ⟨h.metadata, h.rowGroup, h.delta⟩
  | readDelta into => exact (h.readDelta into).2.2

/-- any calls -/
theorem calls (h : Twins d r r') (cs : List Call) : Twins d (r.run cs) (r'.run cs) := by
  induction cs generalizing r r' with
  | nil => exact h
  | cons c cs ih => exact ih (h.call c)

end Twins

/-! ## the column reader -/

theorem nextRowGroup_column (r : FileReader) : (FileReader.nextRowGroup r).2.column = r.column := by
  rw [FileReader.nextRowGroup, state_bind]
  split <;> rfl

theorem prepareDelta_column (c : ColumnReader) :
    Maintains (fun r : FileReader => r.column = c) Any FileReader.prepareDelta := by
  refine maintains_bind maintains_state fun r _ => ?_
  refine maintains_bind (P := Any) (maintains_lift fun _ _ => trivial) fun (i, g) _ => ?_
  dsimp only
  split
  · exact maintains_fail _
  refine maintains_bind (P := Any) (maintains_ofExcept fun _ _ => trivial) fun (leaf, chunk) _ => ?_
  exact maintains_on fun _ _ h => h

/-- one call leaves nothing of a dictionary page with the column reader -/
theorem call_direct (ho : r.column.options.dictionary = false) (hr : r.column.Direct) (c : Call) :
    (c.run r).column.Direct := by
  cases c with
  | nextRowGroup =>
    show (FileReader.nextRowGroup r).2.column.Direct
    rw [nextRowGroup_column]
    exact hr
  | prepareColumn column =>
    obtain ⟨c, hc, rfl | ⟨leaf, chunk, rfl⟩⟩ := prepareColumn_frame column r
    · show (FileReader.prepareColumn column r).2.column.Direct
      rw [hc]
      exact hr
    · show (FileReader.prepareColumn column r).2.column.Direct
      rw [hc]
      exact ColumnReader.prepare_direct ho column leaf chunk
  | prepareDelta =>
    show (FileReader.prepareDelta r).2.column.Direct
    rw [(prepareDelta_column r.column r rfl).1]
    exact hr
  | readColumn into => exact ColumnReader.read_direct ho hr into
  | readDelta into => exact hr

/-- the column reader of a file holds nothing of a dictionary page, whatever is called -/
theorem run_direct (ho : o.dictionary = false) {m : FileMetaData} {k : Nat}
    (h : Reads bytes o m k r) (hr : r.column.Direct) (calls : List Call) :
    (r.run calls).column.Direct := by
  induction calls generalizing k r with
  | nil => exact hr
  | cons c cs ih => exact ih (h.call c) (call_direct (h.column.options ▸ ho) hr c)

/-- the error that a chunk with a dictionary page is refused with -/
def dictionaryError (group column : Nat) : Error :=
  ((Fault.dictionaryDisabled : Error).within (.preparingColumn column)).within
    (.readingRowGroup group)

/-- where dictionaries are disabled, a chunk that has slots and bytes and declares a dictionary page
is refused as unsupported, whatever was called before, and one that has none of either is bound.
At no time does the column reader hold anything of such a page, and from a chunk that declares one
it gives nothing.  The delta column is bound and read as it is where dictionaries are allowed -/
theorem dictionary_disabled {r₀ : FileReader} (ho : o.dictionary = false)
    (h : prepare bytes o p = (.ok r₀, q)) (calls : List Call) :
    let r := r₀.run calls
    (∀ i g column leaf chunk m b, r.inRowGroup = .ok (i, g) →
      r.chunk g column = .ok (leaf, chunk) → chunk.metaData = some m →
      Binding.ofChunk column leaf chunk bytes.length = .ok b →
      m.dictionaryPageOffset.isSome →
      (0 < m.numValues.toInt → 0 < m.totalCompressedSize.toInt →
        ∃ r', prepareColumn column r = (.error (.error (dictionaryError i column)), r') ∧
          (dictionaryError i column).kind = .unsupported ∧
          r'.column.progress = .uninitialized) ∧
      (m.numValues.toInt = 0 ∨ m.totalCompressedSize.toInt = 0 →
        ∃ r', prepareColumn column r = (.ok (), r'))) ∧
    r.column.Direct ∧
    (∀ b ∈ r.column.binding, b.dictionaryOffset.isSome → ∀ into,
      (readColumn (r, into)).1 = .error (.misuse .columnNotPrepared) ∨
      (readColumn (r, into)).1 = .ok 0 ∧ (readColumn (r, into)).2.2 = {}) ∧
    ∃ r₁, prepare bytes { o with dictionary := true } p = (.ok r₁, q) ∧
      (prepareDelta (r₁.run calls)).1 = (prepareDelta r).1 ∧
      ∀ into, (readDelta (r₁.run calls, into)).1 = (readDelta (r, into)).1 ∧
        (readDelta (r₁.run calls, into)).2.2 = (readDelta (r, into)).2.2 := by
  intro r
  have hr : Reads bytes o r₀.metadata (0 + turns calls) r := (reads_prepare h).calls calls
  have hdirect : r.column.Direct := by
    refine run_direct ho (reads_prepare h) ?_ calls
    obtain ⟨m, slots, -, -, -, rfl⟩ := prepare_eq_ok.mp h
    exact ColumnReader.direct_ofBuffer bytes o
  obtain ⟨r₁, hopen, htwins⟩ := prepare_allowing h true
  have hcalls := htwins.calls calls
  refine ⟨fun i g column leaf chunk m b hgroup hchunk hm hb hdeclared => ?_, hdirect,
    fun b hb hdeclared into => ColumnReader.read_declared hdirect hb hdeclared into,
    r₁, hopen, hcalls.prepareDelta.1,
    fun into => ⟨(hcalls.readDelta into).1, (hcalls.readDelta into).2.1⟩⟩
  obtain ⟨hnum, hlen, hoffset⟩ := Binding.ofChunk_declares hb hm
  have hbind : Binding.ofChunk column leaf chunk r.column.buffer.length = .ok b := by
    rw [hr.column.buffer]
    exact hb
  rw [prepareColumn_apply hgroup (lt_of_chunk hchunk) hchunk, on_apply]
  constructor
  · intro hvalues hsize
    have hprepare := ColumnReader.prepare_disabled (hr.column.options ▸ ho) hbind
      (hoffset.trans hdeclared) (by omega) (by omega)
    refine ⟨{ r with column := r.column.atChunk b }, ?_, rfl, rfl⟩
    rw [within_error hprepare]
    rfl
  · intro hempty
    obtain ⟨c, hprepare, -⟩ := ColumnReader.prepare_empty hbind (by omega)
    exact ⟨{ r with column := c }, by rw [within_ok hprepare]⟩

/-- the second column of a file of two declares a dictionary page, and is refused -/
theorem dictionary_disabled_twoColumns : ∃ bytes r₀ p' r', twoColumns.finish = .ok bytes ∧
    prepare bytes { dictionary := false } fewPools = (.ok r₀, p') ∧
    prepareColumn 1 (r₀.run [.nextRowGroup]) = (.error (.error (dictionaryError 0 1)), r') := by
  obtain ⟨bytes, hfinish, hbind⟩ : ∃ bytes, twoColumns.finish = .ok bytes ∧
      Binding.ofChunk 1 (.optional "d" .byteArray) secondChunk bytes.length =
        .ok ⟨1, "d", .byteArray, none, 1, 31, 26, some 31⟩ := ⟨_, finish_twoColumns, by cbv⟩
  obtain ⟨-, gs, behind, r₁, p', hgs, -, hprepare, hreads⟩ :=
    prepare_finish fits_twoColumns hfinish slots_twoColumns
  obtain ⟨r₀, hopen, htwins⟩ := prepare_allowing hprepare false
  have hopened := reads_prepare hopen
  rw [htwins.metadata, hreads.metadata] at hopened
  have hcalls := hopened.calls [.nextRowGroup]
  obtain ⟨g, hg, hcolumns⟩ := chunks_twoColumns hgs
  have hchunk := hcalls.chunk (j := 1) rfl (show g.columns[1]? = some secondChunk by
    rw [hcolumns]; rfl)
  obtain ⟨hrefuses, -⟩ := (dictionary_disabled rfl hopen [.nextRowGroup]).1 0 g 1 _ _ _ _
    (hcalls.inRowGroup hg) hchunk rfl hbind rfl
  obtain ⟨r', hrefused, -⟩ := hrefuses (by decide) (by decide)
  exact ⟨bytes, r₀, p', r', hfinish, hopen, hrefused⟩

/-- a column without slots, and a delta column of one value -/
def hollow : FileWriter :=
  { columns := [{ name := "n", type := .int32 }]
    delta := some "d"
    rowGroups := [[.int32 [], .byteArray [some [97]]]]
    dictionary := true
    statistics := false
    createdBy := none }

/-- the chunks of a row group that declare a dictionary page -/
def declaring (r : FileReader) : List Bool :=
  match r.current with
  | none => []
  | some g => g.columns.map fun c => (c.metaData.bind ColumnMetaData.dictionaryPageOffset).isSome

/-- what a call answers -/
def answered (x : Step FileReader Failure Unit) (r : FileReader) : Bool := (x r).1.isOk

/-- both columns declare a dictionary page, and neither is refused: the first has no slots, and
the second is read as a delta column -/
theorem not_dictionary_refused : (hollow.finish.map fun bytes =>
    (prepare bytes { dictionary := false } fewPools).1.map fun r₀ =>
      let r := r₀.run [.nextRowGroup]
      (declaring r, answered (prepareColumn 0) r, answered prepareDelta r,
        (readDelta (r.run [.prepareDelta], {})).2.2.values)) =
    .ok (.ok ([true, true], true, true, [.byteArray [1, 0, 0, 0, 97]])) := by
  cbv

end FileReader

end Columnar
