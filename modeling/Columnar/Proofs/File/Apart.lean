import Columnar.Proofs.Column.Apart
import Columnar.Proofs.File.Disabled
import Columnar.Proofs.Record.Loosened

/-!
# A delta column is no column

Whatever options a file that was written is read under, once it is opened its metadata are what was
written: other limits may refuse metadata, but not change them.  A delta column that holds a value
is therefore found where it lies, and refused when it is bound as a column.

* `FileWriter.ShortFooter w`         the length of the footer fits its four bytes;
* `FileReader.prepare_written`       the metadata of a file that was opened are what was written;
* `FileReader.deltaColumn_refused`   a delta column is not read as a column.
-/

namespace Columnar

open Step

/-! ## metadata under any options -/

namespace FileWriter

variable {w : FileWriter} {o : Options}

/-- the length of the footer, which is stored in 32 bits, is what the footer takes -/
def ShortFooter (w : FileWriter) : Prop :=
  ∀ c, w.content = .ok c → ∀ bs len, FileMetaData.format.encode c.record = .ok (bs, len) →
    bs.length < 2 ^ 32

/-- what is in the metadata of a file -/
def InMetadata (w : FileWriter) (groups : List RowGroup) (s : Compact.Size) : Prop :=
  (Codec.record RecordKind.fileMetaData.format).Contains (w.metadata groups) s

theorem inMetadata_schema (groups : List RowGroup) :
    w.InMetadata groups (.list w.schema.length) :=
  .field (f := RecordKind.fileMetaData.format.fields[1]) (List.getElem_mem _) rfl
    (@Codec.Contains.records .schemaElement w.schema)

theorem inMetadata_rowGroups (groups : List RowGroup) :
    w.InMetadata groups (.list groups.length) :=
  .field (f := RecordKind.fileMetaData.format.fields[3]) (List.getElem_mem _) rfl
    (@Codec.Contains.records .rowGroup groups)

theorem inMetadata_name (groups : List RowGroup) {e : SchemaElement} (he : e ∈ w.schema) :
    w.InMetadata groups (.bytes (Utf8.encode e.name).length) := by
  have hname : (Codec.record RecordKind.schemaElement.format).Contains e
      (.bytes (Utf8.encode e.name).length) :=
    .field (f := RecordKind.schemaElement.format.fields[3]) (List.getElem_mem _) rfl
      (.string e.name)
  exact .field (f := RecordKind.fileMetaData.format.fields[1]) (List.getElem_mem _) rfl
    (@Codec.Contains.mem_records .schemaElement _ _ _ he hname)

theorem inMetadata_createdBy (groups : List RowGroup) {t : String} (ht : w.createdBy = some t) :
    w.InMetadata groups (.bytes (Utf8.encode t).length) :=
  .field (f := RecordKind.fileMetaData.format.fields[5]) (List.getElem_mem _) ht (.string t)

/-- nothing in metadata is larger than their bytes, so limits of 32 bits are loose enough -/
theorem limited_of_encode (hstring : 2 ^ 32 ≤ o.stringLimit) (hcontainer : 2 ^ 32 ≤ o.containerLimit)
    {start : Nat} {gs : Written (List RowGroup)} (hgs : w.groups start 0 w.rowGroups = .ok gs)
    {footer : Bytes} {len : Nat} (hlen : footer.length < 2 ^ 32)
    (h : FileMetaData.format.encode (w.metadata gs.record) = .ok (footer, len)) : w.Limited o := by
  have hamount {s : Compact.Size} (hs : w.InMetadata gs.record s) : s.amount < 2 ^ 32 :=
    Nat.lt_of_le_of_lt (Codec.Contains.le_length hs h) hlen
  have htext {t : String} (hs : w.InMetadata gs.record (.bytes (Utf8.encode t).length)) :
      TextFits o t := by
    have hlt : (Utf8.encode t).length < 2 ^ 32 := hamount hs
    exact ⟨by omega, Nat.le_trans (Nat.le_of_lt hlt) (by decide)⟩
  have hlist {n : Nat} (hs : w.InMetadata gs.record (.list n)) (kind : RecordKind) :
      FitsList o n kind.room := by
    have hlt : n < 2 ^ 32 := hamount hs
    refine ⟨Or.inr (by omega), Nat.le_trans (Nat.mul_le_mul_right _ (Nat.le_of_lt hlt)) ?_⟩
    cases kind <;> decide
  have hname {e : SchemaElement} (he : e ∈ w.schema) : TextFits o e.name :=
    htext (inMetadata_name gs.record he)
  have hgroups : gs.record.length = w.rowGroups.length := (groups_laysOut _ hgs).length
  exact
    { name := fun spec hspec => hname (List.mem_cons_of_mem _ (List.mem_map_of_mem hspec))
      createdBy := fun t ht => htext (inMetadata_createdBy gs.record ht)
      schema := hlist (inMetadata_schema gs.record)
      rowGroups := hgroups ▸ hlist (inMetadata_rowGroups gs.record)
      root := hname List.mem_cons_self }

end FileWriter

namespace FileReader

variable {w : FileWriter} {bytes : Bytes} {o : Options} {p q : Pools} {r r₀ : FileReader}

/-- the metadata of a file that was opened are what was written, whatever the options are -/
theorem prepare_written (h : w.finish = .ok bytes) (hfooter : w.ShortFooter)
    (hopen : prepare bytes o p = (.ok r, q)) : ∃ gs behind,
      w.groups defaultMagic.length 0 w.rowGroups = .ok gs ∧
      bytes = defaultMagic ++ gs.bytes ++ behind ∧ r.metadata = w.metadata gs.record := by
  obtain ⟨-, gs, footer, hgs, hcontent, hencode, hbytes⟩ := FileWriter.finish_eq_ok h
  have hlen := hfooter _ hcontent _ _ hencode
  obtain ⟨m, slots, hread, -, -, rfl⟩ := prepare_eq_ok.mp hopen
  rw [hbytes] at hread
  obtain ⟨n, hdecode⟩ := Footer.decode_of_read hlen hread
  -- under limits that are loose enough, the same metadata are decoded as under those of `o`
  let o' : Options := { o with
    stringLimit := max o.stringLimit (2 ^ 32), containerLimit := max o.containerLimit (2 ^ 32) }
  have hloose : FileMetaData.format.decode o' footer = .ok (m, n) :=
    Format.decode_loosened FileMetaData.shape.built hdecode (Nat.le_max_left _ _)
      (Nat.le_max_left _ _)
  have hlimited : w.Limited o' := FileWriter.limited_of_encode (Nat.le_max_right _ _)
    (Nat.le_max_right _ _) hgs hlen hencode
  rw [FileWriter.decode_metadata hlimited hgs hencode] at hloose
  cases hloose
  refine ⟨gs, footer ++ toLE 4 footer.length ++ defaultMagic, hgs, ?_, rfl⟩
  rw [hbytes]
  simp only [List.append_assoc]

/-! ## a reader that is not ready -/

/-- a column reader is made ready by no call but the one that prepares it -/
theorem unprepared_call (h : r.column.progress = .uninitialized) {c : Call}
    (hc : ∀ column, c ≠ .prepareColumn column) : (c.run r).column.progress = .uninitialized := by
  cases c with
  | nextRowGroup =>
    show (FileReader.nextRowGroup r).2.column.progress = _
    rw [nextRowGroup_column]
    exact h
  | prepareColumn column => exact absurd rfl (hc column)
  | prepareDelta =>
    show (FileReader.prepareDelta r).2.column.progress = _
    rw [(prepareDelta_column r.column r rfl).1]
    exact h
  | readColumn into =>
    show (ColumnReader.read (r.column, into)).2.1.progress = _
    rw [ColumnReader.read_unprepared h]
    exact h
  | readDelta into => exact h

/-- until a column is prepared, none can be read -/
theorem unprepared_run (h : r.column.progress = .uninitialized) {calls : List Call}
    (hcalls : ∀ column, .prepareColumn column ∉ calls) (into : Batch) :
    readColumn (r.run calls, into) =
      (.error (.misuse .columnNotPrepared), (r.run calls, into)) := by
  induction calls generalizing r with
  | nil =>
    show readColumn (r, into) = (_, (r, into))
    rw [readColumn, on_apply]
    dsimp only
    rw [ColumnReader.read_unprepared h]
  | cons c cs ih =>
    refine ih (unprepared_call h fun column hc => hcalls column ?_) fun column hmem =>
      hcalls column (List.mem_cons_of_mem c hmem)
    rw [hc]
    exact List.mem_cons_self

/-! ## delta columns -/

/-- Whatever options a file that was written is read under, and whatever was called of its reader: a
delta column that holds a value is refused when it is prepared as a column.  What stands in it is
not given as values of a column, since nothing is until a column is prepared.  The footer is to be
as long as the file says, or what is read as metadata may be anything. -/
theorem deltaColumn_refused (h : w.finish = .ok bytes) (hfooter : w.ShortFooter)
    (hroom : bytes.length < 2 ^ 63) (hopen : prepare bytes o p = (.ok r₀, q)) {name : String}
    (hdelta : w.delta = some name) {calls : List Call} {i : Nat} {columns : List ColumnValues}
    (hturns : turns calls = i + 1) (hi : w.rowGroups[i]? = some columns)
    {slots : List (Option Bytes)}
    (hslots : columns[w.columns.length]? = some (.byteArray slots)) {value : Bytes}
    (hvalue : some value ∈ slots) :
    ∃ x r, prepareColumn w.columns.length (r₀.run calls) =
        (.error (.error ((x.within (.preparingColumn w.columns.length)).within
          (.readingRowGroup i))), r) ∧
      ColumnReader.Refuses (slots.countP Option.isSome) o.dictionary x ∧
      ∀ more : List Call, (∀ column, .prepareColumn column ∉ more) → ∀ into,
        readColumn (r.run more, into) =
          (.error (.misuse .columnNotPrepared), (r.run more, into)) := by
  obtain ⟨gs, behind, hgs, hbytes, hmetadata⟩ := prepare_written h hfooter hopen
  have hcalls : Reads bytes o (w.metadata gs.record) (i + 1) (r₀.run calls) := by
    have hreads := (hmetadata ▸ reads_prepare hopen).calls calls
    rwa [Nat.zero_add, hturns] at hreads
  obtain ⟨g, spec, slots', c, front, behind, hg, hspec, htype, hvalues, hchunk, hlies, hc⟩ :=
    exists_deltaChunk hdelta hgs hbytes hi
  obtain rfl : slots = slots' :=
    ColumnValues.byteArray.inj (Option.some.inj (hslots.symm.trans hvalues))
  have hcount : 0 < slots.countP Option.isSome := List.countP_pos_iff.mpr ⟨_, hvalue, rfl⟩
  have hbuffer : (r₀.run calls).column.buffer = front ++ c.bytes ++ behind :=
    hcalls.column.buffer.trans hlies
  obtain ⟨x, t, hprepare, hrefuses, hprogress⟩ := ColumnReader.prepare_deltaChunk
    w.columns.length htype hc hbuffer (hcalls.column.buffer ▸ hroom) hcount
  rw [hcalls.column.options] at hrefuses
  have hfound := hcalls.chunk hspec hchunk
  refine ⟨x, { r₀.run calls with column := t }, ?_, hrefuses,
    fun more hmore into => unprepared_run hprogress hmore into⟩
  rw [prepareColumn_apply (hcalls.inRowGroup hg) (lt_of_chunk hfound) hfound, on_apply,
    within_error hprepare]
  rfl

/-- the value `a` of a delta column behind an empty run: one entry of three is counted, and the
three take 13 bytes -/
theorem deltaColumn_refused_twoColumns : ∃ bytes r₀ p' x r, twoColumns.finish = .ok bytes ∧
    prepare bytes {} fewPools = (.ok r₀, p') ∧
    prepareColumn 1 (r₀.run [.nextRowGroup]) = (.error (.error ((Error.within (.preparingColumn 1)
      x).within (.readingRowGroup 0))), r) ∧
    ColumnReader.Refuses 1 true x ∧
    readColumn (r.run [.nextRowGroup, .readDelta {}], {}) =
      (.error (.misuse .columnNotPrepared), (r.run [.nextRowGroup, .readDelta {}], {})) := by
  obtain ⟨-, gs, behind, r₀, p', -, -, hopen, -⟩ :=
    prepare_finish fits_twoColumns finish_twoColumns slots_twoColumns
  have hturns : turns [.nextRowGroup] = 0 + 1 := rfl
  have hslots : ([.int32 [some 7, none], .byteArray [none, some [97]]] : List ColumnValues)[1]? =
    some (.byteArray [none, some [97]]) := rfl
  obtain ⟨x, r, hrefused, hrefuses, hmore⟩ := deltaColumn_refused finish_twoColumns
    fits_twoColumns.footer (fits_twoColumns.bytes _ finish_twoColumns) hopen rfl hturns rfl hslots
    (List.mem_cons_of_mem _ List.mem_cons_self)
  exact ⟨_, r₀, p', x, r, finish_twoColumns, hopen, hrefused, hrefuses,
    hmore [.nextRowGroup, .readDelta {}] (by simp) {}⟩

end FileReader

end Columnar
