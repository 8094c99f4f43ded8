import Mathlib
import Columnar.Proofs.File.Calls
import Columnar.Proofs.File.Footer
import Columnar.Proofs.Pool

/-!
# A file that was written is read back

* `FileReader.prepare_finish`   a file that was written is opened;
* `FileReader.reads_columns`    every regular column of every row group yields what was written;
* `FileReader.reads_delta`      a delta column yields what is delivered of it, which may be less.
-/

namespace Columnar.FileReader

variable {w : FileWriter} {bytes : Bytes} {gs : Written (List RowGroup)} {r : FileReader}

/-! ## opening -/

/-- a file is opened where its metadata are read and valid, and there are slots for them -/
theorem prepare_eq_ok {o : Options} {p q : Pools} : prepare bytes o p = (.ok r, q) ↔ ∃ m slots,
    Footer.read bytes o = .ok m ∧ Footer.validate m = .ok () ∧
    Pools.acquireAll (Footer.kinds m) [] p = (.ok slots, q) ∧
    r = { buffer := bytes, metadata := m, slots
          column := .ofBuffer bytes o, delta := .ofBuffer bytes o } := by
  constructor
  · intro h
    obtain ⟨m, q₁, hread, h₁⟩ := Step.bind_eq_ok.mp h
    obtain ⟨⟨⟩, q₂, hvalid, h₂⟩ := Step.bind_eq_ok.mp h₁
    obtain ⟨slots, q₃, hslots, h₃⟩ := Step.bind_eq_ok.mp h₂
    obtain ⟨hm, rfl⟩ := Prod.mk.inj hread
    rcases hcheck : Footer.validate m with x | ⟨⟩
    · rw [hcheck] at hvalid
      cases hvalid
    · rw [hcheck] at hvalid
      cases hvalid
      cases h₃
      exact ⟨m, slots, hm, hcheck, Step.lift_eq_ok.mp hslots, rfl⟩
  · rintro ⟨m, slots, hread, hvalid, hslots, rfl⟩
    refine (Step.bind_ok (Step.ofExcept_ok hread p) _).trans ?_
    refine (Step.bind_ok (Step.liftM_ok hvalid p) _).trans ?_
    exact Step.bind_ok (Step.lift_ok hslots) _

/-- a file that was written is opened where there are slots for it -/
theorem prepare_finish (hw : w.Fits) (h : w.finish = .ok bytes) {p : Pools}
    (hp : ∀ kind, w.slots kind ≤ p.available kind) :
    0 < w.pageRows ∧ ∃ gs behind r p', w.groups defaultMagic.length 0 w.rowGroups = .ok gs ∧
      bytes = defaultMagic ++ gs.bytes ++ behind ∧ prepare bytes {} p = (.ok r, p') ∧
      Reads bytes {} (w.metadata gs.record) 0 r := by
  obtain ⟨hrows, gs, footer, hgs, hbytes, hread⟩ := FileWriter.finish_ok hw h
  obtain ⟨slots, p', hslots⟩ := Pools.acquireAll_ok (Footer.kinds (w.metadata gs.record)) []
    (p := p) fun kind => by
      rw [FileWriter.count_kinds hw hgs]
      exact hp kind
  refine ⟨hrows, gs, footer ++ toLE 4 footer.length ++ defaultMagic, _, p', hgs, ?_,
    prepare_eq_ok.mpr ⟨_, slots, hread, FileWriter.validate_metadata hw hgs, hslots, rfl⟩,
    ⟨rfl, rfl, ⟨rfl, rfl⟩, ⟨rfl, rfl⟩, rfl⟩⟩
  rw [hbytes]
  simp only [List.append_assoc]

theorem Reads.numRowGroups {k : Nat} {o : Options} (h : Reads bytes o (w.metadata gs.record) k r)
    {start : Nat} (hgs : w.groups start 0 w.rowGroups = .ok gs) :
    r.numRowGroups = w.rowGroups.length := by
  rw [FileReader.numRowGroups, h.metadata]
  exact (FileWriter.groups_laysOut _ hgs).length

theorem Reads.numColumns {k : Nat} {o : Options} (h : Reads bytes o (w.metadata gs.record) k r) :
    r.numColumns = w.specs.length := by
  rw [FileReader.numColumns, leaves, h.metadata]
  exact List.length_map _

/-! ## chunks -/

/-- the row group that was come to -/
theorem Reads.inRowGroup {o : Options} {m : FileMetaData} {i : Nat} {g : RowGroup}
    (h : Reads bytes o m (i + 1) r) (hi : m.rowGroups[i]? = some g) :
    r.inRowGroup = .ok (i, g) := by
  have hlt := (List.getElem?_eq_some_iff.mp hi).1
  have hgroup : r.rowGroup = some i := by
    rw [h.rowGroup, if_neg (Nat.succ_ne_zero i), Nat.add_sub_cancel,
      Nat.min_eq_left (Nat.le_of_lt hlt)]
  rw [FileReader.inRowGroup, hgroup]
  dsimp only
  rw [h.metadata, hi]

/-- the leaf and the chunk of a column -/
theorem Reads.chunk {o : Options} {k j : Nat} {g : RowGroup} {spec : ColumnSpec}
    {chunk : ColumnChunk} (h : Reads bytes o (w.metadata gs.record) k r)
    (hspec : w.specs[j]? = some spec) (hchunk : g.columns[j]? = some chunk) :
    r.chunk g j = .ok (spec.leaf, chunk) := by
  have hleaf : r.leaves[j]? = some spec.leaf := by
    rw [leaves, h.metadata]
    show (w.specs.map ColumnSpec.leaf)[j]? = _
    rw [List.getElem?_map, hspec]
    rfl
  rw [FileReader.chunk, hleaf, hchunk]

/-- a column of the row group is prepared when its chunk is -/
theorem prepareColumn_ok {i j : Nat} {g : RowGroup} {leaf : SchemaElement} {chunk : ColumnChunk}
    {column : ColumnReader} (hgroup : r.inRowGroup = .ok (i, g)) (hj : j < r.numColumns)
    (hchunk : r.chunk g j = .ok (leaf, chunk))
    (h : ColumnReader.prepare j leaf chunk r.column = (.ok (), column)) :
    prepareColumn j r = (.ok (), { r with column }) := by
  rw [prepareColumn_apply hgroup hj hchunk, Step.on_apply, Step.within_ok h]

/-- the delta column of the row group is prepared when its chunk is -/
theorem prepareDelta_ok {i j : Nat} {g : RowGroup} {leaf : SchemaElement} {chunk : ColumnChunk}
    {delta : DeltaReader} (hgroup : r.inRowGroup = .ok (i, g)) (hj : r.numColumns = j + 1)
    (hchunk : r.chunk g j = .ok (leaf, chunk))
    (h : DeltaReader.prepare j leaf chunk r.delta = (.ok (), delta)) :
    prepareDelta r = (.ok (), { r with delta }) := by
  rw [prepareDelta_apply hgroup hj hchunk, Step.on_apply, Step.within_ok h]

/-- the chunk of a column in the row group that was come to, and where it lies in the file -/
theorem exists_chunk {behind : Bytes} {i j : Nat} {columns : List ColumnValues}
    (hgs : w.groups defaultMagic.length 0 w.rowGroups = .ok gs)
    (hbytes : bytes = defaultMagic ++ gs.bytes ++ behind) (hi : w.rowGroups[i]? = some columns)
    (hj : j < w.specs.length) :
    ∃ g spec values c rows front behind, gs.record[i]? = some g ∧ w.specs[j]? = some spec ∧
      columns[j]? = some values ∧ g.columns[j]? = some c.record ∧
      bytes = front ++ c.bytes ++ behind ∧
      w.chunk rows front.length (decide (j < w.columns.length)) spec values = .ok c := by
  have hlen : columns.length = w.specs.length := by
    obtain ⟨_, _, _, -, -, hgroup⟩ := (FileWriter.groups_laysOut _ hgs).getElem? hi
    exact (FileWriter.rowGroup_ok hgroup).1
  have hspec := List.getElem?_eq_getElem hj
  have hvalues := List.getElem?_eq_getElem (hlen ▸ hj)
  obtain ⟨g, c, rows, front, behind', hg, hchunk, hlies, hc⟩ :=
    FileWriter.chunk_lies hgs hi hspec hvalues
  refine ⟨g, _, _, c, rows, defaultMagic ++ front, behind' ++ behind, hg, hspec, hvalues, hchunk,
    ?_, ?_⟩
  · rw [hbytes, hlies]
    simp only [List.append_assoc]
  · rw [List.length_append]
    exact hc

theorem specs_of_lt {j : Nat} {spec : ColumnSpec} (hj : j < w.columns.length)
    (h : w.specs[j]? = some spec) : w.columns[j]? = some spec := by
  rwa [FileWriter.specs, List.getElem?_append_left hj] at h

/-! ## regular columns -/

/-- a regular column of the row group that was come to yields what was written -/
theorem Reads.prepareColumn_yields {behind : Bytes} {i j : Nat} {columns : List ColumnValues}
    (hw : w.Fits) (hrows : 0 < w.pageRows)
    (hgs : w.groups defaultMagic.length 0 w.rowGroups = .ok gs)
    (hbytes : bytes = defaultMagic ++ gs.bytes ++ behind) (hroom : bytes.length < 2 ^ 63)
    (h : Reads bytes {} (w.metadata gs.record) (i + 1) r) (hi : w.rowGroups[i]? = some columns)
    (hj : j < w.columns.length) :
    ∃ values r', columns[j]? = some values ∧ FileReader.prepareColumn j r = (.ok (), r') ∧
      r'.column.Yields values.data := by
  have hjs : j < w.specs.length := by
    rw [FileWriter.specs, List.length_append]
    omega
  obtain ⟨g, spec, values, c, rows, front, behind, hg, hspec, hvalues, hchunk, hlies, hc⟩ :=
    exists_chunk hgs hbytes hi hjs
  rw [decide_eq_true hj] at hc
  obtain ⟨htype, ⟨hregular, -⟩ | ⟨_, -, hfalse, -⟩⟩ := FileWriter.chunk_ok hc
  · have hcolumn := specs_of_lt hj hspec
    have hmem := List.mem_of_getElem? hi
    have hpair : (spec, values) ∈ w.columns.zip columns :=
      List.mem_of_getElem? (List.getElem?_zip_eq_some.mpr ⟨hcolumn, hvalues⟩)
    have hbuffer : r.column.buffer = front ++ c.bytes ++ behind := h.column.buffer.trans hlies
    obtain ⟨r', hprepare, hyields⟩ := ColumnReader.prepare_chunk j htype
      (hw.length spec (List.mem_of_getElem? hcolumn)) hrows (hw.counts columns hmem _ hpair)
      (hw.size columns hmem values (List.mem_of_getElem? hvalues))
      (FileWriter.regularChunk_ok hregular).2 hbuffer (h.column.buffer ▸ hroom)
      (by rw [h.column.options])
    exact ⟨values, { r with column := r' }, hvalues, prepareColumn_ok (h.inRowGroup hg)
      (h.numColumns ▸ hjs) (h.chunk hspec hchunk) hprepare, hyields⟩
  · cases hfalse

/-- whatever was called of a reader of a file that was written, there is a next row group until
all were read, and each regular column of a row group can be prepared and yields its data -/
theorem reads_columns (hw : w.Fits) (h : w.finish = .ok bytes) {p : Pools}
    (hp : ∀ kind, w.slots kind ≤ p.available kind) :
    ∃ r₀ p', prepare bytes {} p = (.ok r₀, p') ∧ r₀.numColumns = w.specs.length ∧
      r₀.numRowGroups = w.rowGroups.length ∧ ∀ calls,
        (nextRowGroup (r₀.run calls)).1 = .ok (decide (turns calls < w.rowGroups.length)) ∧
        ∀ i columns, turns calls = i + 1 → w.rowGroups[i]? = some columns →
          ∀ j < w.columns.length, ∃ values r, columns[j]? = some values ∧
            prepareColumn j (r₀.run calls) = (.ok (), r) ∧ r.column.Yields values.data := by
  obtain ⟨hrows, gs, behind, r₀, p', hgs, hbytes, hprepare, hreads⟩ := prepare_finish hw h hp
  have hcount : (w.metadata gs.record).rowGroups.length = w.rowGroups.length :=
    (FileWriter.groups_laysOut _ hgs).length
  refine ⟨r₀, p', hprepare, hreads.numColumns, hreads.numRowGroups hgs, fun calls => ?_⟩
  have hcalls := hreads.calls calls
  rw [Nat.zero_add] at hcalls
  refine ⟨?_, fun i columns hturns hi j hj => ?_⟩
  · rw [← hcount]
    exact hcalls.nextRowGroup.1
  · rw [hturns] at hcalls
    exact hcalls.prepareColumn_yields hw hrows hgs hbytes (hw.bytes bytes h) hi hj

/-- a row group of two slots and a delta column that begins with an empty run -/
def twoColumns : FileWriter :=
  { columns := [{ name := "n", type := .int32 }]
    delta := some "d"
    rowGroups := [[.int32 [some 7, none], .byteArray [none, some [97]]]]
    statistics := false
    createdBy := none }

theorem finish_twoColumns : twoColumns.finish = .ok
    [80, 65, 82, 49,
      21, 0, 21, 20, 21, 20, 44, 21, 4, 21, 0, 21, 6, 21, 6, 0, 0, 2, 0, 0, 0, 3, 1, 7, 0, 0, 0,
      21, 4, 21, 26, 21, 26, 76, 21, 2, 21, 0, 0, 0, 0, 0, 0, 0, 1, 0, 0, 0, 97, 0, 0, 0, 0,
      21, 2, 25, 60, 72, 6, 115, 99, 104, 101, 109, 97, 21, 4, 0, 21, 2, 37, 2, 24, 1, 110, 0,
      21, 12, 37, 2, 24, 1, 100, 0, 22, 4, 25, 28, 25, 44, 38, 0, 28, 21, 2, 25, 37, 6, 0, 25, 24,
      1, 110, 21, 0, 22, 4, 22, 54, 22, 54, 38, 8, 0, 0, 38, 0, 28, 21, 12, 25, 21, 0, 25, 24, 1,
      100, 21, 0, 22, 2, 22, 52, 22, 52, 38, 62, 38, 62, 0, 0, 22, 106, 22, 4, 38, 8, 22, 106, 20,
      0, 0, 0, 100, 0, 0, 0, 80, 65, 82, 49] := by
  cbv

theorem fits_twoColumns : twoColumns.Fits where
  type := by decide
  length := by decide
  name := by decide
  createdBy := by decide
  schema := by decide
  rowGroups := by decide
  counts := by
    intro columns hcolumns column hcolumn
    obtain rfl := List.mem_singleton.mp hcolumns
    obtain rfl := List.mem_singleton.mp hcolumn
    exact ⟨by decide, fun _ _ _ hd => nomatch hd⟩
  footer c hc bs len h := Nat.lt_of_le_of_lt
    (FileWriter.length_footer finish_twoColumns c hc bs len h) (by cbv)
  size := by decide
  bytes bytes h := by
    obtain rfl := Except.ok.inj (finish_twoColumns.symm.trans h)
    cbv

/-- pools with a free slot for each record of `twoColumns` -/
def fewPools : Pools := ⟨.ofCapacity 1, .ofCapacity 2, .ofCapacity 2⟩

theorem slots_twoColumns (kind : RecordKind) : twoColumns.slots kind ≤ fewPools.available kind := by
  cases kind <;> decide

/-- the slots 7 and empty are read back -/
theorem reads_columns_twoColumns : ∃ bytes r₀ p' r, twoColumns.finish = .ok bytes ∧
    prepare bytes {} fewPools = (.ok r₀, p') ∧
    (nextRowGroup r₀).1 = .ok true ∧ (nextRowGroup (r₀.run [.nextRowGroup])).1 = .ok false ∧
    prepareColumn 0 (r₀.run [.nextRowGroup]) = (.ok (), r) ∧
    r.column.Yields [some (.int32 7), none] := by
  obtain ⟨r₀, p', hprepare, -, -, hcalls⟩ :=
    reads_columns fits_twoColumns finish_twoColumns slots_twoColumns
  obtain ⟨hsecond, hcolumns⟩ := hcalls [.nextRowGroup]
  obtain ⟨values, r, hvalues, hcolumn, hyields⟩ := hcolumns 0 _ rfl rfl 0 (by decide)
  cases hvalues
  exact ⟨_, r₀, p', r, finish_twoColumns, hprepare, (hcalls []).1, hsecond, hcolumn, hyields⟩

/-! ## delta columns -/

/-- the delta column is the last one -/
theorem length_specs {name : String} (hdelta : w.delta = some name) :
    w.specs.length = w.columns.length + 1 := by
  rw [FileWriter.specs, hdelta, List.length_append]
  rfl

/-- the chunk of the delta column in the row group that was come to, and where it lies in the
file -/
theorem exists_deltaChunk {behind : Bytes} {i : Nat} {columns : List ColumnValues} {name : String}
    (hdelta : w.delta = some name) (hgs : w.groups defaultMagic.length 0 w.rowGroups = .ok gs)
    (hbytes : bytes = defaultMagic ++ gs.bytes ++ behind) (hi : w.rowGroups[i]? = some columns) :
    ∃ g spec slots c front behind, gs.record[i]? = some g ∧
      w.specs[w.columns.length]? = some spec ∧ spec.type = .byteArray ∧
      columns[w.columns.length]? = some (.byteArray slots) ∧
      g.columns[w.columns.length]? = some c.record ∧ bytes = front ++ c.bytes ++ behind ∧
      DeltaWriter.chunk front.length spec slots = .ok c := by
  have hlen := length_specs hdelta
  obtain ⟨g, spec, values, c, rows, front, behind, hg, hspec, hvalues, hchunk, hlies, hc⟩ :=
    exists_chunk hgs hbytes hi (j := w.columns.length) (by omega)
  have hname : spec = { name, type := .byteArray } := by
    rw [FileWriter.specs, hdelta, List.getElem?_append_right (Nat.le_refl _), Nat.sub_self] at hspec
    exact (Option.some.inj hspec).symm
  have htype : spec.type = .byteArray := by rw [hname]
  rw [decide_eq_false (Nat.lt_irrefl _)] at hc
  obtain ⟨-, ⟨-, hnot⟩ | ⟨slots, rfl, -, hc⟩⟩ := FileWriter.chunk_ok hc
  · exact absurd htype (hnot rfl)
  · exact ⟨g, spec, slots, c, front, behind, hg, hspec, htype, hvalues, hchunk, hlies, hc⟩

/-- the delta column of the row group that was come to yields what is delivered of it -/
theorem Reads.prepareDelta_yields {behind : Bytes} {i : Nat} {columns : List ColumnValues}
    {name : String} (hdelta : w.delta = some name)
    (hgs : w.groups defaultMagic.length 0 w.rowGroups = .ok gs)
    (hbytes : bytes = defaultMagic ++ gs.bytes ++ behind) (hroom : bytes.length < 2 ^ 63)
    (h : Reads bytes {} (w.metadata gs.record) (i + 1) r) (hi : w.rowGroups[i]? = some columns) :
    ∃ slots r', columns[w.columns.length]? = some (.byteArray slots) ∧
      FileReader.prepareDelta r = (.ok (), r') ∧
      r'.delta.Yields ((DeltaReader.delivered 0 slots).map fun bs => some (.byteArray bs)) := by
  obtain ⟨g, spec, slots, c, front, behind, hg, hspec, htype, hvalues, hchunk, hlies, hc⟩ :=
    exists_deltaChunk hdelta hgs hbytes hi
  have hbuffer : r.delta.buffer = front ++ c.bytes ++ behind := h.delta.buffer.trans hlies
  obtain ⟨r', hprepare, hyields⟩ := DeltaReader.prepare_chunk w.columns.length htype hc hbuffer
    (h.delta.buffer ▸ hroom)
  exact ⟨slots, { r with delta := r' }, hvalues, prepareDelta_ok (h.inRowGroup hg)
    (h.numColumns.trans (length_specs hdelta)) (h.chunk hspec hchunk) hprepare, hyields⟩

/-- whatever was called of a reader of a file that was written, the delta column of a row group
can be prepared and yields what is delivered of it -/
theorem prepareDelta_finish (hw : w.Fits) (h : w.finish = .ok bytes)
    {name : String} (hdelta : w.delta = some name) {p : Pools}
    (hp : ∀ kind, w.slots kind ≤ p.available kind) :
    ∃ r₀ p', prepare bytes {} p = (.ok r₀, p') ∧ ∀ calls i columns, turns calls = i + 1 →
      w.rowGroups[i]? = some columns → ∃ slots r,
        columns[w.columns.length]? = some (.byteArray slots) ∧
        prepareDelta (r₀.run calls) = (.ok (), r) ∧
        r.delta.Yields ((DeltaReader.delivered 0 slots).map fun bs => some (.byteArray bs)) := by
  obtain ⟨-, gs, behind, r₀, p', hgs, hbytes, hprepare, hreads⟩ := prepare_finish hw h hp
  refine ⟨r₀, p', hprepare, fun calls i columns hturns hi => ?_⟩
  have hcalls := hreads.calls calls
  rw [Nat.zero_add, hturns] at hcalls
  exact hcalls.prepareDelta_yields hdelta hgs hbytes (hw.bytes bytes h) hi

/-- whatever was called of a reader of a file that was written, the delta column of a row group
can be prepared and yields its first values.  These are all of them just when no value stands
behind a run that fills its last batch; an empty run does -/
theorem reads_delta (hw : w.Fits) (h : w.finish = .ok bytes)
    {name : String} (hdelta : w.delta = some name) {p : Pools}
    (hp : ∀ kind, w.slots kind ≤ p.available kind) :
    ∃ r₀ p', prepare bytes {} p = (.ok r₀, p') ∧ ∀ calls i columns, turns calls = i + 1 →
      w.rowGroups[i]? = some columns → ∃ slots r,
        columns[w.columns.length]? = some (.byteArray slots) ∧
        prepareDelta (r₀.run calls) = (.ok (), r) ∧
        r.delta.Yields ((DeltaReader.delivered 0 slots).map fun bs => some (.byteArray bs)) ∧
        DeltaReader.delivered 0 slots <+: slots.filterMap id ∧
        (DeltaReader.delivered 0 slots = slots.filterMap id ↔
          ∀ front back, slots = front ++ none :: back →
            DeltaReader.runLength 0 front % batchSize = 0 → back.filterMap id = []) := by
  obtain ⟨r₀, p', hprepare, hall⟩ := prepareDelta_finish hw h hdelta hp
  refine ⟨r₀, p', hprepare, fun calls i columns hturns hi => ?_⟩
  obtain ⟨slots, r, hslots, hdelta, hyields⟩ := hall calls i columns hturns hi
  exact ⟨slots, r, hslots, hdelta, hyields,
    DeltaReader.delivered_isPrefix slots 0, DeltaReader.delivered_eq_iff slots 0⟩

/-- the value behind the empty run is lost -/
theorem reads_delta_twoColumns : ∃ bytes r₀ p' r, twoColumns.finish = .ok bytes ∧
    prepare bytes {} fewPools = (.ok r₀, p') ∧
    prepareDelta (r₀.run [.nextRowGroup]) = (.ok (), r) ∧ r.delta.Yields [] := by
  obtain ⟨r₀, p', hprepare, hcalls⟩ := reads_delta fits_twoColumns finish_twoColumns rfl
    slots_twoColumns
  obtain ⟨slots, r, hslots, hdelta, hyields, -⟩ := hcalls [.nextRowGroup] 0 _ rfl rfl
  cases hslots
  exact ⟨_, r₀, p', r, finish_twoColumns, hprepare, hdelta, hyields⟩

/-- a delta column with a run that fills its batch, and a value behind it -/
def fullBatch : FileWriter :=
  { columns := []
    delta := some "d"
    rowGroups := [[.byteArray (List.replicate batchSize (some [97]) ++ [none, some [98]])]] }

theorem finish_fullBatch : ∃ bytes, fullBatch.finish = .ok bytes ∧ bytes.length = 219 := by
  have hsize : fullBatch.finish.map List.length = .ok 219 := by cbv
  cases h : fullBatch.finish with
  | error e =>
    rw [h] at hsize
    cases hsize
  | ok bytes =>
    rw [h] at hsize
    exact ⟨bytes, rfl, Except.ok.inj hsize⟩

theorem fits_fullBatch : fullBatch.Fits where
  type := by decide
  length := by decide
  name := by decide
  createdBy := by decide
  schema := by decide
  rowGroups := by decide
  counts := by
    intro columns hcolumns column hcolumn
    cases hcolumn
  footer c hc bs len h := by
    obtain ⟨bytes, hbytes, hlen⟩ := finish_fullBatch
    have hle := FileWriter.length_footer hbytes c hc bs len h
    omega
  size := by decide
  bytes bytes h := by
    obtain ⟨bytes', hbytes, hlen⟩ := finish_fullBatch
    obtain rfl := Except.ok.inj (hbytes.symm.trans h)
    omega

/-- not all values of a delta column are read back: the one behind the full batch is lost -/
theorem not_reads_delta_fullBatch : ∃ bytes r₀ p' r, fullBatch.finish = .ok bytes ∧
    prepare bytes {} fewPools = (.ok r₀, p') ∧
    prepareDelta (r₀.run [.nextRowGroup]) = (.ok (), r) ∧
    ¬ r.delta.Yields
      ((List.replicate batchSize [97] ++ [[98]] : List Bytes).map fun bs =>
        some (.byteArray bs)) := by
  obtain ⟨bytes, hbytes, -⟩ := finish_fullBatch
  obtain ⟨r₀, p', hprepare, hcalls⟩ := prepareDelta_finish fits_fullBatch hbytes rfl
    (p := fewPools) fun kind => by cases kind <;> decide
  obtain ⟨slots, r, hslots, hdelta, hyields⟩ := hcalls [.nextRowGroup] 0 _ rfl rfl
  cases hslots
  refine ⟨bytes, r₀, p', r, hbytes, hprepare, hdelta, fun hall => ?_⟩
  have hlen := congrArg List.length (hyields.unique hall)
  revert hlen
  decide

end Columnar.FileReader
