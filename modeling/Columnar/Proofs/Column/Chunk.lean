import Columnar.File.Writer
import Columnar.Proofs.Column.Drain
import Columnar.Proofs.Column.Writer

/-!
# A chunk that was written can be read

* `ColumnMetaData.Describes`     what the record of a chunk says of it;
* `Binding.ofChunk_describes`    a chunk that is described can be bound;
* `ColumnWriter.chunk_spec`      the record of a chunk that was written describes it;
* `ColumnWriter.whole_chunk`     the chunk as a whole gives the slots that were written;
* `ColumnReader.prepare_chunk`   a reader that was prepared for the chunk yields what was written.
-/

namespace Columnar

/-! ## the record of a chunk -/

/-- the record of a chunk of `size` bytes that begins at `start`, with its dictionary if it has
one -/
structure ColumnMetaData.Describes (m : ColumnMetaData) (spec : ColumnSpec)
    (numValues start size : Nat) (dictionary : Bool) : Prop where
  type : m.physicalType = spec.type
  codec : m.codec = .uncompressed
  numValues : m.numValues = Int64.ofNat numValues
  size : m.totalCompressedSize = Int64.ofNat size
  uncompressed : m.totalUncompressedSize = m.totalCompressedSize
  offset : m.dictionaryPageOffset = if dictionary then some (Int64.ofNat start) else none
  data : dictionary = false → m.dataPageOffset = Int64.ofNat start

/-- a record with few encodings and the name of its column alone is within the limits -/
theorem ColumnMetaData.within_of_name {m : ColumnMetaData} {o : Options} {name : String}
    (hencodings : m.encodings.length ≤ 3) (hpath : m.pathInSchema = [name])
    (hpairs : m.keyValueMetadata = none) (hstatistics : ∀ s ∈ m.statistics, s.Within o)
    (hname : TextFits o name) : m.Within o := by
  have hroom : 3 * Codec.codeRoom ≤ Compact.Read.maxListRoom := by decide
  have hone : FitsList o 1 Codec.textRoom := ⟨Or.inl (by decide), by decide⟩
  refine ⟨⟨Or.inl (by omega), Nat.le_trans (Nat.mul_le_mul_right _ hencodings) hroom⟩, ?_, ?_,
    hstatistics⟩
  · rw [hpath]
    exact ⟨hone, List.forall_mem_singleton.mpr hname⟩
  · rw [hpairs]
    exact fun _ h => nomatch h

namespace Binding

/-- how a chunk is bound that was written for a column -/
def ofSpec (column : Nat) (spec : ColumnSpec) (numValues start size : Nat) (dictionary : Bool) :
    Binding :=
  { column, name := spec.name, type := spec.type
    typeLength := if spec.type = .fixedLenByteArray then spec.length else none
    numValues, start, size, dictionaryOffset := if dictionary then some start else none }

theorem natural_ofNat {n : Nat} (h : n < 2 ^ 63) (which : ChunkNumber) :
    natural which (Int64.ofNat n) = .ok n := by
  have hn : (Int64.ofNat n).toInt = n := Int64.toInt_ofNat_of_lt h
  have hpos : ¬ Int64.ofNat n < 0 := by
    rw [Int64.lt_iff_toInt_lt, hn]
    exact Int.not_lt.mpr (Int.natCast_nonneg n)
  rw [natural, if_neg hpos, hn, Int.toNat_natCast]

theorem checkLength_leaf {spec : ColumnSpec}
    (h : spec.type = .fixedLenByteArray → ∃ n, spec.typeLength = some n ∧ 0 ≤ n) :
    checkLength spec.leaf spec.type =
      .ok (if spec.type = .fixedLenByteArray then spec.length else none) := by
  rw [checkLength]
  by_cases ht : spec.type = .fixedLenByteArray
  · obtain ⟨n, hn, hpos⟩ := h ht
    have hleaf : spec.leaf.typeLength = some n := hn
    rw [if_pos ht, if_pos ht, hleaf, ColumnSpec.length, hn]
    exact if_pos hpos
  · rw [if_neg ht, if_neg ht]

/-- the bytes of a chunk, wherever it lies -/
theorem bytes_append {b : Binding} {front bs behind : Bytes} (hstart : b.start = front.length)
    (hsize : b.size = bs.length) : b.bytes (front ++ bs ++ behind) = bs := by
  rw [bytes, hstart, hsize, List.append_assoc, List.drop_left, List.take_left]

/-- a chunk that is described is bound -/
theorem ofChunk_describes {m : ColumnMetaData} {spec : ColumnSpec} {numValues start size : Nat}
    {dictionary : Bool} (hm : m.Describes spec numValues start size dictionary)
    (htype : spec.type ≠ .int96)
    (hlength : spec.type = .fixedLenByteArray → ∃ n, spec.typeLength = some n ∧ 0 ≤ n)
    (hcount : numValues < 2 ^ 63) {room : Nat} (hend : start + size ≤ room) (hroom : room < 2 ^ 63)
    (column : Nat) : ofChunk column spec.leaf ⟨none, 0, some m⟩ room =
      .ok (ofSpec column spec numValues start size dictionary) := by
  have hcheck : checkChunk ⟨none, 0, some m⟩ = .ok m := by
    unfold checkChunk
    dsimp only
    rw [if_neg (fun h => h rfl), if_neg (fun h => h hm.codec),
      if_neg (fun h => h hm.uncompressed.symm)]
  have hct : checkType spec.leaf m = .ok spec.type := by
    show (if some Repetition.optional ≠ some .optional then _
      else if spec.type ≠ m.physicalType then _ else if spec.type = .int96 then _ else _) = _
    rw [if_neg (fun h => h rfl), if_neg (fun h => h hm.type.symm), if_neg htype]
  have hstart : start < 2 ^ 63 := by omega
  have hoffset : m.dictionaryPageOffset.mapM (natural .dictionaryPageOffset) =
      .ok (if dictionary then some start else none) := by
    rw [hm.offset]
    cases dictionary
    · rfl
    · show (natural .dictionaryPageOffset (Int64.ofNat start) >>= fun n => pure (some n)) = _
      rw [natural_ofNat hstart]
      rfl
  have hfirst : chunkStart m (if dictionary then some start else none) = .ok start := by
    cases dictionary
    · show natural .dataPageOffset m.dataPageOffset = _
      rw [hm.data rfl, natural_ofNat hstart]
    · rfl
  -- the checks pass in the order in which they are made
  rw [ofChunk, hcheck]
  refine Except.bind_eq_ok.mpr ⟨_, rfl, Except.bind_eq_ok.mpr ⟨_, hct, ?_⟩⟩
  refine Except.bind_eq_ok.mpr ⟨_, checkLength_leaf hlength, ?_⟩
  refine Except.bind_eq_ok.mpr ⟨numValues, by rw [hm.numValues, natural_ofNat hcount], ?_⟩
  refine Except.bind_eq_ok.mpr ⟨size, by rw [hm.size, natural_ofNat (by omega)], ?_⟩
  refine Except.bind_eq_ok.mpr ⟨_, hoffset, Except.bind_eq_ok.mpr ⟨_, hfirst, ?_⟩⟩
  exact if_neg (Nat.not_lt.mpr hend)

end Binding

/-! ## a chunk that was written -/

theorem ColumnValues.type_ne_int96 (vs : ColumnValues) : vs.type ≠ .int96 := by
  cases vs <;> exact fun h => nomatch h

namespace ColumnWriter

variable {w : ColumnWriter} {spec : ColumnSpec} {values : ColumnValues} {start : Nat}
  {c : Written ColumnChunk}

theorem mem_dictionaryOf {t : PhysicalType} {slots : List (Option Bytes)} {d : Dictionary}
    (h : d ∈ w.dictionaryOf t slots) : d = .ofSlots slots ∧ t ≠ .boolean := by
  rw [dictionaryOf] at h
  split at h
  · rename_i ht
    cases h
    exact ⟨rfl, ht.2⟩
  · cases h

/-- a chunk is its dictionary and its pages, and its record describes it -/
theorem chunk_spec (h : w.chunk start spec values = .ok c) :
    ∃ slots first pages m, values.staged spec = .ok slots ∧
      dictionaryPage (w.dictionaryOf spec.type slots) = .ok first ∧
      (piecesOf w.pageRows slots).mapM
        (w.dataPage spec.type (w.dictionaryOf spec.type slots)) = .ok pages ∧
      c.bytes = first ++ pages.flatten ∧ c.record = ⟨none, 0, some m⟩ ∧
      m.Describes spec slots.length start c.bytes.length
        (w.dictionaryOf spec.type slots).isSome ∧
      m.dataPageOffset = Int64.ofNat (start + first.length) ∧ m.statistics = w.note slots ∧
      ∀ o, TextFits o spec.name → m.Within o := by
  obtain ⟨slots, hslots, h₁⟩ := Except.bind_eq_ok.mp h
  obtain ⟨first, hfirst, h₂⟩ := Except.bind_eq_ok.mp h₁
  obtain ⟨pages, hpages, h₃⟩ := Except.bind_eq_ok.mp h₂
  cases h₃
  refine ⟨slots, first, pages, _, hslots, hfirst, hpages, rfl, rfl,
    ⟨rfl, rfl, rfl, rfl, rfl, rfl, fun hnone => ?_⟩, rfl, rfl, fun o hname =>
      ColumnMetaData.within_of_name ?_ rfl rfl (within_note w o slots) hname⟩
  · rw [Option.isSome_eq_false_iff, Option.isNone_iff_eq_none] at hnone
    rw [hnone] at hfirst
    cases hfirst
    rfl
  · dsimp only
    split <;> decide

/-- the slots of a column can be read in a chunk that was written for it -/
theorem reads_staged (w : ColumnWriter) {slots : List (Option Bytes)}
    (htype : values.type = spec.type) (h : values.staged spec = .ok slots)
    (column numValues start size : Nat) :
    (Binding.ofSpec column spec numValues start size
      (w.dictionaryOf spec.type slots).isSome).Reads (w.dictionaryOf spec.type slots) slots := by
  obtain ⟨-, hlength, hstaged⟩ := ColumnValues.staged_ok h
  rw [htype] at hlength hstaged
  refine ⟨fun ht => values.type_ne_int96 (htype.trans ht), fun ht => ?_,
    fun bs hbs => hstaged bs hbs _ fun ht => if_pos ht, ?_, fun d hd bs hbs => ?_⟩
  · replace ht : spec.type = .fixedLenByteArray := ht
    show (if spec.type = .fixedLenByteArray then spec.length else none).isSome
    rw [if_pos ht]
    exact hlength ht
  · show (if (w.dictionaryOf spec.type slots).isSome then some start else none).isSome = _
    cases (w.dictionaryOf spec.type slots) <;> rfl
  · rw [(mem_dictionaryOf hd).1]
    exact Dictionary.getElem?_idxOf hbs

/-- what a chunk says is within 31 bits: the slots of a page and the entries of a dictionary -/
structure Counts (w : ColumnWriter) (spec : ColumnSpec) (values : ColumnValues) : Prop where
  page : min w.pageRows values.size < 2 ^ 31
  dictionary : ∀ slots, values.staged spec = .ok slots →
    ∀ d ∈ w.dictionaryOf spec.type slots, d.entries.length < 2 ^ 31

theorem chunk_ne_nil {slots : List (Option Bytes)} {d : Option Dictionary} {pages : List Bytes}
    (hrows : 0 < w.pageRows) (hne : slots ≠ [])
    (h : (piecesOf w.pageRows slots).mapM (w.dataPage spec.type d) = .ok pages) :
    0 < pages.flatten.length := by
  rw [piecesOf_of_ne hrows hne, List.mapM_cons] at h
  obtain ⟨first, hfirst, h₁⟩ := Except.bind_eq_ok.mp h
  obtain ⟨rest, -, h₂⟩ := Except.bind_eq_ok.mp h₁
  cases h₂
  have := length_dataPage hfirst
  rw [List.flatten_cons, List.length_append]
  omega

end ColumnWriter

/-- a chunk that was written is read as its slots -/
theorem Whole.takes_chunk {w : ColumnWriter} {b : Binding} {slots : List (Option Bytes)}
    {first : Bytes} {pages : List Bytes} (o : Options) (hrows : 0 < w.pageRows)
    (hr : b.Reads (w.dictionaryOf b.type slots) slots)
    (hpage : min w.pageRows slots.length < 2 ^ 31)
    (hentries : ∀ d ∈ w.dictionaryOf b.type slots, d.entries.length < 2 ^ 31)
    (hcount : b.numValues = slots.length)
    (hfirst : ColumnWriter.dictionaryPage (w.dictionaryOf b.type slots) = .ok first)
    (hpages : (piecesOf w.pageRows slots).mapM
      (w.dataPage b.type (w.dictionaryOf b.type slots)) = .ok pages) :
    Cursor.Takes (do
      let entries ← Whole.dictionary o b
      Whole.slots o b entries b.numValues) (first ++ pages.flatten)
        (slots.map (·.map (.ofPlain b.type))) := by
  refine Cursor.takes_bind
    (Whole.takes_dictionary o hr (fun hsome => ?_) (fun d hd => ?_) hfirst) ?_
  · obtain ⟨d, hd⟩ := Option.isSome_iff_exists.mp hsome
    exact (ColumnWriter.mem_dictionaryOf hd).2
  · obtain ⟨rfl, -⟩ := ColumnWriter.mem_dictionaryOf hd
    exact ⟨hentries _ hd, fun bs => Dictionary.mem_entries.mp⟩
  · rw [hcount]
    refine Whole.takes_pages o hrows slots pages hr (fun page hp => ?_) hpages
    exact Nat.lt_of_le_of_lt (length_of_mem_piecesOf hrows slots page hp).2 hpage

/-- the slots of a column as they are read -/
def ColumnValues.slots (values : ColumnValues) : List (Option Value) :=
  values.data.map fun slot => slot.map fun d => .ofPlain d.type d.plain

theorem ColumnValues.slots_staged {spec : ColumnSpec} {values : ColumnValues}
    {staged : List (Option Bytes)} (htype : values.type = spec.type)
    (h : values.staged spec = .ok staged) :
    staged.map (·.map (.ofPlain spec.type)) = values.slots := by
  rw [(ColumnValues.staged_ok h).1, List.map_map, slots]
  apply List.map_congr_left
  intro slot hslot
  cases slot with
  | none => rfl
  | some d =>
    show some (Value.ofPlain spec.type d.plain) = some (.ofPlain d.type d.plain)
    rw [type_of_mem hslot, htype]

/-- the data that were written are read -/
theorem ColumnValues.datum_slots (values : ColumnValues) :
    values.slots.map (·.map Value.datum) = values.data.map (·.map .ok) := by
  rw [slots, List.map_map]
  apply List.map_congr_left
  intro slot _
  cases slot with
  | none => rfl
  | some d => exact congrArg some (Datum.ofPlain_plain d)

namespace ColumnWriter

variable {w : ColumnWriter} {spec : ColumnSpec} {values : ColumnValues} {start : Nat}
  {c : Written ColumnChunk}

/-- a chunk that was written is described by its record, and as a whole gives its slots -/
theorem whole_chunk (htype : values.type = spec.type) (hrows : 0 < w.pageRows)
    (hcounts : w.Counts spec values) (h : w.chunk start spec values = .ok c) :
    ∃ m dictionary, c.record = ⟨none, 0, some m⟩ ∧
      m.Describes spec values.size start c.bytes.length dictionary ∧
      (0 < values.size → 0 < c.bytes.length) ∧ ∀ o column buffer,
        (Binding.ofSpec column spec values.size start c.bytes.length dictionary).bytes buffer =
          c.bytes →
        Whole.chunk o (Binding.ofSpec column spec values.size start c.bytes.length dictionary)
          buffer = .ok values.slots := by
  obtain ⟨staged, first, pages, m, hstaged, hfirst, hpages, hbytes, hrecord, hm, -⟩ := chunk_spec h
  have hlen : staged.length = values.size := by
    rw [(ColumnValues.staged_ok hstaged).1, List.length_map, ColumnValues.size]
  rw [hlen] at hm
  refine ⟨m, _, hrecord, hm, fun hpos => ?_, fun o column buffer hbuffer => ?_⟩
  · have := chunk_ne_nil hrows (List.length_pos_iff.mp (hlen ▸ hpos)) hpages
    rw [hbytes, List.length_append]
    omega
  · have hr := reads_staged w htype hstaged column values.size start c.bytes.length
    have htakes := Whole.takes_chunk o hrows hr (hlen ▸ hcounts.page)
      (hcounts.dictionary staged hstaged) hlen.symm hfirst hpages [] []
    rw [List.append_nil, ← hbytes] at htakes
    rw [Whole.chunk, hbuffer, ← ColumnValues.slots_staged htype hstaged]
    exact congrArg Prod.fst htakes

end ColumnWriter

/-! ## reading the chunk -/

namespace ColumnReader

/-- what reading a column reader to its end gives -/
abbrev Yields : ColumnReader → List (Option Datum) → Prop := Columnar.Yields read progress

/-- a chunk without values or without bytes has nothing ahead -/
theorem prepare_empty {r : ColumnReader} {b : Binding} {column : Nat} {schema : SchemaElement}
    {chunk : ColumnChunk} (h : Binding.ofChunk column schema chunk r.buffer.length = .ok b)
    (hempty : b.numValues = 0 ∨ b.size = 0) :
    ∃ r', prepare column schema chunk r = (.ok (), r') ∧ r'.Reading b ∧ r'.progress = .ready ∧
      r'.ahead b = .ok [] := by
  refine ⟨{ r.atChunk b with columnValues := 0, progress := .ready },
    Step.within_ok ?_, ?_, rfl, ?_⟩
  · refine (Step.update_bind _ _ _).trans ?_
    refine (Step.state_bind _ _).trans ?_
    refine (Step.bind_ok (Step.liftM_ok h _) _).trans ?_
    rw [if_pos hempty]
    rfl
  · have hat := reading_atChunk (Binding.ofChunk_spec h).2
    exact ⟨rfl, Nat.le_refl 0, hat.bytes, fun h => absurd h (Nat.lt_irrefl 0)⟩
  · rw [ahead_of_zero b rfl, Step.answer]
    show (Whole.slots _ b _ 0 _).1 = _
    rw [Whole.slots, if_pos rfl]
    rfl

/-- a reader yields what it has ahead -/
theorem yields_of_ahead {r : ColumnReader} {b : Binding} {values : ColumnValues} (hb : b.Bounded)
    (hr : r.Reading b) (hready : r.progress = .ready) (h : r.ahead b = .ok values.slots) :
    r.Yields values.data := by
  refine fun vs => ⟨exists_drains hb r.columnValues vs (Nat.le_refl _) hr hready h, ?_⟩
  intro bs r' hdrains
  obtain ⟨slots, full, hslots, rfl, hcuts, -⟩ := Drains.ahead hb hdrains hr hready
  rw [h] at hslots
  cases hslots
  rw [List.flatMap_append, hcuts.slots, List.flatMap_singleton]
  show (values.slots ++ []).map _ = _
  rw [List.append_nil, ColumnValues.datum_slots]

/-- a chunk that was written can be prepared wherever it lies, and yields its data -/
theorem prepare_chunk {w : ColumnWriter} {spec : ColumnSpec} {values : ColumnValues}
    {c : Written ColumnChunk} {r : ColumnReader} {front behind : Bytes} (column : Nat)
    (htype : values.type = spec.type)
    (hlength : spec.type = .fixedLenByteArray → ∀ n ∈ spec.typeLength, 0 ≤ n)
    (hrows : 0 < w.pageRows) (hcounts : w.Counts spec values) (hsize : values.size < 2 ^ 63)
    (h : w.chunk front.length spec values = .ok c) (hbuffer : r.buffer = front ++ c.bytes ++ behind)
    (hroom : r.buffer.length < 2 ^ 63) (hdict : r.options.dictionary = true) :
    ∃ r', prepare column spec.leaf c.record r = (.ok (), r') ∧ r'.Yields values.data := by
  obtain ⟨m, dictionary, hrecord, hm, hpos, hwhole⟩ :=
    ColumnWriter.whole_chunk htype hrows hcounts h
  have hbind : Binding.ofChunk column spec.leaf c.record r.buffer.length = .ok
      (.ofSpec column spec values.size front.length c.bytes.length dictionary) := by
    rw [hrecord]
    refine Binding.ofChunk_describes hm (htype ▸ values.type_ne_int96) (fun ht => ?_) hsize ?_ hroom
      column
    · obtain ⟨staged, -, -, -, hstaged, -⟩ := ColumnWriter.chunk_spec h
      have hsome := (ColumnValues.staged_ok hstaged).2.1 (htype.trans ht)
      rw [ColumnSpec.length, Option.isSome_map] at hsome
      obtain ⟨n, hn⟩ := Option.isSome_iff_exists.mp hsome
      exact ⟨n, hn, hlength ht n hn⟩
    · rw [hbuffer, List.length_append, List.length_append]
      exact Nat.le_add_right _ _
  have hbytes : (Binding.ofSpec column spec values.size front.length c.bytes.length
      dictionary).bytes r.buffer = c.bytes := by
    rw [hbuffer]
    exact Binding.bytes_append rfl rfl
  have hchunk := hwhole r.options column r.buffer hbytes
  have hb := (Binding.ofChunk_spec hbind).1
  by_cases hzero : values.size = 0
  · obtain ⟨r', hprepare, hr, hready, hahead⟩ := prepare_empty hbind (Or.inl hzero)
    refine ⟨r', hprepare, yields_of_ahead hb hr hready ?_⟩
    rw [hahead, ColumnValues.slots, List.length_eq_zero_iff.mp hzero]
    rfl
  · have hpos' : 0 < values.size := Nat.pos_of_ne_zero hzero
    obtain ⟨r', hprepare, hr, hready, -, hahead⟩ | ⟨-, x, herror⟩ :=
      prepare_spec hbind hpos' (hpos hpos') hdict
    · exact ⟨r', hprepare, yields_of_ahead hb hr hready (hahead.trans hchunk)⟩
    · rw [hchunk] at herror
      cases herror

end ColumnReader

end Columnar
