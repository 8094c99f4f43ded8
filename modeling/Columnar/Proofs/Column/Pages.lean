import Columnar.Proofs.Column.Chunk

/-!
# The pages of a chunk that was written

The pages of a chunk stand one behind the other: each header says how long its body is, and behind
the body stands the next header, up to the end of the chunk.  What the headers count is what the
record of the chunk counts.

* `PageAt file pos h stop`       a page stands in a file from `pos` to `stop`;
* `PagesFrom file pos hs stop`   and so do pages one behind the other;
* `ColumnMetaData.Paged`         the pages that the record of a chunk says there are;
* `ColumnWriter.chunk_paged`     a chunk that was written has them.
-/

namespace Columnar

/-! ## pages where they stand -/

/-- at `pos` stands a header that any reader finds, whatever its limits, and behind it a body of the
size that the header says, which ends at `stop` -/
def PageAt (file : Bytes) (pos : Nat) (h : PageHeader) (stop : Nat) : Prop :=
  ∃ len size : Nat, (∀ o, PageHeader.format.decode o (file.drop pos) = .ok (h, len)) ∧
    h.compressedPageSize.toInt = size ∧ stop = pos + len + size ∧ stop ≤ file.length

/-- pages stand one behind the other, the first at `pos`, and the last ends at `stop` -/
def PagesFrom (file : Bytes) : Nat → List PageHeader → Nat → Prop
  | pos, [], stop => pos = stop
  | pos, h :: hs, stop => ∃ next, PageAt file pos h next ∧ PagesFrom file next hs stop

/-- a page that was written stands where it was put -/
theorem pageAt_writePage {header : PageHeader} {body page : Bytes}
    (h : writePage header body = .ok page) (hwithin : ∀ o, (header.ofSize body.length).Within o)
    (front behind : Bytes) :
    PageAt (front ++ page ++ behind) front.length (header.ofSize body.length)
      (front.length + page.length) := by
  rw [writePage] at h
  split at h
  · cases h
  · rename_i hlt
    have hsize : (Int32.ofNat body.length).toInt = body.length :=
      Int32.toInt_ofNat_of_lt (Nat.not_le.mp hlt)
    obtain ⟨⟨head, len⟩, hencode, h₁⟩ := Except.bind_eq_ok.mp h
    cases h₁
    refine ⟨head.length, body.length, fun o => ?_, hsize, ?_, ?_⟩
    · -- the same bytes are written whatever the limits are under which they are read
      obtain ⟨bs, hwrite, hread⟩ := Format.roundTrips_of_carried (d := 3) (by decide)
        (PageHeader.carried (d := 0) (hwithin o))
      have hhead : PageHeader.format.encode (header.ofSize body.length) = .ok (bs, bs.length) :=
        hwrite []
      obtain ⟨rfl, -⟩ := Prod.mk.inj (Except.ok.inj (hhead.symm.trans hencode))
      rw [List.append_assoc, List.drop_left, List.append_assoc]
      exact hread (body ++ behind)
    · rw [List.length_append, Nat.add_assoc]
    · simp only [List.length_append]
      omega

/-! ## the pages of a chunk -/

/-- the slots that the header of a data page counts -/
def PageHeader.slots (h : PageHeader) : Int :=
  (h.dataPageHeader.map fun d => d.numValues.toInt).getD 0

/-- the empty slots that are noted in the header of a data page -/
def PageHeader.nulls (h : PageHeader) : Option Int := do
  let d ← h.dataPageHeader
  let s ← d.statistics
  let n ← s.nullCount
  pure n.toInt

/-- the empty slots that are noted in the record of a chunk -/
def ColumnMetaData.nulls (m : ColumnMetaData) : Option Int := do
  let s ← m.statistics
  let n ← s.nullCount
  pure n.toInt

/-- where a chunk begins: with its dictionary if it has one, and else with its data -/
def ColumnMetaData.start (m : ColumnMetaData) : Int :=
  (m.dictionaryPageOffset.getD m.dataPageOffset).toInt

/-- a chunk begins where it was written -/
theorem ColumnMetaData.Describes.start_eq {m : ColumnMetaData} {spec : ColumnSpec}
    {numValues start size : Nat} {dictionary : Bool}
    (hm : m.Describes spec numValues start size dictionary) (h : start < 2 ^ 63) :
    m.start = start := by
  rw [ColumnMetaData.start, hm.offset]
  cases dictionary with
  | true => exact Int64.toInt_ofNat_of_lt h
  | false =>
    show m.dataPageOffset.toInt = _
    rw [hm.data rfl, Int64.toInt_ofNat_of_lt h]

/-- a chunk from `lo` to `hi` in a file, with its pages: where it has a dictionary a page for that,
which ends at `mid`, and from there on data pages, which count as many slots as its record does, and
as many empty ones where these are noted -/
structure ColumnMetaData.Paged (m : ColumnMetaData) (file : Bytes) (noted : Bool)
    (lo mid hi : Nat) (dictionary : Option PageHeader) (data : List PageHeader) : Prop where
  start : m.start = lo
  first : m.dataPageOffset.toInt = mid
  size : m.totalCompressedSize.toInt = hi - lo
  isSome : dictionary.isSome = m.dictionaryPageOffset.isSome
  dictionaryType : ∀ h ∈ dictionary, h.pageType = .dictionaryPage ∧ h.dictionaryPageHeader.isSome
  dataType : ∀ h ∈ data, h.pageType = .dataPage ∧ h.dataPageHeader.isSome
  dictionaryPage : PagesFrom file lo dictionary.toList mid
  dataPages : PagesFrom file mid data hi
  empty : m.numValues = 0 → mid = hi
  slots : (data.map PageHeader.slots).sum = m.numValues.toInt
  nulls : noted → ∃ ns : List Int, data.map PageHeader.nulls = ns.map some ∧ m.nulls = some ns.sum

namespace ColumnWriter

variable {w : ColumnWriter} {t : PhysicalType} {d : Option Dictionary}

/-- the header of a data page with some slots -/
structure Heads (w : ColumnWriter) (slots : List (Option Bytes)) (h : PageHeader) : Prop where
  type : h.pageType = .dataPage
  data : ∃ d, h.dataPageHeader = some d ∧ d.numValues = Int32.ofNat slots.length ∧
    d.statistics = w.note slots

theorem dictionaryPage_pages {first : Bytes} (h : dictionaryPage d = .ok first)
    (front behind : Bytes) : ∃ dictionary : Option PageHeader,
      dictionary.isSome = d.isSome ∧
      (∀ h ∈ dictionary, h.pageType = .dictionaryPage ∧ h.dictionaryPageHeader.isSome) ∧
      PagesFrom (front ++ first ++ behind) front.length dictionary.toList
        (front.length + first.length) := by
  cases d with
  | none =>
    cases h
    exact ⟨none, rfl, (fun _ h => nomatch h), rfl⟩
  | some d =>
    have hpage := pageAt_writePage h (fun _ => ⟨(fun _ h => nomatch h), (fun _ h => nomatch h)⟩)
      front behind
    refine ⟨some _, rfl, ?_, _, hpage, rfl⟩
    rintro _ ⟨⟩
    exact ⟨rfl, rfl⟩

/-- a data page stands where it was put, with a header for its slots -/
theorem dataPage_page {slots : List (Option Bytes)} {page : Bytes}
    (h : w.dataPage t d slots = .ok page) (front behind : Bytes) :
    ∃ header, w.Heads slots header ∧
      PageAt (front ++ page ++ behind) front.length header (front.length + page.length) := by
  obtain ⟨⟨body, encoding⟩, -, hwrite⟩ := Except.bind_eq_ok.mp h
  refine ⟨_, ⟨rfl, _, rfl, rfl, rfl⟩, pageAt_writePage hwrite (fun o => ?_) front behind⟩
  exact ⟨forall_mem_some ⟨within_note w o slots⟩, (fun _ h => nomatch h)⟩

/-- data pages stand one behind the other -/
theorem dataPages_pages (behind : Bytes) (pieces : List (List (Option Bytes))) :
    ∀ {pages : List Bytes} (front : Bytes), pieces.mapM (w.dataPage t d) = .ok pages →
      ∃ headers, List.Forall₂ w.Heads pieces headers ∧
        PagesFrom (front ++ pages.flatten ++ behind) front.length headers
          (front.length + pages.flatten.length) := by
  induction pieces with
  | nil =>
    intro pages front h
    cases h
    exact ⟨[], .nil, rfl⟩
  | cons piece pieces ih =>
    intro pages front h
    rw [List.mapM_cons] at h
    obtain ⟨page, hpage, h₁⟩ := Except.bind_eq_ok.mp h
    obtain ⟨rest, hrest, h₂⟩ := Except.bind_eq_ok.mp h₁
    cases h₂
    obtain ⟨header, hheads, hat⟩ := dataPage_page hpage front (rest.flatten ++ behind)
    obtain ⟨headers, hall, hpages⟩ := ih (front ++ page) hrest
    have hfile : front ++ (page :: rest).flatten ++ behind =
        front ++ page ++ (rest.flatten ++ behind) := by
      simp only [List.flatten_cons, List.append_assoc]
    have hstop : front.length + (page :: rest).flatten.length =
        (front ++ page).length + rest.flatten.length := by
      rw [List.flatten_cons, List.length_append, List.length_append, Nat.add_assoc]
    rw [List.append_assoc (front ++ page)] at hpages
    rw [hfile, hstop]
    refine ⟨header :: headers, .cons hheads hall, front.length + page.length, hat, ?_⟩
    rw [← List.length_append]
    exact hpages

theorem type_heads {pieces : List (List (Option Bytes))} {headers : List PageHeader}
    (h : List.Forall₂ w.Heads pieces headers) :
    ∀ header ∈ headers, header.pageType = .dataPage ∧ header.dataPageHeader.isSome := by
  induction h with
  | nil => exact List.forall_mem_nil _
  | cons hheads _ ih =>
    obtain ⟨d, hd, -⟩ := hheads.data
    exact List.forall_mem_cons.mpr ⟨⟨hheads.type, Option.isSome_of_mem hd⟩, ih⟩

/-! ## what the headers count -/

theorem slots_heads {pieces : List (List (Option Bytes))} {headers : List PageHeader}
    (h : List.Forall₂ w.Heads pieces headers) (hlen : ∀ p ∈ pieces, p.length < 2 ^ 31) :
    (headers.map PageHeader.slots).sum = pieces.flatten.length := by
  induction h with
  | nil => rfl
  | @cons piece header pieces headers hheads _ ih =>
    obtain ⟨hpiece, hpieces⟩ := List.forall_mem_cons.mp hlen
    obtain ⟨d, hd, hcount, -⟩ := hheads.data
    have hslots : header.slots = piece.length := by
      rw [PageHeader.slots, hd]
      show d.numValues.toInt = _
      rw [hcount, Int32.toInt_ofNat_of_lt hpiece]
    rw [List.map_cons, List.sum_cons, ih hpieces, hslots, List.flatten_cons, List.length_append,
      Nat.cast_add]

theorem nulls_heads {pieces : List (List (Option Bytes))} {headers : List PageHeader}
    (hw : w.statistics = true) (h : List.Forall₂ w.Heads pieces headers)
    (hlen : ∀ p ∈ pieces, p.length < 2 ^ 31) :
    headers.map PageHeader.nulls =
        (pieces.map fun p => (p.countP Option.isNone : Int)).map some ∧
      (pieces.map fun p => (p.countP Option.isNone : Int)).sum =
        pieces.flatten.countP Option.isNone := by
  induction h with
  | nil => exact ⟨rfl, rfl⟩
  | @cons piece header pieces headers hheads _ ih =>
    obtain ⟨hpiece, hpieces⟩ := List.forall_mem_cons.mp hlen
    obtain ⟨hmap, hsum⟩ := ih hpieces
    obtain ⟨d, hd, -, hnote⟩ := hheads.data
    have hcount : piece.countP Option.isNone < 2 ^ 63 := by
      have := List.countP_le_length (p := Option.isNone) (l := piece)
      omega
    have hnulls : header.nulls = some (piece.countP Option.isNone : Int) := by
      rw [PageHeader.nulls, hd]
      show (d.statistics >>= fun s => s.nullCount >>= fun n => some n.toInt) = _
      rw [hnote, note, if_pos hw]
      exact congrArg some (Int64.toInt_ofNat_of_lt hcount)
    refine ⟨?_, ?_⟩
    · rw [List.map_cons, List.map_cons, List.map_cons, hmap, hnulls]
    · rw [List.map_cons, List.sum_cons, hsum, List.flatten_cons, List.countP_append, Nat.cast_add]

/-- a chunk that was written has the pages that its record says, wherever it is put -/
theorem chunk_paged {spec : ColumnSpec} {values : ColumnValues} {c : Written ColumnChunk}
    {front : Bytes} (hrows : 0 < w.pageRows) (hpage : min w.pageRows values.size < 2 ^ 31)
    (hsize : values.size < 2 ^ 63) (h : w.chunk front.length spec values = .ok c)
    (hend : front.length + c.bytes.length < 2 ^ 63) (behind : Bytes) :
    ∃ m mid dictionary data, c.record = ⟨none, 0, some m⟩ ∧
      m.Paged (front ++ c.bytes ++ behind) w.statistics front.length mid
        (front.length + c.bytes.length) dictionary data := by
  obtain ⟨slots, first, pages, m, hslots, hfirst, hpages, hbytes, hrecord, hm, hdata, hnote, -⟩ :=
    chunk_spec h
  have hlen : slots.length = values.size := by
    rw [(ColumnValues.staged_ok hslots).1, List.length_map, ColumnValues.size]
  have hpieces : ∀ p ∈ piecesOf w.pageRows slots, p.length < 2 ^ 31 := fun p hp =>
    Nat.lt_of_le_of_lt (length_of_mem_piecesOf hrows slots p hp).2 (hlen ▸ hpage)
  have hflatten := piecesOf_flatten hrows slots
  have hstop : front.length + c.bytes.length = (front ++ first).length + pages.flatten.length := by
    rw [hbytes, List.length_append, List.length_append, Nat.add_assoc]
  have hmid : (front ++ first).length < 2 ^ 63 := by omega
  rw [← List.length_append] at hdata
  -- the dictionary stands in front of the data pages, and these in front of what is behind them
  obtain ⟨dictionary, hsome, hdictionary, hfirstPage⟩ :=
    dictionaryPage_pages hfirst front (pages.flatten ++ behind)
  obtain ⟨data, hheads, hpagesFrom⟩ := dataPages_pages behind _ (front ++ first) hpages
  rw [← List.append_assoc, ← List.length_append] at hfirstPage
  refine ⟨m, (front ++ first).length, dictionary, data, hrecord, ?_⟩
  have hnumValues : m.numValues.toInt = slots.length := by
    rw [hm.numValues, Int64.toInt_ofNat_of_lt (hlen ▸ hsize)]
  rw [hstop, hbytes, ← List.append_assoc]
  exact {
    start := hm.start_eq (by omega)
    first := by rw [hdata, Int64.toInt_ofNat_of_lt hmid]
    size := by
      rw [hm.size, Int64.toInt_ofNat_of_lt (by omega), ← hstop]
      omega
    isSome := by
      rw [hsome, hm.offset]
      cases (w.dictionaryOf spec.type slots).isSome <;> rfl
    dictionaryType := hdictionary
    dataType := type_heads hheads
    dictionaryPage := hfirstPage
    dataPages := hpagesFrom
    empty := fun hzero => by
      rw [hzero] at hnumValues
      have hnil : slots = [] := List.length_eq_zero_iff.mp (Int.ofNat.inj hnumValues).symm
      rw [hnil, piecesOf_nil] at hpages
      cases hpages
      rfl
    slots := by rw [slots_heads hheads hpieces, hflatten, hnumValues]
    nulls := fun hnoted => by
      obtain ⟨hmap, hsum⟩ := nulls_heads hnoted hheads hpieces
      refine ⟨_, hmap, ?_⟩
      have hcount : slots.countP Option.isNone < 2 ^ 63 := by
        have := List.countP_le_length (p := Option.isNone) (l := slots)
        omega
      rw [hsum, hflatten, ColumnMetaData.nulls, hnote, note, if_pos hnoted]
      exact congrArg some (Int64.toInt_ofNat_of_lt hcount) }

end ColumnWriter

end Columnar
