import Columnar.Proofs.Column.Counts
import Columnar.Proofs.File.Tiling

/-!
# The numbers that a file stores

A file says which of its row groups is which, and how many columns, slots and entries it has and how
long its footer is.  Each of these numbers is stored in the bits of its field whether it fits them
or not, but for the entries of a page, which always fit.  So a file that was written says what it
holds just when all its numbers fit.

* `FileWriter.pageCounts w`         what the pages of a file count, in the order of the pages;
* `FileWriter.Parts`                the parts of a file that store numbers;
* `FileWriter.Stores w p`           the numbers that they store;
* `FileWriter.Exact w p`            each of them is what it stands for;
* `FileWriter.NumbersFit w p`       and fits its field;
* `FileWriter.finish_exact_iff`     when a file that was written says what it holds.
-/

namespace Columnar

/-- the pages of parts that were written one behind the other -/
theorem LaysOut.fill {α β : Type} {write : Nat → Nat → α → Except Error (Written β)}
    {start i : Nat} {as : List α} {ws : Written (List β)} (h : LaysOut write start i as ws)
    (counts : Nat → α → List PageCount)
    (hwrite : ∀ a ∈ as.zipIdx i, ∀ start w, write start a.2 a.1 = .ok w →
      PagesFill (counts a.2 a.1) w.bytes) :
    PagesFill ((as.zipIdx i).flatMap fun a => counts a.2 a.1) ws.bytes := by
  induction h with
  | nil => exact pagesFill_nil
  | cons h _ ih =>
    obtain ⟨hfirst, hrest⟩ := List.forall_mem_cons.mp hwrite
    exact (hfirst _ _ h).append (ih hrest)

namespace FileWriter

variable {w : FileWriter}

/-! ## pages -/

/-- what the pages of the column with the number `i` count; behind the regular columns there is a
delta column, which has one page for its values -/
def columnCounts (w : FileWriter) (i : Nat) (column : ColumnSpec × ColumnValues) :
    List PageCount :=
  if i < w.columns.length then
    w.columnWriter.pageCounts column.1.type (column.2.data.map (·.map Datum.plain))
  else [.entries (column.2.data.countP Option.isSome)]

def groupCounts (w : FileWriter) (columns : List ColumnValues) : List PageCount :=
  (w.specs.zip columns).zipIdx.flatMap fun column => w.columnCounts column.2 column.1

/-- what the pages of a file count, in the order in which they stand -/
def pageCounts (w : FileWriter) : List PageCount := w.rowGroups.flatMap w.groupCounts

theorem type_of_le {i : Nat} {spec : ColumnSpec} (hi : w.columns.length ≤ i)
    (h : w.specs[i]? = some spec) : spec.type = .byteArray := by
  rw [specs, List.getElem?_append_right hi] at h
  obtain ⟨name, -, rfl⟩ := List.mem_map.mp (List.mem_of_getElem? h)
  rfl

/-- the pages of a chunk, where the columns behind the regular ones are byte arrays -/
theorem chunkAt_fill {rows start i : Nat} {column : ColumnSpec × ColumnValues}
    {c : Written ColumnChunk} (htype : w.columns.length ≤ i → column.1.type = .byteArray)
    (h : w.chunkAt rows start i column = .ok c) : PagesFill (w.columnCounts i column) c.bytes := by
  obtain ⟨spec, values⟩ := column
  rw [columnCounts]
  obtain ⟨hvalues, ⟨hregular, hnot⟩ | ⟨slots, rfl, hfalse, hdelta⟩⟩ := chunk_ok h
  · have hi : i < w.columns.length := by
      by_contra hge
      exact hnot (decide_eq_false hge) (htype (Nat.not_lt.mp hge))
    rw [if_pos hi]
    exact ColumnWriter.chunk_fill hvalues (regularChunk_ok hregular).2
  · have hcount : (ColumnValues.byteArray slots).data.countP Option.isSome =
        slots.countP Option.isSome := by
      rw [ColumnValues.data, List.countP_map]
      exact List.countP_congr fun slot _ => by simp
    rw [if_neg (of_decide_eq_false hfalse), hcount]
    exact DeltaWriter.chunk_fill hdelta

theorem rowGroup_fill {start ordinal : Nat} {columns : List ColumnValues} {g : Written RowGroup}
    (h : w.rowGroup start ordinal columns = .ok g) : PagesFill (w.groupCounts columns) g.bytes := by
  obtain ⟨-, rows, hlays⟩ := rowGroup_ok h
  refine hlays.fill w.columnCounts fun column hcolumn start c hc => chunkAt_fill (fun hi => ?_) hc
  have hpair := List.mem_zipIdx_iff_getElem?.mp hcolumn
  exact type_of_le hi (List.getElem?_zip_eq_some.mp hpair).1

/-- the pages of the row groups of a file, whatever stands in front of them and behind them -/
theorem groups_fill {start : Nat} {gs : Written (List RowGroup)}
    (h : w.groups start 0 w.rowGroups = .ok gs) : PagesFill w.pageCounts gs.bytes := by
  have hfill := (groups_laysOut _ h).fill (fun _ => w.groupCounts) fun _ _ _ _ hg =>
    rowGroup_fill hg
  have hcounts : (w.rowGroups.zipIdx.flatMap fun a => w.groupCounts a.1) = w.pageCounts := by
    rw [pageCounts, ← List.flatMap_map, List.zipIdx_map_fst]
  rwa [hcounts] at hfill

/-! ## parts and their numbers -/

/-- the parts of a file that store numbers: its metadata, the headers of its pages, and the word
behind its footer -/
structure Parts where
  metadata : FileMetaData
  headers : List PageHeader
  footer : Bytes
  word : Bytes

/-- the parts of a file, each where it stands: the pages fill the bytes from the first signature to
the footer, which the metadata are written as, and the word stands behind that -/
structure Parts.Of (p : Parts) (w : FileWriter) (bytes : Bytes) : Prop where
  parts : ∃ chunks, w.content = .ok ⟨chunks, p.metadata⟩ ∧
    bytes = defaultMagic ++ chunks ++ p.footer ++ p.word ++ defaultMagic ∧
    PagesFrom bytes defaultMagic.length p.headers (defaultMagic.length + chunks.length)
  footer : FileMetaData.format.encode p.metadata = .ok (p.footer, p.footer.length)
  word : p.word.length = 4

/-- the parts of a file are found in one way only -/
theorem Parts.Of.unique {p p' : Parts} {bytes : Bytes} (h : p.Of w bytes) (h' : p'.Of w bytes) :
    p = p' := by
  obtain ⟨metadata, headers, footer, word⟩ := p
  obtain ⟨metadata', headers', footer', word'⟩ := p'
  obtain ⟨⟨chunks, hcontent, hbytes, hpages⟩, hfooter, -⟩ := h
  obtain ⟨⟨chunks', hcontent', hbytes', hpages'⟩, hfooter', -⟩ := h'
  cases Except.ok.inj (hcontent.symm.trans hcontent')
  obtain ⟨rfl, -⟩ := Prod.mk.inj (Except.ok.inj (hfooter.symm.trans hfooter'))
  have hends := List.append_cancel_right (hbytes.symm.trans hbytes')
  obtain rfl : word = word' := List.append_cancel_left hends
  obtain rfl : headers = headers' := hpages.unique hpages'
  rfl

/-- each number in the bits of its field -/
structure Stores (w : FileWriter) (p : Parts) : Prop where
  ordinals : p.metadata.rowGroups.map RowGroup.ordinal =
    (List.range w.rowGroups.length).map fun i => some (Int16.ofNat i)
  columns : p.metadata.schema.head?.bind SchemaElement.numChildren =
    some (Int32.ofNat w.specs.length)
  pages : List.Forall₂ PageCount.In w.pageCounts p.headers
  word : p.word = toLE 4 p.footer.length

/-- each number as it is: the row groups are numbered as they stand, the root of the schema has as
many children as there are columns, the pages have as many slots and entries as their headers say,
and the footer has as many bytes as the word behind it says -/
structure Exact (w : FileWriter) (p : Parts) : Prop where
  ordinals : p.metadata.rowGroups.map (fun g => g.ordinal.map Int16.toInt) =
    (List.range w.rowGroups.length).map fun (i : Nat) => some (i : Int)
  columns : (p.metadata.schema.head?.bind SchemaElement.numChildren).map Int32.toInt =
    some (w.specs.length : Int)
  pages : List.Forall₂ PageCount.Exact w.pageCounts p.headers
  word : fromLE p.word = p.footer.length

/-- the numbers fit: those of row groups in 15 bits, those of columns and of the slots of a page in
31, and the length of the footer in 32 -/
structure NumbersFit (w : FileWriter) (p : Parts) : Prop where
  rowGroups : w.rowGroups.length ≤ 2 ^ 15
  columns : w.specs.length < 2 ^ 31
  pages : ∀ columns ∈ w.rowGroups, ∀ values ∈ columns.take w.columns.length,
    min w.pageRows values.size < 2 ^ 31
  footer : p.footer.length < 2 ^ 32

/-! ## what is stored -/

theorem rowGroup_ordinal {start ordinal : Nat} {columns : List ColumnValues} {g : Written RowGroup}
    (h : w.rowGroup start ordinal columns = .ok g) :
    g.record.ordinal = some (Int16.ofNat ordinal) := by
  rw [rowGroup] at h
  split at h
  · cases h
  · obtain ⟨cs, -, h₁⟩ := Except.bind_eq_ok.mp h
    cases h₁
    rfl

/-- row groups are numbered as they stand -/
theorem ordinals_laysOut {start i : Nat} {groups : List (List ColumnValues)}
    {gs : Written (List RowGroup)} (h : LaysOut w.rowGroup start i groups gs) :
    gs.record.map RowGroup.ordinal =
      (List.range' i groups.length).map fun i => some (Int16.ofNat i) := by
  induction h with
  | nil => rfl
  | cons h _ ih =>
    rw [List.map_cons, List.length_cons, List.range'_succ, List.map_cons, ih, rowGroup_ordinal h]

theorem ordinals_content {chunks : Bytes} {m : FileMetaData} (h : w.content = .ok ⟨chunks, m⟩) :
    m.rowGroups.map RowGroup.ordinal =
      (List.range w.rowGroups.length).map fun i => some (Int16.ofNat i) := by
  obtain ⟨-, gs, hgs, heq⟩ := content_ok h
  cases heq
  rw [List.range_eq_range']
  exact ordinals_laysOut (groups_laysOut _ hgs)

/-- the numbers of a file that was written are in the bits of their fields -/
theorem exists_stores {bytes : Bytes} (h : w.finish = .ok bytes) :
    ∃ p : Parts, p.Of w bytes ∧ w.Stores p := by
  obtain ⟨-, gs, footer, hgs, hcontent, hfooter, hbytes⟩ := finish_parts h
  obtain ⟨headers, hin, hpages⟩ := groups_fill hgs defaultMagic
    (footer ++ toLE 4 footer.length ++ defaultMagic)
  have hfile : bytes = defaultMagic ++ gs.bytes ++
      (footer ++ toLE 4 footer.length ++ defaultMagic) := by
    rw [hbytes]
    simp only [List.append_assoc]
  rw [← hfile] at hpages
  exact ⟨⟨w.metadata gs.record, headers, footer, toLE 4 footer.length⟩,
    ⟨⟨gs.bytes, hcontent, hbytes, hpages⟩, hfooter, toLE_length 4 _⟩,
    ⟨ordinals_content hcontent, rfl, hin, rfl⟩⟩

/-! ## what fits -/

theorem ordinals_exact_iff {gs : List RowGroup} {n : Nat}
    (h : gs.map RowGroup.ordinal = (List.range n).map fun i => some (Int16.ofNat i)) :
    gs.map (fun g => g.ordinal.map Int16.toInt) =
        (List.range n).map (fun (i : Nat) => some (i : Int)) ↔ n ≤ 2 ^ 15 := by
  have hread : gs.map (fun g => g.ordinal.map Int16.toInt) =
      (List.range n).map fun i => some (Int16.ofNat i).toInt := by
    have hmap := congrArg (List.map (Option.map Int16.toInt)) h
    rw [List.map_map, List.map_map] at hmap
    exact hmap
  rw [hread, List.map_inj_left]
  refine ⟨fun hall => ?_, fun hn i hi => ?_⟩
  · by_contra hn
    have hlast := Option.some.inj (hall (2 ^ 15) (List.mem_range.mpr (by omega)))
    have hlt := (Int16.ofNat (2 ^ 15)).toInt_lt
    omega
  · have hlt := List.mem_range.mp hi
    rw [Int16.toInt_ofNat_of_lt (by omega)]

theorem slots_mem_columnCounts {i n : Nat} {column : ColumnSpec × ColumnValues} :
    .slots n ∈ w.columnCounts i column ↔ i < w.columns.length ∧
      ∃ piece ∈ piecesOf w.pageRows (column.2.data.map (·.map Datum.plain)),
        piece.length = n := by
  rw [columnCounts]
  split
  · rename_i hi
    simp [ColumnWriter.pageCounts, columnWriter, hi]
  · rename_i hi
    simp [hi]

/-- the slots of a data page are those of a piece of a regular column -/
theorem slots_mem_pageCounts (hlen : ∀ columns ∈ w.rowGroups, columns.length = w.specs.length)
    {n : Nat} : .slots n ∈ w.pageCounts ↔ ∃ columns ∈ w.rowGroups,
      ∃ values ∈ columns.take w.columns.length,
        ∃ piece ∈ piecesOf w.pageRows (values.data.map (·.map Datum.plain)), piece.length = n := by
  rw [pageCounts, List.mem_flatMap]
  refine exists_congr fun columns => and_congr_right fun hcolumns => ?_
  rw [groupCounts, List.mem_flatMap]
  constructor
  · rintro ⟨⟨⟨spec, values⟩, i⟩, hcolumn, hmem⟩
    obtain ⟨hi, hpiece⟩ := slots_mem_columnCounts.mp hmem
    have hvalues := (List.getElem?_zip_eq_some.mp (List.mem_zipIdx_iff_getElem?.mp hcolumn)).2
    rw [← List.getElem?_take_of_lt hi] at hvalues
    exact ⟨values, List.mem_of_getElem? hvalues, hpiece⟩
  · rintro ⟨values, hvalues, hpiece⟩
    obtain ⟨i, hi, rfl⟩ := List.mem_take_iff_getElem.mp hvalues
    obtain ⟨hregular, hi⟩ := Nat.lt_min.mp hi
    have hspec : i < w.specs.length := hlen columns hcolumns ▸ hi
    have hpair : (w.specs.zip columns)[i]? = some (w.specs[i], columns[i]) :=
      List.getElem?_zip_eq_some.mpr ⟨List.getElem?_eq_getElem hspec, List.getElem?_eq_getElem hi⟩
    refine ⟨((w.specs[i], columns[i]), i), List.mem_zipIdx_iff_getElem?.mpr hpair, ?_⟩
    exact slots_mem_columnCounts.mpr ⟨hregular, hpiece⟩

/-- the slots of all data pages fit just when those of the largest page of each column do -/
theorem pageCounts_lt_iff (hrows : 0 < w.pageRows)
    (hlen : ∀ columns ∈ w.rowGroups, columns.length = w.specs.length)
    (hentries : ∀ n, .entries n ∈ w.pageCounts → n < 2 ^ 31) :
    (∀ c ∈ w.pageCounts, c.size < 2 ^ 31) ↔ ∀ columns ∈ w.rowGroups,
      ∀ values ∈ columns.take w.columns.length, min w.pageRows values.size < 2 ^ 31 := by
  have hsize (values : ColumnValues) :
      (values.data.map (·.map Datum.plain)).length = values.size := List.length_map _
  refine ⟨fun h columns hcolumns values hvalues => ?_, fun h c hc => ?_⟩
  · rw [← hsize]
    refine (ColumnWriter.pieces_lt_iff (w := w.columnWriter) hrows).mp fun piece hpiece => ?_
    exact h _ ((slots_mem_pageCounts hlen).mpr ⟨columns, hcolumns, values, hvalues, piece, hpiece,
      rfl⟩)
  · cases c with
    | entries n => exact hentries n hc
    | slots n =>
      obtain ⟨columns, hcolumns, values, hvalues, piece, hpiece, rfl⟩ :=
        (slots_mem_pageCounts hlen).mp hc
      have hmin := h columns hcolumns values hvalues
      rw [← hsize] at hmin
      exact (ColumnWriter.pieces_lt_iff (w := w.columnWriter) hrows).mpr hmin piece hpiece

/-- numbers that are stored are exact just when they fit -/
theorem Stores.exact_iff {p : Parts} (hs : w.Stores p) (hrows : 0 < w.pageRows)
    (hlen : ∀ columns ∈ w.rowGroups, columns.length = w.specs.length) :
    w.Exact p ↔ w.NumbersFit p := by
  have hcolumns : (p.metadata.schema.head?.bind SchemaElement.numChildren).map Int32.toInt =
      some (w.specs.length : Int) ↔ w.specs.length < 2 ^ 31 := by
    rw [hs.columns, ← PageCount.toInt_ofNat_iff]
    exact Option.some_inj
  have hpages := (PageCount.forall₂_exact_iff hs.pages).trans
    (pageCounts_lt_iff hrows hlen (PageCount.entries_lt hs.pages))
  have hword : fromLE p.word = p.footer.length ↔ p.footer.length < 2 ^ 32 := by
    rw [hs.word, fromLE_toLE]
    exact Nat.mod_eq_iff_lt (by decide)
  exact ⟨fun h => ⟨(ordinals_exact_iff hs.ordinals).mp h.ordinals, hcolumns.mp h.columns,
      hpages.mp h.pages, hword.mp h.word⟩,
    fun h => ⟨(ordinals_exact_iff hs.ordinals).mpr h.rowGroups, hcolumns.mpr h.columns,
      hpages.mpr h.pages, hword.mpr h.footer⟩⟩

/-- A file that was written has its parts where they are said to stand, and stores its numbers in
the bits of their fields.  They are what they stand for just when they fit: the numbers of the row
groups, of the columns, of the slots of each data page and of the bytes of the footer.  The entries
of a dictionary and the values of a delta column always fit. -/
theorem finish_exact_iff {bytes : Bytes} (h : w.finish = .ok bytes) :
    (∃ p : Parts, p.Of w bytes) ∧
      ∀ p : Parts, p.Of w bytes → w.Stores p ∧ (w.Exact p ↔ w.NumbersFit p) := by
  obtain ⟨hrows, gs, -, hgs, -⟩ := finish_parts h
  obtain ⟨p, hof, hs⟩ := exists_stores h
  refine ⟨⟨p, hof⟩, fun p' hof' => ?_⟩
  obtain rfl := hof.unique hof'
  refine ⟨hs, hs.exact_iff hrows fun columns hcolumns => ?_⟩
  obtain ⟨k, hk⟩ := List.getElem?_of_mem hcolumns
  obtain ⟨_, _, _, -, -, hgroup⟩ := (groups_laysOut _ hgs).getElem? hk
  exact (rowGroup_ok hgroup).1

/-- the numbers of a file with a dictionary and a delta column are exact -/
theorem finish_exact_iff_noted : noted.pageCounts = [.entries 1, .slots 2, .entries 1] ∧
    ∃ bytes p, noted.finish = .ok bytes ∧ Parts.Of p noted bytes ∧ noted.Exact p := by
  refine ⟨by cbv, ?_⟩
  have hsize := finish_noted
  cases hfinish : noted.finish with
  | error e =>
    rw [hfinish] at hsize
    cases hsize
  | ok bytes =>
    rw [hfinish] at hsize
    replace hsize : bytes.length = 193 := Except.ok.inj hsize
    obtain ⟨⟨p, hof⟩, hall⟩ := finish_exact_iff hfinish
    obtain ⟨-, hexact⟩ := hall p hof
    obtain ⟨chunks, hcontent, -⟩ := hof.parts
    have hfooter := length_footer hfinish _ hcontent _ _ hof.footer
    exact ⟨bytes, p, rfl, hof, hexact.mpr ⟨by decide, by decide, by decide, by omega⟩⟩

/-! ## a number that does not fit -/

/-- row groups without columns -/
def bare (n : Nat) : FileWriter := { columns := [], rowGroups := List.replicate n [] }

theorem groups_bare (m n : Nat) : ∀ start ordinal, ∃ gs,
    (bare m).groups start ordinal (List.replicate n []) = .ok gs ∧ gs.record.length = n ∧
      ∀ g ∈ gs.record, g.columns = [] := by
  induction n with
  | zero => exact fun _ _ => ⟨⟨[], []⟩, rfl, rfl, List.forall_mem_nil _⟩
  | succ n ih =>
    intro start ordinal
    obtain ⟨g, hg, hcolumns⟩ : ∃ g, (bare m).rowGroup start ordinal [] = .ok g ∧
        g.record.columns = [] := ⟨_, rfl, rfl⟩
    obtain ⟨gs, hgs, hlen, hall⟩ := ih (start + g.bytes.length) (ordinal + 1)
    refine ⟨⟨g.bytes ++ gs.bytes, g.record :: gs.record⟩, ?_, congrArg (· + 1) hlen,
      List.forall_mem_cons.mpr ⟨hcolumns, hall⟩⟩
    rw [List.replicate_succ, groups, hg]
    exact Except.bind_eq_ok.mpr ⟨g, rfl, Except.bind_eq_ok.mpr ⟨gs, hgs, rfl⟩⟩

/-- row groups without columns are written, as many of them as a reader takes by default -/
theorem exists_finish_bare {n : Nat} (hn : n ≤ ({} : Options).containerLimit) :
    ∃ bytes, (bare n).finish = .ok bytes := by
  obtain ⟨gs, hgs, hlen, hall⟩ := groups_bare n n defaultMagic.length 0
  have hroot : TextFits {} "schema" := by decide
  have hone : 1 ≤ ({} : Options).containerLimit := by decide
  have hwithin : ((bare n).metadata gs.record).Within {} := by
    refine ⟨⟨fitsList_default hone, List.forall_mem_singleton.mpr ⟨hroot⟩⟩,
      ⟨fitsList_default (hlen.symm ▸ hn), fun g hg => ⟨?_, ?_⟩⟩, (fun _ h => nomatch h),
      forall_mem_some (by decide)⟩
    · rw [hall g hg]
      exact fitsList_default (by decide)
    · rw [hall g hg]
      exact List.forall_mem_nil _
  obtain ⟨footer, hencode, -⟩ := Format.roundTrips_of_carried (d := 5) (by decide)
    (FileMetaData.carried (d := 0) hwithin)
  have hcontent : (bare n).content = .ok ⟨gs.bytes, (bare n).metadata gs.record⟩ :=
    Except.bind_eq_ok.mpr ⟨gs, hgs, rfl⟩
  exact ⟨_, Except.bind_eq_ok.mpr ⟨_, hcontent, Except.bind_eq_ok.mpr ⟨_, hencode [], rfl⟩⟩⟩

/-- the row group behind as many as can be numbered is numbered below zero -/
theorem not_finish_exact : ∃ bytes, (bare 32769).finish = .ok bytes ∧
    ∀ p : Parts, p.Of (bare 32769) bytes →
      p.metadata.rowGroups[32768]?.map RowGroup.ordinal = some (some (-32768)) ∧
        ¬ (bare 32769).Exact p := by
  obtain ⟨bytes, hfinish⟩ := exists_finish_bare (n := 32769) (by decide)
  refine ⟨bytes, hfinish, fun p hof => ?_⟩
  obtain ⟨chunks, hcontent, -⟩ := hof.parts
  have hordinals := ordinals_content hcontent
  have hlen : (bare 32769).rowGroups.length = 32769 := List.length_replicate
  rw [hlen] at hordinals
  constructor
  · rw [← List.getElem?_map, hordinals, List.getElem?_map, List.getElem?_range (by decide)]
    rfl
  · intro hexact
    have hfits := hexact.ordinals
    rw [hlen] at hfits
    have hle := (ordinals_exact_iff hordinals).mp hfits
    omega

end FileWriter

end Columnar
