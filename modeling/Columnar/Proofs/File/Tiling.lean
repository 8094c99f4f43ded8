import Columnar.Proofs.Column.Pages
import Columnar.Proofs.File.RoundTrip
import Columnar.Proofs.Record.Counted

/-!
# A file lies as its footer says

What the metadata of a file says of places and sizes is what the bytes of the file are: the chunks
fill the file from its first signature up to the footer, each row group is its chunks, and each
chunk is its pages.

* `Tiles lo cs hi`            chunks lie from `lo` to `hi`, each where its record says;
* `RowGroup.Spans g lo hi`    so do the chunks of a row group, which has that place and size;
* `FileWriter.Sized w bytes`  what the theorem is about fits the fields that it is stored in;
* `FileWriter.finish_laid`    how a file lies that was written.
-/

namespace Columnar

/-! ## chunks one behind the other -/

/-- chunks lie one behind the other from `lo` to `hi`, without a gap and without an overlap, each of
them where its record says and of the size that it says -/
def Tiles : Nat → List ColumnChunk → Nat → Prop
  | lo, [], hi => lo = hi
  | lo, c :: cs, hi => ∃ m, ∃ size : Nat, c.metaData = some m ∧ m.start = lo ∧
      m.totalCompressedSize.toInt = size ∧ Tiles (lo + size) cs hi

theorem tiles_append {cs cs' : List ColumnChunk} {mid hi : Nat} (h' : Tiles mid cs' hi) :
    ∀ {lo : Nat}, Tiles lo cs mid → Tiles lo (cs ++ cs') hi := by
  induction cs with
  | nil =>
    rintro lo rfl
    exact h'
  | cons c cs ih =>
    rintro lo ⟨m, size, hm, hstart, hsize, hrest⟩
    exact ⟨m, size, hm, hstart, hsize, ih hrest⟩

/-- parts that were written one behind the other lie so, when the chunks of each part do -/
theorem LaysOut.tiles {α β : Type} {write : Nat → Nat → α → Except Error (Written β)}
    {chunks : β → List ColumnChunk}
    (hwrite : ∀ start i a w, write start i a = .ok w → start + w.bytes.length < 2 ^ 63 →
      Tiles start (chunks w.record) (start + w.bytes.length))
    {start i : Nat} {as : List α} {ws : Written (List β)} (h : LaysOut write start i as ws)
    (hend : start + ws.bytes.length < 2 ^ 63) :
    Tiles start (ws.record.flatMap chunks) (start + ws.bytes.length) := by
  induction h with
  | nil => exact rfl
  | @cons start i a as w ws h _ ih =>
    have hlen : start + (w.bytes ++ ws.bytes).length =
        start + w.bytes.length + ws.bytes.length := by
      rw [List.length_append, Nat.add_assoc]
    show Tiles start (chunks w.record ++ ws.record.flatMap chunks) (start + (w.bytes ++ _).length)
    replace hend : start + (w.bytes ++ ws.bytes).length < 2 ^ 63 := hend
    rw [hlen] at hend ⊢
    exact tiles_append (ih hend) (hwrite start i a w h (by omega))

/-- a row group lies from `lo` to `hi`, as its record says, and its chunks fill that place -/
structure RowGroup.Spans (g : RowGroup) (lo hi : Nat) : Prop where
  fileOffset : g.fileOffset.map Int64.toInt = some (lo : Int)
  totalByteSize : g.totalByteSize.toInt = hi - lo
  totalCompressedSize : g.totalCompressedSize.map Int64.toInt = some (hi - lo : Int)
  chunks : Tiles lo g.columns hi

namespace FileWriter

variable {w : FileWriter} {start : Nat}

theorem chunk_tiles {rows : Nat} {regular : Bool} {spec : ColumnSpec} {values : ColumnValues}
    {c : Written ColumnChunk} (h : w.chunk rows start regular spec values = .ok c)
    (hend : start + c.bytes.length < 2 ^ 63) :
    Tiles start [c.record] (start + c.bytes.length) := by
  obtain ⟨m, _, _, hrecord, hm, -⟩ := chunk_record h
  rw [hrecord]
  refine ⟨m, c.bytes.length, rfl, hm.start_eq (by omega), ?_, rfl⟩
  rw [hm.size, Int64.toInt_ofNat_of_lt (by omega)]

/-- a row group lies where it was written -/
theorem rowGroup_spans {ordinal : Nat} {columns : List ColumnValues} {g : Written RowGroup}
    (h : w.rowGroup start ordinal columns = .ok g) (hend : start + g.bytes.length < 2 ^ 63) :
    g.record.Spans start (start + g.bytes.length) := by
  obtain ⟨-, rows, hlays⟩ := rowGroup_ok h
  have hchunks : Tiles start (g.record.columns.flatMap fun c => [c]) (start + g.bytes.length) :=
    hlays.tiles (fun _ _ _ _ hc hlt => chunk_tiles hc hlt) hend
  rw [List.flatMap_singleton'] at hchunks
  have hsize : (Int64.ofNat g.bytes.length).toInt = (start + g.bytes.length : Nat) - start := by
    rw [Int64.toInt_ofNat_of_lt (by omega)]
    omega
  rw [rowGroup] at h
  split at h
  · cases h
  · obtain ⟨cs, -, h₁⟩ := Except.bind_eq_ok.mp h
    cases h₁
    refine ⟨?_, hsize, congrArg some hsize, hchunks⟩
    exact congrArg some (Int64.toInt_ofNat_of_lt (by omega))

/-- what a file says of places, sizes and counts fits the fields that it is stored in: the places in
64 bits with a sign, the length of the footer in 32, the slots of a page in 31, and those of a regular
chunk in 63 -/
structure Sized (w : FileWriter) (bytes : Bytes) : Prop where
  bytes : bytes.length < 2 ^ 63
  footer : ∀ c, w.content = .ok c → ∀ bs len, FileMetaData.format.encode c.record = .ok (bs, len) →
    bs.length < 2 ^ 32
  pages : ∀ columns ∈ w.rowGroups, ∀ values ∈ columns.take w.columns.length,
    min w.pageRows values.size < 2 ^ 31
  slots : ∀ columns ∈ w.rowGroups, ∀ values ∈ columns.take w.columns.length, values.size < 2 ^ 63

/-- the footer of a file stands behind its row groups, and in front of its own length -/
theorem finish_parts {bytes : Bytes} (h : w.finish = .ok bytes) : 0 < w.pageRows ∧
    ∃ gs footer, w.groups 4 0 w.rowGroups = .ok gs ∧
      w.content = .ok ⟨gs.bytes, w.metadata gs.record⟩ ∧
      FileMetaData.format.encode (w.metadata gs.record) = .ok (footer, footer.length) ∧
      bytes = defaultMagic ++ gs.bytes ++ footer ++ toLE 4 footer.length ++ defaultMagic := by
  obtain ⟨c, hc, h₁⟩ := Except.bind_eq_ok.mp h
  obtain ⟨⟨footer, len⟩, hfooter, h₂⟩ := Except.bind_eq_ok.mp h₁
  cases h₂
  obtain ⟨hrows, gs, hgs, rfl⟩ := content_ok hc
  obtain rfl := Format.length_of_encode FileMetaData.shape.built hfooter
  exact ⟨hrows, gs, footer, hgs, hc, hfooter, rfl⟩

/-- a regular chunk of a file has its pages where they are said to be -/
theorem regular_paged {bytes behind : Bytes} {k j : Nat} {g : RowGroup}
    {gs : Written (List RowGroup)} (hs : w.Sized bytes) (hrows : 0 < w.pageRows)
    (hgs : w.groups 4 0 w.rowGroups = .ok gs)
    (hbytes : bytes = defaultMagic ++ gs.bytes ++ behind) (hg : gs.record[k]? = some g)
    (hj : j < w.columns.length) :
    ∃ c m lo mid hi dictionary data, g.columns[j]? = some c ∧ c.metaData = some m ∧
      m.Paged bytes w.statistics lo mid hi dictionary data := by
  obtain ⟨columns, _, _, _, hcolumns, -, -, hgroup⟩ := (groups_laysOut _ hgs).part hg
  obtain ⟨hlen, -⟩ := rowGroup_ok hgroup
  have hjs : j < w.specs.length := by
    rw [specs, List.length_append]
    omega
  obtain ⟨values, hvalues⟩ : ∃ values, columns[j]? = some values :=
    ⟨_, List.getElem?_eq_getElem (hlen ▸ hjs)⟩
  obtain ⟨g', c, rows, front, after, hg', hc, hlies, hchunk⟩ :=
    chunk_lies hgs hcolumns (List.getElem?_eq_getElem hjs) hvalues
  obtain rfl : g = g' := Option.some.inj (hg.symm.trans hg')
  rw [decide_eq_true hj] at hchunk
  obtain ⟨-, ⟨hregular, -⟩ | ⟨_, -, hfalse, -⟩⟩ := chunk_ok hchunk
  · have hmem : values ∈ columns.take w.columns.length := by
      refine List.mem_of_getElem? (i := j) ?_
      rw [List.getElem?_take_of_lt hj, hvalues]
    have hgroups := List.mem_of_getElem? hcolumns
    have hfile : bytes = (defaultMagic ++ front) ++ c.bytes ++ (after ++ behind) := by
      rw [hbytes, hlies]
      simp only [List.append_assoc]
    have hfront : (defaultMagic ++ front).length = 4 + front.length := List.length_append
    obtain ⟨-, hwrite⟩ := regularChunk_ok hregular
    rw [← hfront] at hwrite
    have hend : (defaultMagic ++ front).length + c.bytes.length < 2 ^ 63 := by
      have hlt := hs.bytes
      rw [hfile, List.length_append, List.length_append] at hlt
      omega
    obtain ⟨m, mid, dictionary, data, hrecord, hpaged⟩ := ColumnWriter.chunk_paged hrows
      (hs.pages columns hgroups values hmem) (hs.slots columns hgroups values hmem) hwrite hend
      (after ++ behind)
    rw [← hfile] at hpaged
    exact ⟨c.record, m, _, mid, _, dictionary, data, hc, by rw [hrecord], hpaged⟩
  · cases hfalse

/-- a file is its signature, its chunks, its metadata with their length, and its signature.  The
chunks fill the bytes between the first signature and the metadata, in the order of the row groups
and their columns, each where the metadata say; the chunks of a row group fill the place that is
noted for it; and a regular chunk is its dictionary and its data pages, each header in front of its
body, which count what the metadata say -/
theorem finish_laid {bytes : Bytes} (h : w.finish = .ok bytes) (hs : w.Sized bytes) :
    ∃ chunks m footer, w.content = .ok ⟨chunks, m⟩ ∧
      bytes = defaultMagic ++ chunks ++ footer ++ toLE 4 footer.length ++ defaultMagic ∧
      FileMetaData.format.encode m = .ok (footer, footer.length) ∧
      fromLE (toLE 4 footer.length) = footer.length ∧
      Tiles 4 (m.rowGroups.flatMap RowGroup.columns) (4 + chunks.length) ∧
      m.rowGroups.length = w.rowGroups.length ∧
      ∀ g ∈ m.rowGroups, g.columns.length = w.specs.length ∧ (∃ lo hi, g.Spans lo hi) ∧
        ∀ j < w.columns.length, ∃ c cm lo mid hi dictionary data, g.columns[j]? = some c ∧
          c.metaData = some cm ∧ cm.Paged bytes w.statistics lo mid hi dictionary data := by
  obtain ⟨hrows, gs, footer, hgs, hcontent, hfooter, hbytes⟩ := finish_parts h
  have hlays := groups_laysOut _ hgs
  have hend : 4 + gs.bytes.length < 2 ^ 63 := by
    have hlt := hs.bytes
    rw [hbytes] at hlt
    simp only [List.length_append] at hlt
    have hmagic : defaultMagic.length = 4 := rfl
    omega
  refine ⟨gs.bytes, w.metadata gs.record, footer, hcontent, hbytes, hfooter, ?_, ?_, hlays.length,
    fun g hg => ?_⟩
  · rw [fromLE_toLE]
    exact Nat.mod_eq_of_lt (hs.footer _ hcontent _ _ hfooter)
  · exact hlays.tiles (fun _ _ _ _ hgroup hlt => (rowGroup_spans hgroup hlt).chunks) hend
  · obtain ⟨k, hk⟩ := List.getElem?_of_mem hg
    obtain ⟨columns, front, group, behind, -, hlies, rfl, hgroup⟩ := hlays.part hk
    obtain ⟨hlen, rows, hchunks⟩ := rowGroup_ok hgroup
    have hcolumns : group.record.columns.length = w.specs.length := by
      refine hchunks.length.trans ?_
      rw [List.length_zip, hlen, Nat.min_self]
    rw [hlies, List.length_append, List.length_append] at hend
    refine ⟨hcolumns, ⟨_, _, rowGroup_spans hgroup (by omega)⟩, fun j hj => ?_⟩
    exact regular_paged hs hrows hgs (by rw [hbytes, List.append_assoc _ footer, List.append_assoc])
      hk hj

/-- two columns with a dictionary and the number of empty slots -/
def noted : FileWriter := { FileReader.twoColumns with dictionary := true, statistics := true }

theorem finish_noted : noted.finish.map List.length = .ok 193 := by cbv

/-- the chunks of two columns fill the file, and the first one has its pages -/
theorem finish_laid_noted : ∃ bytes chunks m, noted.finish = .ok bytes ∧
    noted.content = .ok ⟨chunks, m⟩ ∧
    Tiles 4 (m.rowGroups.flatMap RowGroup.columns) (4 + chunks.length) ∧
    ∃ g ∈ m.rowGroups, ∃ c cm lo mid hi dictionary data, g.columns[0]? = some c ∧
      c.metaData = some cm ∧ cm.Paged bytes true lo mid hi dictionary data := by
  obtain ⟨bytes, hfinish, hlen⟩ : ∃ bytes, noted.finish = .ok bytes ∧ bytes.length = 193 := by
    have hsize := finish_noted
    rcases h : noted.finish with e | bytes
    · rw [h] at hsize
      cases hsize
    · rw [h] at hsize
      exact ⟨bytes, rfl, Except.ok.inj hsize⟩
  have hsized : noted.Sized bytes := by
    refine ⟨by rw [hlen]; decide, fun c hc bs len hfooter => ?_, by decide, by decide⟩
    have hle := length_footer hfinish c hc bs len hfooter
    omega
  obtain ⟨chunks, m, _, hcontent, -, -, -, htiles, hgroups, hall⟩ := finish_laid hfinish hsized
  have hlt : 0 < m.rowGroups.length := by
    rw [hgroups]
    decide
  have hmem := List.getElem_mem hlt
  obtain ⟨-, -, hchunks⟩ := hall _ hmem
  exact ⟨bytes, chunks, m, hfinish, hcontent, htiles, _, hmem, hchunks 0 (by decide)⟩

end FileWriter

end Columnar
