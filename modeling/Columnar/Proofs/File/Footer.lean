import Columnar.File.Footer
import Columnar.Proofs.File.Layout
import Columnar.Proofs.Record.Counted

/-!
# The footer of a file that was written

* `Footer.read_eq`                 the footer is found from the end of the file;
* `FileWriter.Limited w o`         the metadata of the file are within the limits of `o`;
* `FileWriter.Fits w`              what is written fits the fields that it is stored in;
* `FileWriter.finish_ok`           the metadata of a file that was written are read back;
* `FileWriter.validate_metadata`   and are valid;
* `FileWriter.slots w`             the slots that it takes.
-/

namespace Columnar

/-! ## finding the footer -/

/-- the footer of a file stands where it is looked for -/
theorem Footer.read_eq {o : Options} {body footer : Bytes} (hlen : footer.length < 2 ^ 32) :
    Footer.read (defaultMagic ++ body ++ footer ++ toLE 4 footer.length ++ defaultMagic) o =
      if defaultMagic ≠ o.magic then .error (Fault.badTrailingMagic defaultMagic)
      else ((FileMetaData.format.decode o footer).mapError
        (Failure.within (.footerAt (4 + body.length)))).map Prod.fst := by
  have hsize : (defaultMagic ++ body ++ footer ++ toLE 4 footer.length ++ defaultMagic).length =
      4 + body.length + footer.length + 8 := by
    simp only [List.length_append, toLE_length]
    rfl
  have hfront : (defaultMagic ++ body ++ footer).length = 4 + body.length + footer.length := by
    simp only [List.length_append]
    rfl
  have htrailer : (defaultMagic ++ body ++ footer ++ toLE 4 footer.length ++ defaultMagic).drop
      (4 + body.length + footer.length + 8 - Footer.trailerSize) =
        toLE 4 footer.length ++ defaultMagic := by
    rw [List.append_assoc _ (toLE 4 footer.length)]
    exact List.drop_left' hfront
  have hstart : 4 + body.length + footer.length + 8 - footer.length - Footer.trailerSize =
      4 + body.length := by
    show 4 + body.length + footer.length + 8 - footer.length - 8 = _
    omega
  have hfooter : ((defaultMagic ++ body ++ footer ++ toLE 4 footer.length ++ defaultMagic).drop
      (4 + body.length)).take footer.length = footer := by
    have hbody : (defaultMagic ++ body).length = 4 + body.length := List.length_append
    rw [List.append_assoc _ (toLE 4 footer.length), List.append_assoc (defaultMagic ++ body),
      List.drop_left' hbody, List.take_left]
  have hvalue : fromLE (toLE 4 footer.length) = footer.length := by
    rw [fromLE_toLE]
    exact Nat.mod_eq_of_lt hlen
  have hfour : (toLE 4 footer.length ++ defaultMagic).take 4 = toLE 4 footer.length :=
    List.take_left' (toLE_length 4 _)
  have hlast : (toLE 4 footer.length ++ defaultMagic).drop 4 = defaultMagic :=
    List.drop_left' (toLE_length 4 _)
  have hfirst : (defaultMagic ++ body ++ footer ++ toLE 4 footer.length ++ defaultMagic).take 4 =
      defaultMagic := by
    simp only [List.append_assoc]
    exact List.take_left' rfl
  rw [Footer.read, hsize]
  dsimp only
  rw [htrailer, hlast, hfour, hvalue, hstart, hfooter, hfirst,
    if_neg (by show ¬ _ < 12; omega)]
  -- both signatures are held against the same one
  by_cases hmagic : defaultMagic = o.magic
  · rw [if_neg (not_not_intro hmagic), if_neg (not_not_intro hmagic),
      if_neg (by show ¬ 4 + body.length + footer.length + 8 - 12 < _; omega)]
    rcases FileMetaData.format.decode o footer with e | ⟨metadata, n⟩
    · rfl
    · exact if_neg (not_not_intro hmagic)
  · rw [if_pos hmagic, if_pos hmagic]

theorem Footer.read_append {o : Options} {metadata : FileMetaData} {body footer : Bytes}
    (hmagic : o.magic = defaultMagic) (hlen : footer.length < 2 ^ 32)
    (hdecode : FileMetaData.format.decode o footer = .ok (metadata, footer.length)) :
    Footer.read (defaultMagic ++ body ++ footer ++ toLE 4 footer.length ++ defaultMagic) o =
      .ok metadata := by
  rw [Footer.read_eq hlen, if_neg (not_not_intro hmagic.symm), hdecode]
  rfl

/-- metadata that were read are what the footer says -/
theorem Footer.decode_of_read {o : Options} {metadata : FileMetaData} {body footer : Bytes}
    (hlen : footer.length < 2 ^ 32)
    (h : Footer.read (defaultMagic ++ body ++ footer ++ toLE 4 footer.length ++ defaultMagic) o =
      .ok metadata) : ∃ n, FileMetaData.format.decode o footer = .ok (metadata, n) := by
  rw [Footer.read_eq hlen] at h
  split at h
  · cases h
  · rcases hdecode : FileMetaData.format.decode o footer with e | ⟨m, n⟩
    · rw [hdecode] at h
      cases h
    · rw [hdecode] at h
      cases h
      exact ⟨n, rfl⟩

/-! ## what fits -/

theorem fits_default {n : Nat} (h : n ≤ ({} : Options).stringLimit) : Fits {} n :=
  ⟨h, Nat.le_trans h (by decide)⟩

theorem fitsList_default {n : Nat} {kind : RecordKind}
    (h : n ≤ ({} : Options).containerLimit) : FitsList {} n kind.room := by
  refine ⟨Or.inr h, Nat.le_trans (Nat.mul_le_mul_right kind.room h) ?_⟩
  cases kind <;> decide

theorem FitsList.of_le {o : Options} {m n room : Nat} (h : FitsList o n room) (hmn : m ≤ n) :
    FitsList o m room :=
  ⟨h.1.imp (Nat.lt_of_le_of_lt hmn) (Nat.le_trans hmn),
    Nat.le_trans (Nat.mul_le_mul_right room hmn) h.2⟩

namespace FileWriter

/-- the texts and the lists of the metadata of a file are within the limits of `o`, and memory
holds them -/
structure Limited (w : FileWriter) (o : Options) : Prop where
  name : ∀ spec ∈ w.specs, TextFits o spec.name
  createdBy : ∀ t ∈ w.createdBy, TextFits o t
  schema : ∀ kind : RecordKind, FitsList o w.schema.length kind.room
  rowGroups : ∀ kind : RecordKind, FitsList o w.rowGroups.length kind.room
  /-- the root of the schema has a name of its own -/
  root : TextFits o "schema"

/-- what a file holds fits the fields that it is stored in and the limits of a reader with the
default options; no list is as long as 2 ^ 63 -/
structure Fits (w : FileWriter) : Prop where
  type : ∀ spec ∈ w.columns, spec.type ≠ .int96
  length : ∀ spec ∈ w.columns, spec.type = .fixedLenByteArray → ∀ n ∈ spec.typeLength, 0 ≤ n
  name : ∀ spec ∈ w.specs, (Utf8.encode spec.name).length ≤ ({} : Options).stringLimit
  createdBy : ∀ t ∈ w.createdBy, (Utf8.encode t).length ≤ ({} : Options).stringLimit
  schema : w.schema.length ≤ ({} : Options).containerLimit
  rowGroups : w.rowGroups.length ≤ ({} : Options).containerLimit
  /-- the slots of a page and the entries of a dictionary are counted in 31 bits -/
  counts : ∀ columns ∈ w.rowGroups, ∀ column ∈ w.columns.zip columns,
    w.columnWriter.Counts column.1 column.2
  /-- the length of the footer is stored in 32 bits -/
  footer : ∀ c, w.content = .ok c → ∀ bs len, FileMetaData.format.encode c.record = .ok (bs, len) →
    bs.length < 2 ^ 32
  size : ∀ columns ∈ w.rowGroups, ∀ values ∈ columns, values.size < 2 ^ 63
  bytes : ∀ bytes, w.finish = .ok bytes → bytes.length < 2 ^ 63

variable {w : FileWriter} {o : Options}

theorem Fits.limited (h : w.Fits) : w.Limited {} where
  name spec hspec := fits_default (h.name spec hspec)
  createdBy t ht := fits_default (h.createdBy t ht)
  schema _ := fitsList_default h.schema
  rowGroups _ := fitsList_default h.rowGroups
  root := by decide

/-- the footer is no longer than the file -/
theorem length_footer {bytes : Bytes} (h : w.finish = .ok bytes) : ∀ c, w.content = .ok c →
    ∀ bs len, FileMetaData.format.encode c.record = .ok (bs, len) → bs.length ≤ bytes.length := by
  intro c hc bs len hfooter
  obtain ⟨c', hc', h₁⟩ := Except.bind_eq_ok.mp h
  obtain rfl := Except.ok.inj (hc.symm.trans hc')
  obtain ⟨footer, hfooter', h₂⟩ := Except.bind_eq_ok.mp h₁
  obtain rfl := Except.ok.inj (hfooter.symm.trans hfooter')
  cases h₂
  simp only [List.length_append]
  omega

theorem type_of_mem_specs (h : w.Fits) : ∀ spec ∈ w.specs, spec.type ≠ .int96 := by
  intro spec hspec
  rw [specs] at hspec
  rcases List.mem_append.mp hspec with hspec | hspec
  · exact h.type spec hspec
  · obtain ⟨name, -, rfl⟩ := List.mem_map.mp hspec
    exact fun h => nomatch h

theorem content_ok {c : Written FileMetaData} (h : w.content = .ok c) : 0 < w.pageRows ∧
    ∃ gs, w.groups defaultMagic.length 0 w.rowGroups = .ok gs ∧
      c = ⟨gs.bytes, w.metadata gs.record⟩ := by
  rw [content] at h
  split at h
  · cases h
  · rename_i hrows
    obtain ⟨gs, hgs, h₁⟩ := Except.bind_eq_ok.mp h
    cases h₁
    exact ⟨Nat.pos_of_ne_zero hrows, gs, hgs, rfl⟩

/-- a row group has a chunk for each column, of its type and within the limits -/
theorem columns_of_mem (h : ∀ spec ∈ w.specs, TextFits o spec.name) {start : Nat}
    {gs : Written (List RowGroup)} (hgs : w.groups start 0 w.rowGroups = .ok gs) :
    ∀ g ∈ gs.record, g.columns.length = w.specs.length ∧ ∀ (j : Nat) (chunk : ColumnChunk),
      g.columns[j]? = some chunk → ∃ (spec : ColumnSpec) (m : ColumnMetaData),
        w.specs[j]? = some spec ∧ chunk = ⟨none, 0, some m⟩ ∧
        m.physicalType = spec.type ∧ m.Within o := by
  intro g hg
  obtain ⟨columns, -, start, i, g, hwrite, rfl⟩ := (groups_laysOut _ hgs).exists_of_mem g hg
  obtain ⟨hlen, rows, hlays⟩ := rowGroup_ok hwrite
  have hcolumns : g.record.columns.length = w.specs.length := by
    refine hlays.length.trans ?_
    rw [List.length_zip, hlen, Nat.min_self]
  refine ⟨hcolumns, fun j chunk hj => ?_⟩
  have hlt : j < w.specs.length := by
    rw [← hcolumns]
    exact (List.getElem?_eq_some_iff.mp hj).1
  have hspec := List.getElem?_eq_getElem hlt
  obtain ⟨values, hvalues⟩ : ∃ values, columns[j]? = some values :=
    ⟨_, List.getElem?_eq_getElem (hlen ▸ hlt)⟩
  have hpair : (w.specs.zip columns)[j]? = some (w.specs[j], values) :=
    List.getElem?_zip_eq_some.mpr ⟨hspec, hvalues⟩
  obtain ⟨_, c, _, -, hrecord, hc⟩ := hlays.getElem? hpair
  obtain ⟨m, _, _, hm, hdescribes, hwithin⟩ := chunk_record hc
  have hchunk : some chunk = some c.record := hj.symm.trans hrecord
  cases hchunk
  exact ⟨_, m, hspec, hm, hdescribes.type, hwithin o (h _ (List.getElem_mem hlt))⟩

/-- the metadata of a file are within the limits -/
theorem metadata_within (h : w.Limited o) {start : Nat} {gs : Written (List RowGroup)}
    (hgs : w.groups start 0 w.rowGroups = .ok gs) : (w.metadata gs.record).Within o := by
  have hlen : gs.record.length = w.rowGroups.length := (groups_laysOut _ hgs).length
  refine ⟨⟨h.schema _, ?_⟩, ⟨(h.rowGroups _).of_le (Nat.le_of_eq hlen),
    fun g hg => ⟨(h.schema _).of_le ?_, fun chunk hc => ?_⟩⟩, (fun _ h => nomatch h), h.createdBy⟩
  · refine List.forall_mem_cons.mpr ⟨⟨h.root⟩, fun s hs => ?_⟩
    obtain ⟨spec, hspec, rfl⟩ := List.mem_map.mp hs
    exact ⟨h.name spec hspec⟩
  · rw [(columns_of_mem h.name hgs g hg).1, schema, List.length_cons, List.length_map]
    exact Nat.le_succ _
  · obtain ⟨j, hj⟩ := List.getElem?_of_mem hc
    obtain ⟨spec, m, -, rfl, -, hwithin⟩ := (columns_of_mem h.name hgs g hg).2 j chunk hj
    exact ⟨(fun _ h => nomatch h), forall_mem_some hwithin⟩

/-- a file is its row groups with the metadata behind them, which are encoded as they are -/
theorem finish_eq_ok {bytes : Bytes} (h : w.finish = .ok bytes) :
    0 < w.pageRows ∧ ∃ gs footer, w.groups defaultMagic.length 0 w.rowGroups = .ok gs ∧
      w.content = .ok ⟨gs.bytes, w.metadata gs.record⟩ ∧
      FileMetaData.format.encode (w.metadata gs.record) = .ok (footer, footer.length) ∧
      bytes = defaultMagic ++ gs.bytes ++ footer ++ toLE 4 footer.length ++ defaultMagic := by
  obtain ⟨c, hc, h₁⟩ := Except.bind_eq_ok.mp h
  obtain ⟨⟨footer, len⟩, hfooter, h₂⟩ := Except.bind_eq_ok.mp h₁
  cases h₂
  obtain ⟨hrows, gs, hgs, rfl⟩ := content_ok hc
  obtain rfl := Format.length_of_encode FileMetaData.shape.built hfooter
  exact ⟨hrows, gs, footer, hgs, hc, hfooter, rfl⟩

/-- metadata that were encoded are decoded where they are within the limits -/
theorem decode_metadata (hw : w.Limited o) {start : Nat} {gs : Written (List RowGroup)}
    (hgs : w.groups start 0 w.rowGroups = .ok gs) {footer : Bytes} {len : Nat}
    (h : FileMetaData.format.encode (w.metadata gs.record) = .ok (footer, len)) :
    FileMetaData.format.decode o footer = .ok (w.metadata gs.record, footer.length) := by
  obtain ⟨bs, hwrite, hread⟩ := Format.roundTrips_of_carried (d := 5) (by decide)
    (FileMetaData.carried (d := 0) (metadata_within hw hgs))
  obtain ⟨rfl, -⟩ := Prod.mk.inj (Except.ok.inj (h.symm.trans (hwrite [])))
  have hdecode := hread []
  rwa [List.append_nil] at hdecode

/-- the metadata of a file that was written are read back -/
theorem finish_ok (hw : w.Fits) {bytes : Bytes} (h : w.finish = .ok bytes) :
    0 < w.pageRows ∧ ∃ gs footer, w.groups defaultMagic.length 0 w.rowGroups = .ok gs ∧
      bytes = defaultMagic ++ gs.bytes ++ footer ++ toLE 4 footer.length ++ defaultMagic ∧
      Footer.read bytes {} = .ok (w.metadata gs.record) := by
  obtain ⟨hrows, gs, footer, hgs, hcontent, hfooter, rfl⟩ := finish_eq_ok h
  exact ⟨hrows, gs, footer, hgs, rfl, Footer.read_append rfl (hw.footer _ hcontent _ _ hfooter)
    (decode_metadata hw.limited hgs hfooter)⟩

end FileWriter

/-! ## the shape of the metadata -/

theorem forM_ok {ε α : Type} {f : α → Except ε Unit} {as : List α} (h : ∀ a ∈ as, f a = .ok ()) :
    as.forM f = .ok () := by
  induction as with
  | nil => rfl
  | cons a as ih =>
    obtain ⟨ha, has⟩ := List.forall_mem_cons.mp h
    exact Except.bind_eq_ok.mpr ⟨(), ha, ih has⟩

theorem Footer.validateLeaf_leaf {spec : ColumnSpec} (h : spec.type ≠ .int96) :
    Footer.validateLeaf spec.leaf = .ok () := by
  obtain ⟨name, type, typeLength⟩ := spec
  cases type with
  | int96 => exact absurd rfl h
  | _ => rfl

/-- the metadata of a file that was written can be read -/
theorem FileWriter.validate_metadata {w : FileWriter} (h : w.Fits) {start : Nat}
    {gs : Written (List RowGroup)} (hgs : w.groups start 0 w.rowGroups = .ok gs) :
    Footer.validate (w.metadata gs.record) = .ok () := by
  have hleaves : (w.specs.map ColumnSpec.leaf).length = w.specs.length := List.length_map _
  show (if some (Int32.ofNat w.specs.length) ≠
    some (Int32.ofNat (w.specs.map ColumnSpec.leaf).length) then _ else _) = _
  rw [hleaves, if_neg (fun h => h rfl)]
  refine Except.bind_eq_ok.mpr ⟨(), forM_ok fun leaf hleaf => ?_, forM_ok fun (g, i) hg => ?_⟩
  · obtain ⟨spec, hspec, rfl⟩ := List.mem_map.mp hleaf
    exact Footer.validateLeaf_leaf (type_of_mem_specs h spec hspec)
  · obtain ⟨hlen, hcolumns⟩ := columns_of_mem h.limited.name hgs g (List.fst_mem_of_mem_zipIdx hg)
    show Footer.validateGroup (w.specs.map ColumnSpec.leaf) i g = _
    rw [Footer.validateGroup, hleaves, if_neg (fun h => h hlen)]
    refine forM_ok fun (leaf, chunk) hpair => ?_
    obtain ⟨j, hj⟩ := List.getElem?_of_mem hpair
    obtain ⟨hleaf, hchunk⟩ := List.getElem?_zip_eq_some.mp hj
    obtain ⟨spec, m, hspec, rfl, htype, -⟩ := hcolumns j chunk hchunk
    rw [List.getElem?_map, hspec] at hleaf
    cases hleaf
    show (if some spec.type ≠ some m.physicalType then _ else _) = _
    rw [htype, if_neg (fun h => h rfl)]

/-! ## slots -/

theorem count_chunks (kind : RecordKind) (cs : List ColumnChunk) :
    (cs.flatMap fun _ => [RecordKind.columnChunk, .columnMetaData]).count kind =
      cs.length * [RecordKind.columnChunk, .columnMetaData].count kind := by
  induction cs with
  | nil => rw [List.length_nil, Nat.zero_mul]; rfl
  | cons c cs ih =>
    rw [List.flatMap_cons, List.count_append, ih, List.length_cons, Nat.succ_mul, Nat.add_comm]

/-- a slot is taken for each row group, and two for each chunk -/
theorem Footer.count_kinds (kind : RecordKind) (gs : List RowGroup) :
    (gs.flatMap fun g => RecordKind.rowGroup :: g.columns.flatMap fun _ =>
      [RecordKind.columnChunk, .columnMetaData]).count kind =
      gs.length * [RecordKind.rowGroup].count kind +
        (gs.map fun g => g.columns.length).sum *
          [RecordKind.columnChunk, .columnMetaData].count kind := by
  induction gs with
  | nil => simp
  | cons g gs ih =>
    rw [List.flatMap_cons, List.count_append, ih, List.length_cons, Nat.succ_mul,
      ← List.singleton_append, List.count_append, count_chunks, List.map_cons, List.sum_cons,
      Nat.add_mul]
    omega

/-- the slots of a kind that a file takes -/
def FileWriter.slots (w : FileWriter) : RecordKind → Nat
  | .rowGroup => w.rowGroups.length
  | .columnChunk | .columnMetaData => w.rowGroups.length * w.specs.length
  | _ => 0

theorem FileWriter.count_kinds {w : FileWriter} (h : w.Fits) {start : Nat}
    {gs : Written (List RowGroup)} (hgs : w.groups start 0 w.rowGroups = .ok gs)
    (kind : RecordKind) : (Footer.kinds (w.metadata gs.record)).count kind = w.slots kind := by
  have hlen : gs.record.length = w.rowGroups.length := (groups_laysOut _ hgs).length
  have hcolumns : (gs.record.map fun g => g.columns.length) =
      List.replicate gs.record.length w.specs.length := by
    rw [← List.map_const']
    exact List.map_congr_left fun g hg => (columns_of_mem h.limited.name hgs g hg).1
  refine (Footer.count_kinds kind gs.record).trans ?_
  rw [hcolumns, List.sum_replicate_nat, hlen]
  cases kind <;> simp [slots]

end Columnar
