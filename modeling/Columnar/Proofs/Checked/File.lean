import Columnar.Proofs.Checked.Delta
import Columnar.Proofs.File.RoundTrip

/-!
# Reading a file with every operation checked

The file reader with each operation checked that could fail on a machine.  Whatever bytes are
read, and whatever is called of a reader of them, no check fails, and no call fails but with an
error.

A file reader lends out the reader of a column when it was prepared, and takes it back with the
next call of its own.  A reader that is lent out may be read as often as wanted, also behind a
read that failed.

* `FileReader.Checked`                 the checked calls;
* `FileReader.Sound`                   what every call keeps of a reader;
* `FileReader.Reached bytes o r loan`  calls lead to `r`, with `loan` lent out;
* `FileReader.safe_calls`              checked calls are the calls, and do not end in a misuse.
-/

namespace Columnar

open Step

/-! ## the footer -/

namespace Footer

namespace Checked

/-- the metadata of a file -/
def read (buffer : Bytes) (o : Options) : Except Failure FileMetaData := do
  let size := buffer.length
  if size < minFileSize then
    .error (Fault.fileTooSmall size minFileSize)
  else
    let stop ← subtract size trailerSize
    let trailer ← slice buffer stop size
    let magic ← slice trailer 4 trailer.length
    if magic ≠ o.magic then
      .error (Fault.badTrailingMagic magic)
    else
      let len := fromLE (← slice trailer 0 4)
      let most ← subtract size minFileSize
      if most < len then
        .error (Fault.footerTooLong len size)
      else
        let front ← subtract size len
        let start ← subtract front trailerSize
        let footer ← slice buffer start stop
        let (metadata, _) ← (Format.Checked.decode FileMetaData.format FileMetaData.shape o
          footer).mapError (Failure.within (.footerAt start))
        let magic ← slice buffer 0 4
        if magic ≠ o.magic then
          .error (Fault.badLeadingMagic magic)
        else
          pure metadata

/-- the footer of a file is read with no check failing -/
theorem read_eq (buffer : Bytes) (o : Options) : read buffer o = Footer.read buffer o := by
  have htrailer : trailerSize = 8 := rfl
  have hmin : minFileSize = 12 := rfl
  unfold read Footer.read
  dsimp only
  split
  · rfl
  rename_i hsize
  have hlen : (buffer.drop (buffer.length - trailerSize)).length = 8 := by
    rw [List.length_drop]
    omega
  rw [Except.bind_ok (subtract_ok (by omega)), Except.bind_ok (slice_rest (by omega)),
    Except.bind_ok (slice_rest (by omega))]
  split
  · rfl
  rw [Except.bind_ok (slice_front (by omega)), Except.bind_ok (subtract_ok (by omega))]
  split
  · rfl
  rename_i hfooter
  rw [Except.bind_ok (subtract_ok (by omega)), Except.bind_ok (subtract_ok (by omega)),
    Except.bind_ok (slice_ok (by omega) (by omega))]
  have hwidth : buffer.length - trailerSize - (buffer.length -
      fromLE ((buffer.drop (buffer.length - trailerSize)).take 4) - trailerSize) =
      fromLE ((buffer.drop (buffer.length - trailerSize)).take 4) := by omega
  rw [hwidth, Format.Checked.decode_eq]
  cases (FileMetaData.format.decode o _).mapError _ with
  | error e => rfl
  | ok m => exact Except.bind_ok (slice_front (by omega)) _

end Checked

/-- a footer is refused with an error, or its metadata does not fit memory -/
theorem read_limited {buffer : Bytes} {o : Options} :
    ∀ e, read buffer o = .error e → e.Limited o := by
  have herror (x : Error) : (Failure.error x).Limited o := fun _ hm => nomatch hm
  unfold read
  dsimp only
  split
  · rintro _ ⟨⟩
    exact herror _
  split
  · rintro _ ⟨⟩
    exact herror _
  split
  · rintro _ ⟨⟩
    exact herror _
  refine Except.error_of_bind ?_ fun d => ?_
  · intro e he
    cases hdecode : FileMetaData.format.decode o _ with
    | ok d =>
      rw [hdecode] at he
      cases he
    | error x =>
      rw [hdecode] at he
      cases he
      exact (FileMetaData.decode_limited hdecode).within _
  · split
    · rintro _ ⟨⟩
      exact herror _
    · rintro _ ⟨⟩

/-- metadata that is valid has a root, and one chunk for each leaf in every row group -/
theorem validate_shape {m : FileMetaData} (h : validate m = .ok ()) :
    0 < m.schema.length ∧ ∀ g ∈ m.rowGroups, g.columns.length = m.schema.tail.length := by
  unfold validate at h
  split at h
  · cases h
  · rename_i root leaves hschema
    split at h
    · cases h
    · obtain ⟨⟨⟩, -, hgroups⟩ := Except.bind_eq_ok.mp h
      rw [hschema]
      refine ⟨Nat.succ_pos _, fun g hg => ?_⟩
      obtain ⟨i, hi⟩ := List.getElem?_of_mem hg
      have hgroup := Except.forall_of_forM hgroups (g, i) (List.mem_zipIdx_iff_getElem?.mpr hi)
      change validateGroup leaves i g = .ok () at hgroup
      unfold validateGroup at hgroup
      split at hgroup
      · cases hgroup
      · rename_i hlen
        exact Decidable.not_not.mp hlen

end Footer

/-! ## calls -/

/-- the member of a list at a place, which has to be there -/
def entry {α : Type} (as : List α) (i : Nat) : Except Failure α :=
  match as[i]? with
  | some a => .ok a
  | none => .error (.misuse (.sliceStart i as.length))

namespace FileReader

namespace Checked

/-- a reader of a file, or no change to the pools -/
def prepare (buffer : Bytes) (o : Options) : Step Pools Failure FileReader := do
  let metadata ← Footer.Checked.read buffer o
  Footer.validate metadata
  let slots ← Pools.acquireAll (Footer.kinds metadata) []
  let _ ← subtract metadata.schema.length 1
  pure { buffer, metadata, slots, column := .ofBuffer buffer o, delta := .ofBuffer buffer o }

/-- bind the column reader to a column of the row group -/
def prepareColumn (column : Nat) : Step FileReader Failure Unit := do
  let r ← Step.state
  let (i, g) ← (r.inRowGroup : Except Error (Nat × RowGroup))
  let columns ← subtract r.metadata.schema.length 1
  if columns ≤ column then
    Step.fail (Fault.noSuchColumn column columns)
  else
    let leaf ← entry r.metadata.schema (column + 1)
    let chunk ← entry g.columns column
    ((ColumnReader.Checked.prepare column leaf chunk).within (.readingRowGroup i)).on
      FileReader.column fun r column => { r with column }

/-- bind the delta reader to the last column of the row group -/
def prepareDelta : Step FileReader Failure Unit := do
  let r ← Step.state
  let (i, g) ← (r.inRowGroup : Except Error (Nat × RowGroup))
  let columns ← subtract r.metadata.schema.length 1
  if columns = 0 then
    Step.fail Fault.noColumns
  else
    let column := columns - 1
    let leaf ← entry r.metadata.schema (column + 1)
    let chunk ← entry g.columns column
    ((DeltaReader.Checked.prepare column leaf chunk).within (.readingRowGroup i)).on
      FileReader.delta fun r delta => { r with delta }

/-- the next batch of the column that is bound -/
def readColumn : Step (FileReader × Batch) Failure Nat :=
  ColumnReader.Checked.read.on (fun s => (s.1.column, s.2))
    fun s t => ({ s.1 with column := t.1 }, t.2)

/-- the next batch of the delta column that is bound -/
def readDelta : Step (FileReader × Batch) Failure Nat :=
  DeltaReader.Checked.read.on (fun s => (s.1.delta, s.2))
    fun s t => ({ s.1 with delta := t.1 }, t.2)

end Checked

variable {bytes : Bytes} {o : Options} {r : FileReader}

/-! ## the state between calls -/

/-- a reader of `bytes` whose metadata is valid, and whose column reader is kept once it is
prepared -/
structure Sound (bytes : Bytes) (o : Options) (r : FileReader) : Prop where
  schema : 0 < r.metadata.schema.length
  groups : ∀ g ∈ r.metadata.rowGroups, g.columns.length = r.numColumns
  source : r.column.Over bytes o
  column : r.column.progress ≠ .uninitialized → ∃ g b, r.column.Kept False g b

theorem Sound.withColumn (h : r.Sound bytes o) {c : ColumnReader} (hc : c.Over bytes o)
    (hkept : c.progress ≠ .uninitialized → ∃ g b, c.Kept False g b) :
    ({ r with column := c } : FileReader).Sound bytes o := ⟨h.schema, h.groups, hc, hkept⟩

theorem sound_prepare {p q : Pools} (h : prepare bytes o p = (.ok r, q)) : r.Sound bytes o := by
  obtain ⟨m, q₁, -, h₁⟩ := bind_eq_ok.mp h
  obtain ⟨⟨⟩, q₂, hvalid, h₂⟩ := bind_eq_ok.mp h₁
  obtain ⟨slots, q₃, -, h₃⟩ := bind_eq_ok.mp h₂
  cases h₃
  obtain ⟨hschema, hgroups⟩ := Footer.validate_shape (lift_eq_ok hvalid).1
  exact ⟨hschema, hgroups, ⟨rfl, rfl⟩, fun h => absurd rfl h⟩

/-- the row group being read is one of the file -/
theorem mem_of_inRowGroup {i : Nat} {g : RowGroup} (h : r.inRowGroup = .ok (i, g)) :
    g ∈ r.metadata.rowGroups := by
  unfold inRowGroup at h
  split at h
  · cases h
  · split at h
    · rename_i g' hg
      cases h
      exact List.mem_of_getElem? hg
    · cases h

theorem inRowGroup_regular : ∀ e, r.inRowGroup = .error e → e.Regular := by
  intro e he
  unfold inRowGroup at he
  repeat' split at he
  all_goals cases he
  all_goals exact fun h => h

/-- a column of the row group has a leaf and a chunk -/
theorem Sound.found (h : r.Sound bytes o) {i column : Nat} {g : RowGroup}
    (hg : r.inRowGroup = .ok (i, g)) (hcolumn : column < r.numColumns) :
    ∃ leaf chunk, entry r.metadata.schema (column + 1) = .ok leaf ∧
      entry g.columns column = .ok chunk ∧ r.chunk g column = .ok (leaf, chunk) := by
  have hlen := h.groups g (mem_of_inRowGroup hg)
  have hleaf : r.leaves[column]? = some r.leaves[column] := List.getElem?_eq_getElem hcolumn
  have hchunk : g.columns[column]? = some g.columns[column] := List.getElem?_eq_getElem (by omega)
  refine ⟨r.leaves[column], g.columns[column], ?_, ?_, ?_⟩
  · have htail : r.metadata.schema[column + 1]? = r.leaves[column]? := List.getElem?_tail.symm
    rw [entry, htail, hleaf]
  · rw [entry, hchunk]
  · rw [FileReader.chunk, hleaf, hchunk]

theorem numColumns_eq (r : FileReader) : r.numColumns = r.metadata.schema.length - 1 :=
  List.length_tail

/-! ## single calls -/

theorem nextRowGroup_ends (h : r.Sound bytes o) :
    ∃ b, (nextRowGroup r).1 = .ok b ∧ (nextRowGroup r).2.Sound bytes o := by
  rw [nextRowGroup, state_bind]
  split
  · exact ⟨true, rfl, h.schema, h.groups, h.source, h.column⟩
  · exact ⟨false, rfl, h.schema, h.groups, h.source, h.column⟩

/-- a column is prepared, and can be read, or it is refused with an error -/
theorem prepareColumn_ends (h : r.Sound bytes o) (column : Nat) :
    Ends (fun _ t => t.Sound bytes o ∧ t.column.progress ≠ .uninitialized)
      (fun x t => t.Sound bytes o ∧ x.Regular) (prepareColumn column r) := by
  rcases hg : r.inRowGroup with x | ⟨i, g⟩
  · have hrun : prepareColumn column r = (.error (.error x), r) := by
      rw [prepareColumn, state_bind, hg]
      rfl
    rw [hrun]
    exact ⟨h, inRowGroup_regular x hg⟩
  by_cases hcolumn : column < r.numColumns
  · obtain ⟨leaf, chunk, -, -, hchunk⟩ := h.found hg hcolumn
    have hends := ColumnReader.prepare_ends (r := r.column) column leaf chunk
    have hover := (ColumnReader.prepare_over column leaf chunk r.column h.source).1
    rw [prepareColumn_apply hg hcolumn hchunk, on_apply]
    rcases hrun : ColumnReader.prepare column leaf chunk r.column with ⟨x | ⟨⟩, c⟩
    · rw [hrun] at hends hover
      rw [within_error hrun]
      exact ⟨h.withColumn hover fun hc => absurd hends.2.1 hc, hends.2.2.within _⟩
    · rw [hrun] at hends hover
      obtain ⟨b, hkept⟩ := hends
      have hready : c.progress ≠ .uninitialized := fun hc => nomatch hkept.progress.symm.trans hc
      rw [within_ok hrun]
      exact ⟨h.withColumn hover fun _ => ⟨_, b, hkept.imp False.elim⟩, hready⟩
  · have hrun : prepareColumn column r =
        (.error (.error (Fault.noSuchColumn column r.numColumns)), r) := by
      refine (bind_ok (liftM_ok hg r) _).trans ?_
      dsimp only
      rw [if_pos (Nat.not_lt.mp hcolumn)]
      rfl
    rw [hrun]
    exact ⟨h, fun h => h⟩

theorem Sound.withDelta (h : r.Sound bytes o) (d : DeltaReader) :
    ({ r with delta := d } : FileReader).Sound bytes o := ⟨h.schema, h.groups, h.source, h.column⟩

/-- the delta column is prepared, and can be read, or it is refused with an error -/
theorem prepareDelta_ends (h : r.Sound bytes o) :
    Ends (fun _ t => t.Sound bytes o ∧ t.delta.progress ≠ .uninitialized)
      (fun x t => t.Sound bytes o ∧ x.Regular) (prepareDelta r) := by
  rcases hg : r.inRowGroup with x | ⟨i, g⟩
  · have hrun : prepareDelta r = (.error (.error x), r) := by
      rw [prepareDelta, state_bind, hg]
      rfl
    rw [hrun]
    exact ⟨h, inRowGroup_regular x hg⟩
  by_cases hzero : r.numColumns = 0
  · have hrun : prepareDelta r = (.error (.error Fault.noColumns), r) := by
      refine (bind_ok (liftM_ok hg r) _).trans ?_
      dsimp only
      rw [if_pos hzero]
      rfl
    rw [hrun]
    exact ⟨h, fun h => h⟩
  · obtain ⟨column, hcolumns⟩ := Nat.exists_eq_succ_of_ne_zero hzero
    obtain ⟨leaf, chunk, -, -, hchunk⟩ := h.found hg (show column < r.numColumns by omega)
    have hends := DeltaReader.prepare_ends (r := r.delta) column leaf chunk
    rw [prepareDelta_apply hg hcolumns hchunk, on_apply]
    rcases hrun : DeltaReader.prepare column leaf chunk r.delta with ⟨x | ⟨⟩, d⟩
    · rw [hrun] at hends
      rw [within_error hrun]
      exact ⟨h.withDelta d, Failure.Regular.within hends _⟩
    · rw [hrun] at hends
      rw [within_ok hrun]
      exact ⟨h.withDelta d, fun hd => nomatch Eq.trans (Eq.symm hends) hd⟩

/-- a column that is prepared is read until it cannot be, and stays prepared -/
theorem readColumn_ends (h : r.Sound bytes o) (hr : r.column.progress ≠ .uninitialized)
    (v : Batch) : Ends (fun _ t => t.1.Sound bytes o ∧ t.1.column.progress ≠ .uninitialized)
      (fun x t => (t.1.Sound bytes o ∧ t.1.column.progress ≠ .uninitialized) ∧ x.Regular)
      (readColumn (r, v)) := by
  obtain ⟨g, b, hkept⟩ := h.column hr
  have hg : g ≠ .uninitialized := hkept.progress ▸ hr
  have hends := ColumnReader.read_ends hkept hg v
  have hover := (ColumnReader.read_over (r.column, v) h.source).1
  rw [readColumn, on_apply]
  rcases hrun : ColumnReader.read (r.column, v) with ⟨x | n, c, v'⟩
  · rw [hrun] at hends hover
    obtain ⟨hkept', hx⟩ := hends
    exact ⟨⟨h.withColumn hover fun _ => ⟨g, b, hkept'⟩, hkept'.progress ▸ hg⟩, hx⟩
  · rw [hrun] at hends hover
    obtain ⟨g', hg', hkept', -⟩ := hends
    exact ⟨h.withColumn hover fun _ => ⟨g', b, hkept'⟩, hkept'.progress ▸ hg'⟩

/-- a delta column that is prepared is read until it cannot be, and stays prepared -/
theorem readDelta_ends (h : r.Sound bytes o) (hr : r.delta.progress ≠ .uninitialized)
    (v : Batch) : Ends (fun _ t => t.1.Sound bytes o ∧ t.1.delta.progress ≠ .uninitialized)
      (fun x t => (t.1.Sound bytes o ∧ t.1.delta.progress ≠ .uninitialized) ∧ x.Regular)
      (readDelta (r, v)) := by
  have hprepared := (DeltaReader.read_prepared (r.delta, v) hr).1
  rw [readDelta, on_apply]
  rcases hrun : DeltaReader.read (r.delta, v) with ⟨x | n, d, v'⟩
  · rw [hrun] at hprepared
    exact ⟨⟨h.withDelta d, hprepared⟩, DeltaReader.read_regular hr hrun⟩
  · rw [hrun] at hprepared
    exact ⟨h.withDelta d, hprepared⟩

/-! ## the checked calls -/

/-- a checked run is the run without checks, and that does not end in a misuse -/
structure Safe {σ α : Type} (checked plain : Except Failure α × σ) : Prop where
  same : checked = plain
  answers : ∀ m, plain.1 ≠ .error (.misuse m)

theorem safe_of_ends {σ α : Type} {x y : Except Failure α × σ} {A : α → σ → Prop}
    {I : σ → Prop} (h : x = y) (hy : Ends A (fun e t => I t ∧ e.Regular) y) : Safe x y := by
  refine ⟨h, fun m hm => ?_⟩
  rcases y with ⟨e | a, t⟩
  · cases hm
    exact hy.2
  · cases hm

namespace Checked

theorem prepare_eq (bytes : Bytes) (o : Options) :
    prepare bytes o = FileReader.prepare bytes o := by
  funext p
  rw [prepare, FileReader.prepare, Footer.Checked.read_eq]
  refine bind_same (A := fun _ _ => True) (E := fun _ _ => True) rfl ?_ fun m q _ => ?_
  · exact ends_ofExcept (fun _ _ => trivial) fun _ _ => trivial
  refine bind_same (A := fun _ _ => 0 < m.schema.length) (E := fun _ _ => True) rfl ?_ ?_
  · exact ends_mapError (ends_ofExcept (E := fun _ _ => True)
      (fun _ h => (Footer.validate_shape h).1) fun _ _ => trivial) fun _ _ h => h
  intro _ q' hschema
  rw [bind_apply, bind_apply]
  rcases (liftM (Pools.acquireAll (Footer.kinds m) []) : Step Pools Failure (List Slot)) q' with
    ⟨e | slots, q''⟩
  · rfl
  · exact subtract_bind hschema _ _

theorem prepareColumn_eq (h : r.Sound bytes o) (column : Nat) :
    prepareColumn column r = FileReader.prepareColumn column r := by
  rw [prepareColumn, FileReader.prepareColumn, state_bind, state_bind]
  rcases hg : r.inRowGroup with x | ⟨i, g⟩
  · rfl
  refine (bind_ok (liftM_ok rfl r) _).trans (Eq.trans ?_ (bind_ok (liftM_ok rfl r) _).symm)
  dsimp only
  rw [subtract_bind h.schema, ← numColumns_eq]
  split
  · rfl
  · rename_i hcolumn
    obtain ⟨leaf, chunk, hleaf, hfound, hchunk⟩ := h.found hg (Nat.not_le.mp hcolumn)
    refine (bind_ok (ofExcept_ok hleaf r) _).trans ((bind_ok (ofExcept_ok hfound r) _).trans ?_)
    refine Eq.trans ?_ (bind_ok (ofExcept_ok hchunk r) _).symm
    exact on_same (within_congr (ColumnReader.Checked.prepare_eq column leaf chunk))

theorem prepareDelta_eq (h : r.Sound bytes o) :
    prepareDelta r = FileReader.prepareDelta r := by
  rw [prepareDelta, FileReader.prepareDelta, state_bind, state_bind]
  rcases hg : r.inRowGroup with x | ⟨i, g⟩
  · rfl
  refine (bind_ok (liftM_ok rfl r) _).trans (Eq.trans ?_ (bind_ok (liftM_ok rfl r) _).symm)
  dsimp only
  rw [subtract_bind h.schema, ← numColumns_eq]
  split
  · rfl
  · rename_i hzero
    obtain ⟨leaf, chunk, hleaf, hfound, hchunk⟩ :=
      h.found hg (show r.numColumns - 1 < r.numColumns by omega)
    refine (bind_ok (ofExcept_ok hleaf r) _).trans ((bind_ok (ofExcept_ok hfound r) _).trans ?_)
    refine Eq.trans ?_ (bind_ok (ofExcept_ok hchunk r) _).symm
    exact on_same (within_congr (DeltaReader.Checked.prepare_eq _ leaf chunk))

theorem readColumn_eq (h : r.Sound bytes o) (hlen : bytes.length < 2 ^ 60)
    (hr : r.column.progress ≠ .uninitialized) (v : Batch) :
    readColumn (r, v) = FileReader.readColumn (r, v) := by
  obtain ⟨g, b, hkept⟩ := h.column hr
  exact on_same (ColumnReader.Checked.read_eq hkept (h.source.buffer ▸ hlen) v)

theorem readDelta_eq : readDelta = FileReader.readDelta := by
  rw [readDelta, FileReader.readDelta, DeltaReader.Checked.read_eq]

end Checked

/-! ## any calls -/

/-- the reader that a file reader lends out for as long as nothing else is called of it -/
inductive Loan where
  | column
  | delta
deriving DecidableEq

/-- a column is only read by the reader that was lent out for it -/
def Call.Allowed (loan : Option Loan) : Call → Prop
  | readColumn _ => loan = some .column
  | readDelta _ => loan = some .delta
  | _ => True

/-- a loan is made by a call that answers -/
def Loan.ifOk (loan : Loan) : Except Failure Unit → Option Loan
  | .ok _ => some loan
  | .error _ => none

/-- what is lent out behind a call: a reader that was prepared, until the next call that is not
a read -/
def Call.lends (r : FileReader) : Call → Option Loan
  | nextRowGroup => none
  | prepareColumn column => Loan.column.ifOk (FileReader.prepareColumn column r).1
  | prepareDelta => Loan.delta.ifOk (FileReader.prepareDelta r).1
  | readColumn _ => some .column
  | readDelta _ => some .delta

/-- the readers that calls lead to from a file that was opened, and what they lent out -/
inductive Reached (bytes : Bytes) (o : Options) : FileReader → Option Loan → Prop where
  | opened {p q : Pools} {r : FileReader} (h : prepare bytes o p = (.ok r, q)) :
      Reached bytes o r none
  | called {r : FileReader} {loan : Option Loan} {c : Call} (h : Reached bytes o r loan)
      (hc : c.Allowed loan) : Reached bytes o (c.run r) (c.lends r)

/-- what is lent out can be read -/
def Loan.Ready (r : FileReader) : Option Loan → Prop
  | none => True
  | some .column => r.column.progress ≠ .uninitialized
  | some .delta => r.delta.progress ≠ .uninitialized

theorem Loan.ready_ifOk (loan : Loan) {x : Except Failure Unit × FileReader}
    (h : Ends (fun _ t => t.Sound bytes o ∧ Ready t (some loan))
      (fun e t => t.Sound bytes o ∧ e.Regular) x) :
    x.2.Sound bytes o ∧ Ready x.2 (loan.ifOk x.1) := by
  rcases x with ⟨e | ⟨⟩, t⟩
  · exact ⟨h.1, trivial⟩
  · exact h

/-- an allowed call leaves a sound reader, and lends out what can be read -/
theorem Call.sound (h : r.Sound bytes o) {loan : Option Loan} (hready : Loan.Ready r loan)
    {c : Call} (hc : c.Allowed loan) :
    (c.run r).Sound bytes o ∧ Loan.Ready (c.run r) (c.lends r) := by
  have state {x : Except Failure Nat × (FileReader × Batch)} {P : FileReader → Prop}
      (hx : Ends (fun _ t => P t.1) (fun e t => P t.1 ∧ e.Regular) x) : P x.2.1 := by
    rcases x with ⟨e | n, t⟩
    · exact hx.1
    · exact hx
  cases c with
  | nextRowGroup =>
    obtain ⟨_, -, hsound⟩ := nextRowGroup_ends h
    exact ⟨hsound, trivial⟩
  | prepareColumn column => exact Loan.column.ready_ifOk (prepareColumn_ends h column)
  | prepareDelta => exact Loan.delta.ready_ifOk (prepareDelta_ends h)
  | readColumn into =>
    cases hc
    exact state (P := fun t => t.Sound bytes o ∧ Loan.Ready t (some .column))
      (readColumn_ends h hready into)
  | readDelta into =>
    cases hc
    exact state (P := fun t => t.Sound bytes o ∧ Loan.Ready t (some .delta))
      (readDelta_ends h hready into)

theorem Reached.sound {loan : Option Loan} (h : Reached bytes o r loan) :
    r.Sound bytes o ∧ Loan.Ready r loan := by
  induction h with
  | opened h => exact ⟨sound_prepare h, trivial⟩
  | called _ hc ih => exact Call.sound ih.1 ih.2 hc

/-- a column that is prepared is lent out -/
theorem Reached.lent {loan : Option Loan} (h : Reached bytes o r loan) {column : Nat}
    {r' : FileReader} (hcolumn : prepareColumn column r = (.ok (), r')) :
    Reached bytes o r' (some .column) := by
  have hcalled := h.called (c := .prepareColumn column) trivial
  have hrun : Call.run r (.prepareColumn column) = r' := congrArg Prod.snd hcolumn
  have hlends : Call.lends r (.prepareColumn column) = some .column :=
    congrArg Loan.column.ifOk (congrArg Prod.fst hcolumn)
  rwa [hrun, hlends] at hcalled

/-- a file that cannot be opened is refused with an error, or its metadata does not fit memory -/
theorem prepare_limited : Fails (fun _ => True) (Failure.Limited o) (prepare bytes o) := by
  have herror (x : Error) : (Failure.error x).Limited o := fun _ hm => nomatch hm
  refine fails_bind (maintains_any _) (fails_ofExcept Footer.read_limited) fun d _ => ?_
  refine fails_bind (maintains_any _) ?_ fun _ _ => ?_
  · exact fails_mapError (E := fun _ => True) (fails_ofExcept fun _ _ => trivial)
      fun x _ => herror x
  exact fails_bind (maintains_any _) (fails_mapError (E := fun _ => True)
    (fun _ _ _ _ => trivial) fun x _ => herror x) fun _ _ => fails_pure _

/-- no call fails on a machine.  A file is opened with no check failing, and refused with an error
where it is not well formed; a misuse is left only to metadata that does not fit memory, where the
limit of a list allows that.  Numbers, structs and whole records are read with no check failing
wherever they are, as long as the structs around them are not too many, and these are no more when
a record is read.  From then on, whatever calls were made and whatever became of them, each call
runs with no check failing, and answers or fails with an error. -/
theorem safe_calls (hlen : bytes.length < 2 ^ 60) :
    (∀ p, Checked.prepare bytes o p = prepare bytes o p ∧
      ∀ m q, prepare bytes o p = (.error (.misuse m), q) →
        m = .capacityOverflow ∧ Compact.Read.maxListRoom < o.containerLimit * maxRoom) ∧
    Varint.Checked.read = (liftM Varint.read : Step Cursor Failure Nat) ∧
    (∀ c : Compact.Reader, c.enclosing.length ≤ maxStructDepth →
      Compact.Read.Checked.structBegin c = Compact.Read.structBegin c ∧
      (Compact.Read.structBegin c).2.enclosing.length ≤ maxStructDepth ∧
      (Compact.Read.structEnd c).2.enclosing.length ≤ maxStructDepth) ∧
    (∀ (kind : RecordKind) (c : Compact.Reader), c.enclosing.length ≤ maxStructDepth →
      (Codec.Shape.record kind.shape).checked c = kind.format.read c ∧
      (kind.format.read c).2.enclosing.length ≤ maxStructDepth) ∧
    ∀ r loan, Reached bytes o r loan →
      (∃ another, (nextRowGroup r).1 = .ok another) ∧
      (∀ column, Safe (Checked.prepareColumn column r) (prepareColumn column r)) ∧
      Safe (Checked.prepareDelta r) (prepareDelta r) ∧
      (loan = some .column → ∀ into,
        Safe (Checked.readColumn (r, into)) (readColumn (r, into))) ∧
      (loan = some .delta → ∀ into,
        Safe (Checked.readDelta (r, into)) (readDelta (r, into))) := by
  refine ⟨fun p => ⟨congrFun (Checked.prepare_eq bytes o) p, fun m q h =>
      prepare_limited p trivial _ (congrArg Prod.fst h) m rfl⟩,
    Varint.Checked.read_eq, fun c hc => ⟨Compact.Read.Checked.structBegin_eq hc,
      (Compact.Read.structBegin_depth c hc).1, (Compact.Read.structEnd_depth c hc).1⟩,
    fun kind c hc => ⟨(Codec.Shape.record kind.shape).checks.same c hc,
      ((Codec.Shape.record kind.shape).checks.keeps c hc).1⟩, fun r loan hr => ?_⟩
  obtain ⟨h, hready⟩ := hr.sound
  obtain ⟨another, hanother, -⟩ := nextRowGroup_ends h
  refine ⟨⟨another, hanother⟩,
    fun column => safe_of_ends (Checked.prepareColumn_eq h column) (prepareColumn_ends h column),
    safe_of_ends (Checked.prepareDelta_eq h) (prepareDelta_ends h), ?_, ?_⟩
  · rintro rfl into
    exact safe_of_ends (Checked.readColumn_eq h hlen hready into) (readColumn_ends h hready into)
  · rintro rfl into
    exact safe_of_ends (congrFun Checked.readDelta_eq _) (readDelta_ends h hready into)

/-- the first column of a file of two is lent out, and read -/
theorem safe_calls_twoColumns : ∃ bytes r₀ p' r, twoColumns.finish = .ok bytes ∧
    bytes.length < 2 ^ 60 ∧ prepare bytes {} fewPools = (.ok r₀, p') ∧
    prepareColumn 0 (r₀.run [.nextRowGroup]) = (.ok (), r) ∧
    Safe (Checked.readColumn (r, {})) (readColumn (r, {})) := by
  obtain ⟨bytes, hfinish, hlen⟩ : ∃ bytes, twoColumns.finish = .ok bytes ∧ bytes.length < 2 ^ 60 :=
    ⟨_, finish_twoColumns, by cbv⟩
  obtain ⟨hrows, gs, behind, r₀, p', hgs, hbytes, hprepare, hreads⟩ :=
    prepare_finish fits_twoColumns hfinish slots_twoColumns
  obtain ⟨_, r, -, hcolumn, -⟩ := (hreads.calls [.nextRowGroup]).prepareColumn_yields
    fits_twoColumns hrows hgs hbytes (fits_twoColumns.bytes _ hfinish) rfl
    (show 0 < twoColumns.columns.length by decide)
  have hreached : Reached bytes {} (r₀.run [.nextRowGroup]) none :=
    (Reached.opened hprepare).called (c := .nextRowGroup) trivial
  obtain ⟨-, -, -, -, hall⟩ := safe_calls (o := {}) hlen
  obtain ⟨-, -, -, hread, -⟩ := hall r _ (hreached.lent hcolumn)
  exact ⟨bytes, r₀, p', r, hfinish, hlen, hprepare, hcolumn, hread rfl {}⟩

end FileReader

end Columnar
