import Columnar.Proofs.Checked.Column
import Columnar.Proofs.Column.Delta

/-!
# Reading the delta column with every operation checked

The delta reader takes its chunk out of the buffer, a page with its header out of the chunk, and its
values out of the page: those are the operations to check.  What the reader fails with are errors.

* `DeltaReader.Checked.prepare_eq`, `DeltaReader.Checked.read_eq`   the checked calls are the calls;
* `DeltaReader.prepare_ends`, `DeltaReader.read_regular`            how the calls fail;
* `DeltaReader.read_prepared`                                       a reader stays prepared.
-/

namespace Columnar

open Step

namespace DeltaReader

variable {r : DeltaReader}

/-! ## binding -/

theorem bind_regular {column size : Nat} {schema : SchemaElement} {chunk : ColumnChunk} :
    ∀ e, bind column schema chunk size = .error e → e.Regular := by
  refine Except.error_of_bind Binding.ofChunk_regular fun b => ?_
  intro e he
  repeat' split at he
  all_goals cases he
  all_goals exact fun h => h

/-- the chunk of a delta column lies in the buffer -/
theorem bind_lies {column size : Nat} {schema : SchemaElement} {chunk : ColumnChunk} {b : Binding}
    (h : bind column schema chunk size = .ok b) : b.start + b.size ≤ size := by
  obtain ⟨b', hb, h'⟩ := Except.bind_eq_ok.mp h
  repeat' split at h'
  all_goals cases h'
  exact (Binding.ofChunk_spec hb).2

theorem page_fails (o : Options) (c : Cursor) :
    Fails c.Follows Failure.Regular (DeltaPage.read o) := by
  refine fails_bind (DictionaryPage.read_maintains o c) (DictionaryPage.read_fails o c)
    fun page _ => ?_
  exact fails_bind (P := Any) (maintains_lift fun _ _ => trivial)
    (fails_liftExcept Plain.Decoder.ofBytes_regular) fun _ _ => fails_pure _

theorem openPage_regular {b : Binding} {buffer : Bytes} {o : Options} :
    ∀ e, openPage b buffer o = .error e → e.Regular := by
  intro e he
  unfold openPage at he
  split at he
  · cases he
  · have hpage := page_fails o _ _ (Cursor.Follows.refl (.ofBytes (b.bytes buffer)))
    rcases h : (DeltaPage.read o (.ofBytes (b.bytes buffer))).1 with x | p
    · rw [answer, h] at he
      cases he
      exact hpage e h
    · rw [answer, h] at he
      cases he

/-- a chunk is bound to, and the reader is ready, or it is refused with an error -/
theorem prepare_ends (column : Nat) (schema : SchemaElement) (chunk : ColumnChunk) :
    Ends (fun _ t => t.progress = .ready) (fun e _ => e.Regular)
      (prepare column schema chunk r) := by
  refine ends_mapError (E := fun e _ => e.Regular) ?_ fun e _ h => h.within _
  rw [update_bind, state_bind]
  refine ends_bind (A := fun _ _ => True) ?_ fun b t _ => ?_
  · exact ends_mapError (ends_ofExcept (E := fun e _ => e.Regular) (fun _ _ => trivial)
      bind_regular) fun _ _ h => h
  refine ends_bind (A := fun _ _ => True) (ends_ofExcept (fun _ _ => trivial) openPage_regular)
    fun page t _ => ?_
  exact rfl

/-! ## reading -/

theorem next_regular {p p' : DeltaPage} {e : Failure} (h : next p = (.error e, p')) :
    e.Regular := by
  have hvalue := Plain.Decoder.byteArray_fails (fun _ => True) p.values trivial
  unfold next at h
  rcases hrun : Plain.Decoder.byteArray p.values with ⟨x | v, d⟩
  · rw [hrun] at h hvalue
    cases h
    exact hvalue x rfl
  · rw [hrun] at h
    cases h

/-- a run is read until a value of it cannot be -/
theorem takeRun_regular (room : Nat) : ∀ (taken : Nat) {p : DeltaPage} {b : Batch} {e : Failure}
    {t : DeltaPage × Batch}, b.values.length + room ≤ batchSize →
    takeRun room taken (p, b) = (.error e, t) → e.Regular := by
  induction room with
  | zero => exact fun _ _ _ _ _ _ h => nomatch h
  | succ room ih =>
    intro taken p b e t hroom h
    by_cases hleft : p.left < terminatorSize
    · rw [takeRun_stop hleft] at h
      cases h
    rcases hnext : next p with ⟨x | v, p'⟩
    · rw [takeRun_unread hleft hnext] at h
      cases h
      exact next_regular hnext
    · by_cases hv : v.byteLen = terminatorSize
      · rw [takeRun_end hleft hnext hv] at h
        cases h
      · rw [takeRun_next hleft hnext hv (by omega)] at h
        refine ih _ ?_ h
        show (b.values ++ [v]).length + room ≤ batchSize
        rw [List.length_append, List.length_singleton]
        omega

/-- a reader that is prepared stays so, whatever becomes of a read -/
theorem read_prepared :
    Maintains (fun s : DeltaReader × Batch => s.1.progress ≠ .uninitialized) Any read := by
  refine maintains_bind maintains_state fun s hs => ?_
  dsimp only
  rw [if_neg hs]
  refine maintains_bind (maintains_put hs) fun _ _ => ?_
  split
  · exact maintains_pure trivial
  · exact maintains_bind (maintains_put nofun) fun _ _ => maintains_pure trivial
  · refine maintains_bind (maintains_on fun _ _ h => h) fun taken _ => ?_
    refine maintains_bind (maintains_update fun t ht => ?_) fun _ _ => maintains_pure trivial
    unfold settle
    dsimp only
    split
    · exact nofun
    · exact ht

/-- a reader that is prepared is read until a value cannot be -/
theorem read_regular {v : Batch} {e : Failure} {t : DeltaReader × Batch}
    (hr : r.progress ≠ .uninitialized) (h : read (r, v) = (.error e, t)) : e.Regular := by
  cases hg : r.progress with
  | uninitialized => exact absurd hg hr
  | exhausted =>
    rw [read_exhausted hg] at h
    cases h
  | ready =>
    cases hp : r.page with
    | none =>
      rw [read_none hg hp] at h
      cases h
    | some p =>
      rcases hrun : takeRun batchSize 0 (p, {}) with ⟨x | n, q, b⟩
      · rw [read_unread hg hp hrun] at h
        cases h
        exact takeRun_regular batchSize 0 (Nat.le_refl _) hrun
      · rw [read_taken hg hp hrun] at h
        cases h

/-! ## the checked calls -/

namespace Checked

/-- the page at the cursor, with nothing of it read -/
def readPage (o : Options) : Step Cursor Failure DeltaPage := do
  let page ← DictionaryPage.Checked.read o
  let values ← Plain.Decoder.ofBytes page.body .byteArray none
  pure ⟨values, page.body.length⟩

/-- the page of a chunk; a chunk without values or without bytes has none -/
def openPage (b : Binding) (buffer : Bytes) (o : Options) : Except Failure (Option DeltaPage) :=
  if b.numValues = 0 ∨ b.size = 0 then
    .ok none
  else do
    let bytes ← b.slice buffer
    some <$> (readPage o).answer (.ofBytes bytes)

/-- bind the reader to a chunk; nothing of the last chunk remains -/
def prepare (column : Nat) (schema : SchemaElement) (chunk : ColumnChunk) :
    Step DeltaReader Failure Unit := Step.within (.preparingDelta column) do
  Step.update fun r => ofBuffer r.buffer r.options
  let r ← Step.state
  let b ← bind column schema chunk r.buffer.length
  let page ← openPage b r.buffer r.options
  Step.put { r with progress := .ready, binding := some b, page }

/-- the next value; where it cannot be read, the place in the page is said -/
def next : Step DeltaPage Failure Value := fun p =>
  match Plain.Decoder.Checked.byteArray p.values with
  | (.ok v, values) => (.ok v, ⟨values, p.left - v.byteLen⟩)
  | (.error e, values) =>
    (.error (Contextual.within (.decodingDelta values.consumed) e), { p with values })

/-- the rest of a run, `room` values at most -/
def takeRun : Nat → Nat → Step (DeltaPage × Batch) Failure Nat
  | 0, taken => pure taken
  | room + 1, taken => do
    let (p, _) ← Step.state
    if p.left < terminatorSize then
      pure taken
    else
      let v ← next.onFst
      if v.byteLen = terminatorSize then
        pure (taken + v.byteLen)
      else
        (Batch.push v).onSnd
        takeRun room (taken + v.byteLen)

/-- the next batch, in place of what the given one held -/
def read : Step (DeltaReader × Batch) Failure Nat := do
  let (r, _) ← Step.state
  if r.progress = .uninitialized then
    Step.fail Misuse.deltaNotPrepared
  else
    Step.put (r, {})
    match r.progress, r.page with
    | .exhausted, _ => pure 0
    | _, none =>
      Step.put ({ r with progress := .exhausted }, {})
      pure 0
    | _, some p =>
      let taken ← onPage p (takeRun batchSize 0)
      Step.update settle
      pure taken

theorem readPage_eq (o : Options) : readPage o = DeltaPage.read o := by
  rw [readPage, DeltaPage.read, DictionaryPage.Checked.read_eq]

theorem openPage_eq {b : Binding} {buffer : Bytes} {o : Options}
    (h : b.start + b.size ≤ buffer.length) :
    openPage b buffer o = DeltaReader.openPage b buffer o := by
  rw [openPage, DeltaReader.openPage, readPage_eq, Binding.slice_ok h]
  rfl

/-- a chunk is bound to with no check failing -/
theorem prepare_eq (column : Nat) (schema : SchemaElement) (chunk : ColumnChunk) :
    prepare column schema chunk r = DeltaReader.prepare column schema chunk r := by
  apply within_congr
  rw [update_bind, update_bind, state_bind, state_bind]
  refine bind_same (A := fun b t => b.start + b.size ≤ r.buffer.length ∧
    t = ofBuffer r.buffer r.options) (E := fun _ _ => True) rfl ?_ ?_
  · exact ends_mapError (ends_ofExcept (E := fun _ _ => True)
      (fun b h => ⟨bind_lies h, rfl⟩) fun _ _ => trivial) fun _ _ h => h
  · rintro b _ ⟨hlies, rfl⟩
    exact bind_same_left _ (congrArg (fun e => (liftM e : Step DeltaReader Failure _)
      (ofBuffer r.buffer r.options)) (openPage_eq hlies))

theorem next_eq : next = DeltaReader.next := by
  funext p
  rw [next, DeltaReader.next, Plain.Decoder.Checked.byteArray_eq]
  rcases h : Plain.Decoder.byteArray p.values with ⟨x | v, d⟩
  · rw [lift_error h]
    rfl
  · rw [lift_ok h]

theorem takeRun_eq (room : Nat) : ∀ taken, takeRun room taken = DeltaReader.takeRun room taken := by
  induction room with
  | zero => exact fun _ => rfl
  | succ room ih =>
    intro taken
    simp only [takeRun, DeltaReader.takeRun, next_eq, ih]

/-- the delta column is read with no check failing -/
theorem read_eq : read = DeltaReader.read := by
  rw [read, takeRun_eq]
  rfl

end Checked

end DeltaReader

end Columnar
