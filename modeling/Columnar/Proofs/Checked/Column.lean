import Columnar.Proofs.Checked.Records
import Columnar.Proofs.Column.Accounts
import Columnar.Proofs.Column.Source

/-!
# Reading a column with every operation checked

The column reader with each operation checked that could fail on a machine: differences, places
in the buffer, what is read of the headers of pages, and shifts of the mask of a batch.  On a reader
that was prepared, no check fails.

* `ColumnReader.Checked.prepare`, `ColumnReader.Checked.read`   the checked calls;
* `ColumnReader.Checked.prepare_eq`, `ColumnReader.Checked.read_eq`   they are the calls.
-/

namespace Columnar

open Step

namespace OpenPage

variable {n : Nat} {dictionary : List Value}

namespace Checked

/-- the next value by its index -/
def lookUp (dictionary : List Value) : Step Hybrid.Decoder Failure Value := do
  let i ← Hybrid.Decoder.Checked.next
  match dictionary[i]? with
  | none => Step.fail (Fault.indexOutOfRange i dictionary.length)
  | some v => pure v

/-- `n` values of a page -/
def takeValues (dictionary : List Value) (n : Nat) : Step (PageValues × Batch) Failure Unit :=
  fun s =>
    match s.1 with
    | .plain d =>
      let (r, (d, b)) := Plain.Decoder.Checked.values n (d, s.2)
      (r, (.plain d, b))
    | .indices d =>
      let (r, (d, b)) := Batch.pushEach (lookUp dictionary) n (d, s.2)
      (r, (.indices d, b))

/-- the next `count` slots of a page: their mask is shifted by less than its sixteen bits, and
there are no more slots than that -/
def takeSlots (dictionary : List Value) (count : Nat) : Step (OpenPage × Batch) Failure Nat := do
  let (before, _) ← Step.state
  let (nulls, present) ← onLevels (Hybrid.Decoder.Checked.nullMask count)
  onValues (takeValues dictionary present)
  let (after, b) ← Step.state
  let levels ← subtract after.levels.consumed before.levels.consumed
  let values ← subtract after.values.consumed before.values.consumed
  Step.demand (b.total < batchSize) .shiftOverflow
  Step.demand (b.total + count ≤ batchSize) .vectorFull
  Step.update fun s => (s.1, s.2.cover count nulls)
  pure (levels + values)

end Checked

/-- values that are put into a batch are not slots of it yet -/
theorem takeValues_total (dictionary : List Value) {n : Nat} {p : PageValues} {b : Batch}
    (hp : p.Bounded) (hwidth : p.width * n < 2 ^ 64) (hroom : b.values.length + n ≤ batchSize) :
    Ends (fun _ t => p.Onward t.1 ∧ t.2.total = b.total) (fun _ _ => True)
      (takeValues dictionary n (p, b)) := by
  have hends := takeValues_ends dictionary hp hwidth hroom
  have hputs := takeValues_puts dictionary hwidth b hroom
  rcases h : takeValues dictionary n (p, b) with ⟨x | ⟨⟩, v, b'⟩
  · trivial
  · rw [h] at hends hputs
    refine ⟨hends, ?_⟩
    rcases hrun : Step.times n (PageValues.next dictionary) p with ⟨x | vs, q⟩
    · rw [hrun] at hputs
      obtain ⟨_, _, hputs⟩ := hputs
      cases hputs
    · rw [hrun] at hputs
      cases hputs
      rfl

namespace Checked

theorem lookUp_eq {d : Hybrid.Decoder} (hd : d.Bounded) (hsize : d.stream.size < 2 ^ 60) :
    lookUp dictionary d = OpenPage.lookUp dictionary d :=
  bind_same (Hybrid.Decoder.Checked.next_eq hd hsize) (Hybrid.Decoder.next_ends hd).lift
    fun _ _ _ => rfl

theorem takeValues_eq {p : PageValues} (hp : p.Bounded) (hsize : p.size < 2 ^ 60) (b : Batch) :
    takeValues dictionary n (p, b) = OpenPage.takeValues dictionary n (p, b) := by
  match p with
  | .plain d =>
    have h := Plain.Decoder.Checked.values_eq n hp b
    simp only [takeValues, OpenPage.takeValues, h]
  | .indices d =>
    have hsame (e : Hybrid.Decoder) (he : d.Onward e) :
        lookUp dictionary e = OpenPage.lookUp dictionary e :=
      lookUp_eq he.bounded (he.follows.stream.size ▸ hsize)
    have h := Batch.pushEach_same hsame (lookUp_onward dictionary d) n d b (.refl hp)
    simp only [takeValues, OpenPage.takeValues, h]

/-- slots of a page are taken into a batch with room for them with no check failing -/
theorem takeSlots_eq (dictionary : List Value) {count : Nat} {p : OpenPage} {b : Batch}
    {s : List (Option Value)} (hp : p.Sound n) (hn : n < 2 ^ 60) (hb : b.Holds s)
    (hroom : s.length < batchSize) (hcount : s.length + count ≤ batchSize) :
    takeSlots dictionary count (p, b) = OpenPage.takeSlots dictionary count (p, b) := by
  have hmask : count ≤ Hybrid.Decoder.maskSize := Nat.le_trans (Nat.le_add_left ..) hcount
  have hsize : p.values.size < 2 ^ 60 :=
    Nat.lt_of_le_of_lt (Nat.le_trans (Nat.le_add_left ..) hp.size) hn
  have htotal := hb.total
  have hlength := hb.length_values
  rw [takeSlots, OpenPage.takeSlots, state_bind, state_bind]
  refine bind_same (on_same (Hybrid.Decoder.Checked.nullMask_eq hmask hp.readable.levels))
    (ends_on (Hybrid.Decoder.nullMask_ends hmask hp.levels)) ?_
  rintro ⟨mask, present⟩ _ ⟨l, ⟨hl, hle⟩, rfl⟩
  have hle' : present ≤ count := hle
  have hroom' : b.values.length + present ≤ batchSize := by omega
  have hwidth : p.values.width * present < 2 ^ 64 :=
    Nat.lt_of_le_of_lt (Nat.mul_le_mul_left _ (show present ≤ batchSize by omega))
      hp.readable.values
  refine bind_same (on_same (takeValues_eq hp.values hsize b))
    (ends_on (takeValues_total dictionary hp.values hwidth hroom')) ?_
  rintro ⟨⟩ _ ⟨⟨v, b'⟩, ⟨hv, hstay⟩, rfl⟩
  have hstay' : b'.total = b.total := hstay
  have hlevels : p.levels.consumed ≤ l.consumed := hl.follows.stream.pos
  rw [state_bind, state_bind]
  refine (subtract_bind hlevels _ _).trans (Eq.trans ?_ (subtract_bind hlevels _ _).symm)
  refine (subtract_bind hv.follows.consumed _ _).trans
    (Eq.trans ?_ (subtract_bind hv.follows.consumed _ _).symm)
  refine (demand_bind (show b'.total < batchSize by omega) _ _ _).trans ?_
  exact demand_bind (show b'.total + count ≤ batchSize by omega) _ _ _

end Checked

end OpenPage

/-- the bytes of a chunk, which has to lie in the buffer -/
def Binding.slice (b : Binding) (buffer : Bytes) : Except Failure Bytes :=
  Columnar.slice buffer b.start (b.start + b.size)

theorem Binding.slice_ok {b : Binding} {buffer : Bytes} (h : b.start + b.size ≤ buffer.length) :
    b.slice buffer = .ok (b.bytes buffer) := by
  rw [slice, Columnar.slice_ok (Nat.le_add_right ..) h, Nat.add_sub_cancel_left]
  rfl

namespace ColumnReader

variable {b : Binding} {r : ColumnReader} {g : Progress} {clean : Prop}

namespace Checked

/-- the entries of a dictionary page, which have to fill it -/
def entries (page : DictionaryPage) (b : Binding) : Except Failure (List Value) :=
  match Plain.Decoder.ofBytes page.body b.type b.typeLength with
  | .error e => .error e
  | .ok d =>
    match Step.times page.numValues Plain.Decoder.Checked.value d with
    | (.error e, _) => .error e
    | (.ok vs, d) =>
      if d.consumed = page.body.length then .ok vs
      else .error (Fault.dictionarySizeMismatch page.body.length page.numValues d.consumed)

/-- read the dictionary, if the chunk has one -/
def loadDictionary : Step ColumnReader Failure Unit := do
  let b ← bound
  let r ← Step.state
  if b.dictionaryOffset.isSome then
    if ¬ r.options.dictionary then
      Step.fail Fault.dictionaryDisabled
    else
      let page ← onChunk (DictionaryPage.Checked.read r.options)
      let dictionary ← entries page b
      let (_, left) ← passed r.chunk.pos
      Step.update fun r => { r with columnBytes := left, dictionary }

/-- open the next data page -/
def openPage : Step ColumnReader Failure Nat := do
  let r ← Step.state
  let columnBytes ← subtract r.columnBytes r.pageBytes
  Step.put { r with columnBytes, pageBytes := 0, page := none }
  let page ← onChunk (DataPage.Checked.read r.options)
  let (size, _) ← passed r.chunk.pos
  enterPage page size

/-- bind the reader to a chunk; nothing of the last chunk remains -/
def prepare (column : Nat) (schema : SchemaElement) (chunk : ColumnChunk) :
    Step ColumnReader Failure Unit := Step.within (.preparingColumn column) do
  Step.update fun r => ofBuffer r.buffer r.options
  let r ← Step.state
  let b ← Binding.ofChunk column schema chunk r.buffer.length
  let bytes ← b.slice r.buffer
  if b.numValues = 0 ∨ b.size = 0 then
    Step.put { r with
      binding := some b
      chunk := .ofBytes bytes
      columnBytes := b.size
      progress := .ready }
  else
    Step.put { r with
      binding := some b
      chunk := .ofBytes bytes
      columnValues := b.numValues
      columnBytes := b.size }
    loadDictionary
    let _ ← openPage
    Step.update fun r => { r with progress := .ready }

/-- the next slots of the open page into the batch -/
def takeBatch (count : Nat) : Step (ColumnReader × Batch) Failure Nat := fun s =>
  match s.1.page with
  | none => (.error (.misuse .noPage), s)
  | some page =>
    let (r, (page, b)) := OpenPage.Checked.takeSlots s.1.dictionary count (page, s.2)
    (r, ({ s.1 with page := some page }, b))

/-- what the open page has for the batch, which has room for sixteen slots less those it has -/
def takePage (b : Binding) : Step (ColumnReader × Batch) Failure Nat := do
  let (r, batch) ← Step.state
  let room ← subtract batchSize batch.total
  let count := min r.pageValues room
  let bytes ← (takeBatch count).within (.decodingColumn b.column)
  if r.pageBytes < bytes then
    Step.fail (Fault.batchPastPage bytes r.pageBytes)
  else
    let columnBytes ← subtract r.columnBytes bytes
    let pageValues ← subtract r.pageValues count
    let columnValues ← subtract r.columnValues count
    Step.update fun s => ({ s.1 with
      pageBytes := r.pageBytes - bytes, columnBytes, pageValues, columnValues }, s.2)
    pure bytes

/-- open the next page where nothing is left of the last one -/
def turnPage (b : Binding) : Step ColumnReader Failure Nat := do
  let r ← Step.state
  if r.pageValues = 0 then openPage.within (.readingPage b.column) else pure 0

/-- fill the batch from this page and the next ones -/
def fill : Nat → Nat → Step (ColumnReader × Batch) Failure Nat
  | 0, taken => pure taken
  | fuel + 1, taken => do
    let (r, batch) ← Step.state
    if batch.total < batchSize ∧ 0 < r.columnValues then
      let b ← bound.onFst
      let upfront ← (turnPage b).onFst
      let bytes ← takePage b
      fill fuel (taken + upfront + bytes)
    else
      pure taken

/-- the next batch, in place of what the given one held, and how many bytes it took -/
def read : Step (ColumnReader × Batch) Failure Nat := do
  let (r, _) ← Step.state
  if r.progress = .uninitialized then
    Step.fail Misuse.columnNotPrepared
  else
    Step.put (r, {})
    if r.progress = .exhausted then
      pure 0
    else if r.columnValues = 0 then
      Step.put ({ r with progress := .exhausted }, {})
      pure 0
    else
      fill batchSize 0

/-- values of one type are read one after the other with no check failing -/
theorem times_value_eq (n : Nat) {d : Plain.Decoder} (hd : d.bitOffset < 8) :
    Step.times n Plain.Decoder.Checked.value d =
      (liftM (Step.times n Plain.Decoder.value) : Step Plain.Decoder Failure _) d := by
  rw [lift_times]
  exact times_congr (fun e he => Plain.Decoder.Checked.value_eq he.bounded)
    (maintains_mapError (Plain.Decoder.value_onward d)) n d (.refl hd)

theorem entries_eq (page : DictionaryPage) (b : Binding) (r : ColumnReader) :
    (liftM (entries page b) : Step ColumnReader Failure (List Value)) r =
      (liftM (ColumnReader.entries page b) : Step ColumnReader Failure (List Value)) r := by
  unfold entries ColumnReader.entries
  rcases hd : Plain.Decoder.ofBytes page.body b.type b.typeLength with x | d
  · rfl
  have hbit : d.bitOffset < 8 := by
    rw [(Plain.Decoder.ofBytes_start hd).2]
    decide
  have htimes := times_value_eq page.numValues hbit
  rw [Except.bind_ok rfl]
  dsimp only
  rcases hrun : Step.times page.numValues Plain.Decoder.value d with ⟨x | vs, e⟩
  · rw [lift_error hrun] at htimes
    rw [htimes]
    rfl
  · rw [lift_ok hrun] at htimes
    rw [htimes]
    dsimp only
    split <;> rfl

theorem loadDictionary_eq (hr : r.binding = some b) :
    loadDictionary r = ColumnReader.loadDictionary r := by
  rw [loadDictionary, ColumnReader.loadDictionary, bind_ok (bound_ok hr), bind_ok (bound_ok hr),
    state_bind, state_bind]
  split
  · split
    · rfl
    · rw [DictionaryPage.Checked.read_eq, bind_apply, bind_apply]
      rcases onChunk (DictionaryPage.read r.options) r with ⟨x | page, t⟩
      · rfl
      · exact bind_same_left _ (entries_eq page b t)
  · rfl

theorem openPage_eq : openPage = ColumnReader.openPage := by
  rw [openPage, ColumnReader.openPage]
  simp only [DataPage.Checked.read_eq]

theorem turnPage_eq (b : Binding) : turnPage b = ColumnReader.turnPage b := by
  rw [turnPage, ColumnReader.turnPage, openPage_eq]

/-- a chunk is bound to with no check failing -/
theorem prepare_eq (column : Nat) (schema : SchemaElement) (chunk : ColumnChunk) :
    prepare column schema chunk r = ColumnReader.prepare column schema chunk r := by
  apply within_congr
  rw [update_bind, update_bind, state_bind, state_bind]
  refine bind_same (A := fun b t => b.start + b.size ≤ r.buffer.length ∧
    t = ofBuffer r.buffer r.options) (E := fun _ _ => True) rfl ?_ ?_
  · exact ends_mapError (ends_ofExcept (E := fun _ _ => True)
      (fun b h => ⟨(Binding.ofChunk_spec h).2, rfl⟩) fun _ _ => trivial) fun _ _ h => h
  · rintro b _ ⟨hlies, rfl⟩
    refine (bind_ok (ofExcept_ok (Binding.slice_ok hlies) _) _).trans ?_
    split
    · rfl
    · rw [put_bind, put_bind, openPage_eq]
      exact bind_same_left _ (loadDictionary_eq (r := r.atChunk b) rfl)

theorem takeBatch_eq {count : Nat} {batch : Batch} {s : List (Option Value)}
    (hr : r.Kept clean g b) (hsize : r.buffer.length < 2 ^ 60) (hs : batch.Holds s)
    (hroom : s.length < batchSize) (hcount : s.length + count ≤ batchSize) :
    takeBatch count (r, batch) = ColumnReader.takeBatch count (r, batch) := by
  unfold takeBatch ColumnReader.takeBatch
  cases hp : r.page with
  | none => rfl
  | some p =>
    have hslots := OpenPage.Checked.takeSlots_eq r.dictionary (hr.sound p hp) hsize hs hroom hcount
    dsimp only
    rw [hslots]

theorem takePage_eq {batch : Batch} {s : List (Option Value)} (hr : r.Kept clean g b)
    (hsize : r.buffer.length < 2 ^ 60) (hs : batch.Holds s) (hroom : s.length < batchSize) :
    takePage b (r, batch) = ColumnReader.takePage b (r, batch) := by
  have htotal := hs.total
  rw [takePage, ColumnReader.takePage, state_bind, state_bind]
  dsimp only
  rw [subtract_bind (by omega)]
  exact bind_same_left _ (within_congr (takeBatch_eq hr hsize hs hroom (by omega)))

/-- a batch is filled with no check failing -/
theorem fill_eq (fuel : Nat) : ∀ (taken : Nat) {r : ColumnReader} {batch : Batch}
    {s : List (Option Value)}, r.Kept clean g b → r.buffer.length < 2 ^ 60 → batch.Holds s →
    s.length ≤ batchSize →
    fill fuel taken (r, batch) = ColumnReader.fill fuel taken (r, batch) := by
  induction fuel with
  | zero => exact fun _ _ _ _ _ _ _ _ => rfl
  | succ fuel ih =>
    intro taken r batch s hr hsize hs hroom
    have htotal := hs.total
    rw [fill, ColumnReader.fill, state_bind, state_bind]
    dsimp only
    split
    · rename_i hgo
      have hover : Over r.buffer r.options r := ⟨rfl, rfl⟩
      have hturn := turnPage_ends hr
      have hturned := (turnPage_over b r hover).1
      rw [bind_ok (onFst_ok (bound_ok hr.binding) batch),
        bind_ok (onFst_ok (bound_ok hr.binding) batch), turnPage_eq]
      rcases h : ColumnReader.turnPage b r with ⟨x | upfront, r₁⟩
      · rw [bind_error (onFst_error h batch), bind_error (onFst_error h batch)]
      rw [h] at hturn hturned
      obtain ⟨hr₁, hpos, -, -⟩ := hturn
      have hsize₁ : r₁.buffer.length < 2 ^ 60 := by
        rw [hturned.buffer]
        exact hsize
      have htake := takePage_ends hr₁ hpos hs (by omega)
      have htaken := (takePage_over b (r₁, batch) hturned).1
      rw [bind_ok (onFst_ok h batch), bind_ok (onFst_ok h batch)]
      have hsame := takePage_eq (r := r₁) hr₁ hsize₁ hs (by omega)
      rcases h' : ColumnReader.takePage b (r₁, batch) with ⟨x | bytes, r₂, batch₂⟩
      · rw [bind_error (hsame.trans h'), bind_error h']
      rw [h'] at htake htaken
      obtain ⟨hr₂, -, S, hholds, -, hfits, -⟩ := htake
      rw [bind_ok (hsame.trans h'), bind_ok h']
      refine ih _ hr₂ ?_ hholds ?_
      · rw [htaken.buffer]
        exact hsize
      · rw [List.length_append]
        exact hfits
    · rfl

/-- a reader that is prepared is read with no check failing -/
theorem read_eq (hr : r.Kept clean g b) (hsize : r.buffer.length < 2 ^ 60) (v : Batch) :
    read (r, v) = ColumnReader.read (r, v) := by
  rw [read, ColumnReader.read, state_bind, state_bind]
  dsimp only
  split
  · rfl
  · rw [put_bind, put_bind]
    split
    · rfl
    · split
      · rfl
      · exact fill_eq batchSize 0 hr hsize Batch.holds_nil (Nat.zero_le _)

end Checked

end ColumnReader

end Columnar
