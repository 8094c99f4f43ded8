import Columnar.Column.Binding
import Columnar.Hybrid.Decoder
import Columnar.Levels
import Columnar.Page
import Columnar.Plain.Decoder

/-!
# Reading a column

A column reader is bound to one chunk after another and yields its slots in batches of sixteen;
only the last batch of a chunk is shorter.  A batch may take the end of one page and the start
of the next.

* `ColumnReader.prepare`   binds the reader to a chunk, and reads its dictionary and the header
                           of its first page;
* `ColumnReader.read`      the next batch, and how many bytes it took.

The reader counts what is left of the chunk and of the page, in slots and in bytes.  The header
of a page, the length of its levels and the width of its indices count as soon as the page is
opened.  A read that fails leaves the reader where the failure was met.
-/

namespace Columnar

/-- the values of an open page: plain ones, or indices into the dictionary -/
inductive PageValues where
  | plain (d : Plain.Decoder)
  | indices (d : Hybrid.Decoder)
deriving DecidableEq

namespace PageValues

def consumed : PageValues → Nat
  | plain d => d.consumed
  | indices d => d.consumed

end PageValues

/-- a page whose slots are being read -/
structure OpenPage where
  levels : Hybrid.Decoder
  values : PageValues
deriving DecidableEq

structure ColumnReader where
  buffer : Bytes
  options : Options
  progress : Progress := .uninitialized
  binding : Option Binding := none
  /-- a cursor over the chunk -/
  chunk : Cursor := .ofBytes []
  columnValues : Nat := 0
  columnBytes : Nat := 0
  pageValues : Nat := 0
  pageBytes : Nat := 0
  page : Option OpenPage := none
  dictionary : List Value := []
deriving DecidableEq

/-! ## the slots of a page -/

namespace OpenPage

/-- the next value by its index -/
def lookUp (dictionary : List Value) : Step Hybrid.Decoder Failure Value := do
  let i ← (Hybrid.Decoder.next : Step Hybrid.Decoder Failure Nat)
  match dictionary[i]? with
  | none => Step.fail (Fault.indexOutOfRange i dictionary.length)
  | some v => pure v

/-- `n` values of a page -/
def takeValues (dictionary : List Value) (n : Nat) : Step (PageValues × Batch) Failure Unit :=
  fun s =>
    match s.1 with
    | .plain d =>
      let (r, (d, b)) := Plain.Decoder.values n (d, s.2)
      (r, (.plain d, b))
    | .indices d =>
      let (r, (d, b)) := Batch.pushEach (lookUp dictionary) n (d, s.2)
      (r, (.indices d, b))

/-- a step on the levels -/
def onLevels {α : Type} (x : Step Hybrid.Decoder Failure α) : Step (OpenPage × Batch) Failure α :=
  x.on (fun s => s.1.levels) fun s levels => ({ s.1 with levels }, s.2)

/-- a step on the values -/
def onValues {α : Type} (x : Step (PageValues × Batch) Failure α) :
    Step (OpenPage × Batch) Failure α :=
  x.on (fun s => (s.1.values, s.2)) fun s t => ({ s.1 with values := t.1 }, t.2)

/-- the next `count` slots of a page into a batch, and how many bytes they take -/
def takeSlots (dictionary : List Value) (count : Nat) : Step (OpenPage × Batch) Failure Nat := do
  let (before, _) ← Step.state
  let (nulls, present) ← onLevels (Hybrid.Decoder.nullMask count)
  onValues (takeValues dictionary present)
  let (after, _) ← Step.state
  let levels ← subtract after.levels.consumed before.levels.consumed
  let values ← subtract after.values.consumed before.values.consumed
  Step.update fun s => (s.1, s.2.cover count nulls)
  pure (levels + values)

end OpenPage

namespace ColumnReader

def ofBuffer (buffer : Bytes) (options : Options) : ColumnReader := { buffer, options }

/-- the binding, which every reader that was prepared has -/
def bound : Step ColumnReader Failure Binding := do
  let r ← Step.state
  match r.binding with
  | some b => pure b
  | none => Step.fail Misuse.unbound

/-- a step of the cursor over the chunk -/
def onChunk {α : Type} (x : Step Cursor Failure α) : Step ColumnReader Failure α :=
  x.on ColumnReader.chunk fun r chunk => { r with chunk }

/-! ## opening pages -/

/-- the size of the page that began at `start` and ends at the cursor, and the bytes of the
chunk that are left behind it -/
def passed (start : Nat) : Step ColumnReader Failure (Nat × Nat) := do
  let r ← Step.state
  let size ← subtract r.chunk.pos start
  if r.columnBytes < size then
    Step.fail (Fault.pagePastChunk size r.columnBytes)
  else
    pure (size, r.columnBytes - size)

/-- the entries of a dictionary page, which have to fill it -/
def entries (page : DictionaryPage) (b : Binding) : Except Error (List Value) := do
  let d ← Plain.Decoder.ofBytes page.body b.type b.typeLength
  match Step.times page.numValues Plain.Decoder.value d with
  | (.error e, _) => .error e
  | (.ok vs, d) =>
    if d.consumed = page.body.length then .ok vs
    else .error (Fault.dictionarySizeMismatch page.body.length page.numValues d.consumed)

/-- read the dictionary, if the chunk has one -/
def loadDictionary : Step ColumnReader Failure Unit := do
  let b ← bound
  let r ← Step.state
  if b.dictionaryOffset.isSome then
    if ¬ r.options.dictionary then
      Step.fail Fault.dictionaryDisabled
    else
      let page ← onChunk (DictionaryPage.read r.options)
      let dictionary ← (entries page b : Except Error (List Value))
      let (_, left) ← passed r.chunk.pos
      Step.update fun r => { r with columnBytes := left, dictionary }

/-- the values of a data page that stand behind its levels, and how many bytes lie before
them -/
def openValues (b : Binding) (encoding : Encoding) (bs : Bytes) : Except Error (PageValues × Nat) :=
  if encoding.isDictionary then
    if b.dictionaryOffset.isNone then .error Fault.noDictionaryPage
    else match bs with
      | [] => .error Fault.noIndexWidth
      | width :: bs => do
        let d ← Hybrid.Decoder.ofBytes bs width.toNat
        pure (.indices d, 1)
  else do
    let d ← Plain.Decoder.ofBytes bs b.type b.typeLength
    pure (.plain d, 0)

/-- the levels and the values of a data page, and how many bytes of its body lie before the
levels and the values -/
def openBody (b : Binding) (page : DataPage) : Except Error (OpenPage × Nat) := do
  let (levels, rest) ← splitLevels page.body
  let (values, width) ← openValues b page.encoding rest
  let levels ← Hybrid.Decoder.ofBytes levels 1
  pure (⟨levels, values⟩, 4 + width)

/-- take up a page of `size` bytes that ends at the cursor.  The answer is the number of bytes
before the levels and the values -/
def enterPage (page : DataPage) (size : Nat) : Step ColumnReader Failure Nat := do
  let r ← Step.state
  if page.numValues = 0 then
    Step.fail Fault.emptyDataPage
  else if r.columnValues < page.numValues then
    Step.fail (Fault.tooManyPageValues page.numValues r.columnValues)
  else
    let b ← bound
    let (opened, front) ← openBody b page
    let header ← subtract size page.body.length
    let upfront := header + front
    let columnBytes ← subtract r.columnBytes upfront
    let pageBytes ← subtract size upfront
    Step.put
      { r with columnBytes, pageBytes, pageValues := page.numValues, page := some opened }
    pure upfront

/-- open the next data page; what the last one left unread is passed over -/
def openPage : Step ColumnReader Failure Nat := do
  let r ← Step.state
  let columnBytes ← subtract r.columnBytes r.pageBytes
  Step.put { r with columnBytes, pageBytes := 0, page := none }
  let page ← onChunk (DataPage.read r.options)
  let (size, _) ← passed r.chunk.pos
  enterPage page size

/-! ## binding and reading -/

/-- bind the reader to a chunk; nothing of the last chunk remains.  A chunk without values or
without bytes has nothing to read -/
def prepare (column : Nat) (schema : SchemaElement) (chunk : ColumnChunk) :
    Step ColumnReader Failure Unit := Step.within (.preparingColumn column) do
  Step.update fun r => ofBuffer r.buffer r.options
  let r ← Step.state
  let b ← Binding.ofChunk column schema chunk r.buffer.length
  if b.numValues = 0 ∨ b.size = 0 then
    Step.put { r with
      binding := some b
      chunk := .ofBytes (b.bytes r.buffer)
      columnBytes := b.size
      progress := .ready }
  else
    Step.put { r with
      binding := some b
      chunk := .ofBytes (b.bytes r.buffer)
      columnValues := b.numValues
      columnBytes := b.size }
    loadDictionary
    let _ ← openPage
    Step.update fun r => { r with progress := .ready }

/-- the next slots of the open page into the batch, no more than it has room for -/
def takeBatch (count : Nat) : Step (ColumnReader × Batch) Failure Nat := fun s =>
  match s.1.page with
  | none => (.error (.misuse .noPage), s)
  | some page =>
    let (r, (page, b)) := OpenPage.takeSlots s.1.dictionary count (page, s.2)
    (r, ({ s.1 with page := some page }, b))

/-- what the open page has for the batch, and how many bytes it takes -/
def takePage (b : Binding) : Step (ColumnReader × Batch) Failure Nat := do
  let (r, batch) ← Step.state
  let count := min r.pageValues (batchSize - batch.total)
  let bytes ← (takeBatch count).within (.decodingColumn b.column)
  if r.pageBytes < bytes then
    Step.fail (Fault.batchPastPage bytes r.pageBytes)
  else
    let columnBytes ← subtract r.columnBytes bytes
    let pageValues ← subtract r.pageValues count
    let columnValues ← subtract r.columnValues count
    Step.update fun s => ({ s.1 with
      pageBytes := r.pageBytes - bytes, columnBytes, pageValues, columnValues }, s.2)
    pure bytes

/-- open the next page where nothing is left of the last one; the answer is the number of bytes
in front of its slots -/
def turnPage (b : Binding) : Step ColumnReader Failure Nat := do
  let r ← Step.state
  if r.pageValues = 0 then openPage.within (.readingPage b.column) else pure 0

/-- fill the batch from this page and the next ones; the answer is the number of bytes that it
took, `taken` of them so far.  Every page gives a slot at least, so that `fuel` pages suffice
for `fuel` slots -/
def fill : Nat → Nat → Step (ColumnReader × Batch) Failure Nat
  | 0, taken => pure taken
  | fuel + 1, taken => do
    let (r, batch) ← Step.state
    if batch.total < batchSize ∧ 0 < r.columnValues then
      let b ← bound.onFst
      let upfront ← (turnPage b).onFst
      let bytes ← takePage b
      fill fuel (taken + upfront + bytes)
    else
      pure taken

/-- the next batch, in place of what the given one held, and how many bytes it took; without
slots left, the reader is exhausted and the batch empty -/
def read : Step (ColumnReader × Batch) Failure Nat := do
  let (r, _) ← Step.state
  if r.progress = .uninitialized then
    Step.fail Misuse.columnNotPrepared
  else
    Step.put (r, {})
    if r.progress = .exhausted then
      pure 0
    else if r.columnValues = 0 then
      Step.put ({ r with progress := .exhausted }, {})
      pure 0
    else
      fill batchSize 0

end ColumnReader

end Columnar
