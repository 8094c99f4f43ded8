import Columnar.Column.Binding
import Columnar.Page
import Columnar.Plain.Decoder

/-!
# Reading the delta column

A delta column holds runs of byte arrays.  It lies in one page with the header of a dictionary;
its values are plain, and an empty value ends a run.

* `DeltaReader.prepare`   binds the reader to a chunk and opens its page;
* `DeltaReader.read`      the rest of a run, sixteen values at most, and how many bytes it took.

A read stops behind the empty value that ends the run, which is not part of the batch.  A read
without values ends the column.
-/

namespace Columnar

/-- the values that are still to be read, and how many bytes of the page are left -/
structure DeltaPage where
  values : Plain.Decoder
  left : Nat
deriving DecidableEq

/-- the page at the cursor, with nothing of it read -/
def DeltaPage.read (o : Options) : Step Cursor Failure DeltaPage := do
  let page ← DictionaryPage.read o
  let values ← Plain.Decoder.ofBytes page.body .byteArray none
  pure ⟨values, page.body.length⟩

structure DeltaReader where
  buffer : Bytes
  options : Options
  progress : Progress := .uninitialized
  binding : Option Binding := none
  page : Option DeltaPage := none
deriving DecidableEq

namespace DeltaReader

def ofBuffer (buffer : Bytes) (options : Options) : DeltaReader := { buffer, options }

/-- the bytes of the page that are left, none without a page -/
def pageBytes (r : DeltaReader) : Nat := (r.page.map DeltaPage.left).getD 0

/-- the size of an empty value, which ends a run: its length alone -/
def terminatorSize : Nat := 4

/-- the binding of a chunk that can be a delta column -/
def bind (column : Nat) (schema : SchemaElement) (chunk : ColumnChunk) (size : Nat) :
    Except Error Binding := do
  let b ← Binding.ofChunk column schema chunk size
  if b.type ≠ .byteArray then
    .error (Fault.deltaNotByteArray b.name b.type)
  else if b.dictionaryOffset.isNone then
    .error (Fault.deltaWithoutPage b.name)
  else
    pure b

/-- the page of a chunk; a chunk without values or without bytes has none -/
def openPage (b : Binding) (buffer : Bytes) (o : Options) : Except Failure (Option DeltaPage) :=
  if b.numValues = 0 ∨ b.size = 0 then
    .ok none
  else
    some <$> (DeltaPage.read o).answer (.ofBytes (b.bytes buffer))

/-- bind the reader to a chunk; nothing of the last chunk remains -/
def prepare (column : Nat) (schema : SchemaElement) (chunk : ColumnChunk) :
    Step DeltaReader Failure Unit := Step.within (.preparingDelta column) do
  Step.update fun r => ofBuffer r.buffer r.options
  let r ← Step.state
  let b ← bind column schema chunk r.buffer.length
  let page ← openPage b r.buffer r.options
  Step.put { r with progress := .ready, binding := some b, page }

/-- the next value; where it cannot be read, the place in the page is said -/
def next : Step DeltaPage Failure Value := fun p =>
  match Plain.Decoder.byteArray p.values with
  | (.ok v, values) => (.ok v, ⟨values, p.left - v.byteLen⟩)
  | (.error e, values) =>
    (.error (.error (e.within (.decodingDelta values.consumed))), { p with values })

/-- the rest of a run, `room` values at most; the answer is the number of bytes that it took,
`taken` of them so far -/
def takeRun : Nat → Nat → Step (DeltaPage × Batch) Failure Nat
  | 0, taken => pure taken
  | room + 1, taken => do
    let (p, _) ← Step.state
    if p.left < terminatorSize then
      pure taken
    else
      let v ← next.onFst
      if v.byteLen = terminatorSize then
        pure (taken + v.byteLen)
      else
        (Batch.push v).onSnd
        takeRun room (taken + v.byteLen)

/-- a step on the page -/
def onPage {α : Type} (p : DeltaPage) (x : Step (DeltaPage × Batch) Failure α) :
    Step (DeltaReader × Batch) Failure α :=
  x.on (fun s => (p, s.2)) fun s t => ({ s.1 with page := some t.1 }, t.2)

/-- the slots of a batch that was taken; an empty one ends the column -/
def settle (s : DeltaReader × Batch) : DeltaReader × Batch :=
  let b := s.2.cover s.2.values.length 0
  if b.values.isEmpty then ({ s.1 with progress := .exhausted }, b) else (s.1, b)

/-- the next batch, in place of what the given one held, and how many bytes it took -/
def read : Step (DeltaReader × Batch) Failure Nat := do
  let (r, _) ← Step.state
  if r.progress = .uninitialized then
    Step.fail Misuse.deltaNotPrepared
  else
    Step.put (r, {})
    match r.progress, r.page with
    | .exhausted, _ => pure 0
    | _, none =>
      Step.put ({ r with progress := .exhausted }, {})
      pure 0
    | _, some p =>
      let taken ← onPage p (takeRun batchSize 0)
      Step.update settle
      pure taken

end DeltaReader

end Columnar
