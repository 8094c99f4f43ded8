import Columnar.Proofs.Column.Page

/-!
# A chunk read as a whole

The plain way to read a chunk: its dictionary, then one page after the other, each with all its
levels and then all its values.  It is what the reader in batches is held against.

* `Whole.slots o b dictionary left`   the next `left` slots, of whole pages;
* `Whole.chunk o b buffer`            the slots of a chunk.
-/

namespace Columnar

namespace Whole

variable (o : Options) (b : Binding)

/-- the entries of the dictionary at the cursor, none where the chunk has no dictionary -/
def dictionary : Step Cursor Failure (List Value) :=
  if b.dictionaryOffset.isSome then do
    let page ← DictionaryPage.read o
    let entries ← (ColumnReader.entries page b : Except Error (List Value))
    pure entries
  else pure []

/-- the next `left` slots, of whole pages; a page has to have slots, and no more than are left -/
def slots (dictionary : List Value) (left : Nat) : Step Cursor Failure (List (Option Value)) :=
  if left = 0 then pure []
  else do
    let page ← DataPage.read o
    if _h : page.numValues = 0 ∨ left < page.numValues then
      Step.fail (if page.numValues = 0 then Fault.emptyDataPage
        else Fault.tooManyPageValues page.numValues left)
    else
      let (p, _) ← (ColumnReader.openBody b page : Except Error _)
      let first ← p.slots dictionary page.numValues
      let rest ← slots dictionary (left - page.numValues)
      pure (first ++ rest)
termination_by left
decreasing_by omega

/-- the slots of a chunk -/
def chunk (buffer : Bytes) : Except Failure (List (Option Value)) :=
  (do
    let entries ← dictionary o b
    slots o b entries b.numValues : Step Cursor Failure _).answer (.ofBytes (b.bytes buffer))

end Whole

end Columnar
