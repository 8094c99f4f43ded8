import Columnar.Cursor
import Columnar.Record.Page

/-!
# Pages

A page is a header and a body.  Pages are read where they stand, and only in the form in which
a flat, uncompressed column is written:

* `DataPage.read`         a data page of the first version, its levels in the hybrid encoding,
                          its values plain or as indices into a dictionary;
* `DictionaryPage.read`   the values that indices refer to.

What is refused is refused by its header, before the body is looked at.
-/

namespace Columnar

/-- the page header at the cursor; a header that cannot be read is not passed -/
def PageHeader.read (o : Options) : Step Cursor Failure PageHeader := do
  let rest ← Step.look Cursor.rest
  let (header, len) ← PageHeader.format.decode o rest
  Cursor.skip len
  pure header

/-- the size of the body, which has to be stored as it is -/
def PageHeader.bodySize (h : PageHeader) : Except Error Nat :=
  let compressed := h.compressedPageSize.toInt
  let uncompressed := h.uncompressedPageSize.toInt
  if compressed < 0 ∨ uncompressed < 0 then
    .error (Fault.negativePageSize compressed uncompressed)
  else if compressed ≠ uncompressed then
    .error (Fault.compressedPage compressed uncompressed)
  else .ok compressed.toNat

structure DataPage where
  /-- the number of slots -/
  numValues : Nat
  encoding : Encoding
  body : Bytes
deriving DecidableEq

/-- the header of a data page that can be read -/
def DataPage.check (h : PageHeader) : Except Error DataPageHeader :=
  match h.pageType, h.dataPageHeader with
  | .dataPage, none => .error Fault.noDataPageHeader
  | .dataPage, some d =>
    if d.numValues < 0 then .error (Fault.negativePageValueCount d.numValues.toInt)
    else if d.definitionLevelEncoding ≠ .rle then
      .error (Fault.levelEncoding d.definitionLevelEncoding)
    else if d.encoding ≠ .plain ∧ ¬ d.encoding.isDictionary then
      .error (Fault.pageEncoding d.encoding)
    else .ok d
  | .dataPageV2, _ => .error Fault.dataPageV2
  | t, _ => .error (Fault.notADataPage t)

def DataPage.read (o : Options) : Step Cursor Failure DataPage := do
  let header ← PageHeader.read o
  let size ← header.bodySize
  let d ← DataPage.check header
  let body ← Cursor.view size
  pure ⟨d.numValues.toInt.toNat, d.encoding, body⟩

structure DictionaryPage where
  numValues : Nat
  body : Bytes
deriving DecidableEq

/-- the header of a dictionary page that can be read -/
def DictionaryPage.check (h : PageHeader) : Except Error DictionaryPageHeader :=
  match h.pageType, h.dictionaryPageHeader with
  | .dictionaryPage, none => .error Fault.noDictionaryPageHeader
  | .dictionaryPage, some d =>
    if d.numValues < 0 then .error (Fault.negativeDictionaryValueCount d.numValues.toInt)
    else if d.encoding ≠ .plain ∧ d.encoding ≠ .plainDictionary then
      .error (Fault.dictionaryEncoding d.encoding)
    else .ok d
  | t, _ => .error (Fault.notADictionaryPage t)

def DictionaryPage.read (o : Options) : Step Cursor Failure DictionaryPage := do
  let header ← PageHeader.read o
  let size ← header.bodySize
  let d ← DictionaryPage.check header
  let body ← Cursor.view size
  pure ⟨d.numValues.toInt.toNat, body⟩

end Columnar
