import Columnar.Record.Statistics

/-!
# Page headers

A page header says what kind of page follows and how long it is.  The second version of data
pages is read so that it can be refused by name.
-/

namespace Columnar

structure DataPageHeader where
  /-- the number of slots, empty ones included -/
  numValues : Int32
  encoding : Encoding
  definitionLevelEncoding : Encoding
  repetitionLevelEncoding : Encoding
  statistics : Option Statistics
deriving DecidableEq

structure DataPageHeader.Draft where
  numValues : Option Int32 := none
  encoding : Option Encoding := none
  definitionLevelEncoding : Option Encoding := none
  repetitionLevelEncoding : Option Encoding := none
  statistics : Option Statistics := none

def DataPageHeader.format : Format DataPageHeader where
  kind := .dataPageHeader
  Draft := DataPageHeader.Draft
  blank := {}
  fields := [
    { id := 1, codec := .i32, get := (·.numValues),
      set := fun d x => { d with numValues := some x } },
    { id := 2, codec := .code Encoding, get := (·.encoding),
      set := fun d x => { d with encoding := some x } },
    { id := 3, codec := .code Encoding, get := (·.definitionLevelEncoding),
      set := fun d x => { d with definitionLevelEncoding := some x } },
    { id := 4, codec := .code Encoding, get := (·.repetitionLevelEncoding),
      set := fun d x => { d with repetitionLevelEncoding := some x } },
    { id := 5, codec := .record Statistics.format, get := (·.statistics),
      set := fun d x => { d with statistics := some x } }]
  finish d := do
    let numValues ← require .dataPageHeader "num_values" d.numValues
    let encoding ← require .dataPageHeader "encoding" d.encoding
    let definitionLevelEncoding ←
      require .dataPageHeader "definition_level_encoding" d.definitionLevelEncoding
    let repetitionLevelEncoding ←
      require .dataPageHeader "repetition_level_encoding" d.repetitionLevelEncoding
    pure { d with numValues, encoding, definitionLevelEncoding, repetitionLevelEncoding }
  draft r := { r with
    numValues := some r.numValues
    encoding := some r.encoding
    definitionLevelEncoding := some r.definitionLevelEncoding
    repetitionLevelEncoding := some r.repetitionLevelEncoding }

structure DictionaryPageHeader where
  numValues : Int32
  encoding : Encoding
  isSorted : Option Bool
deriving DecidableEq

structure DictionaryPageHeader.Draft where
  numValues : Option Int32 := none
  encoding : Option Encoding := none
  isSorted : Option Bool := none

def DictionaryPageHeader.format : Format DictionaryPageHeader where
  kind := .dictionaryPageHeader
  Draft := DictionaryPageHeader.Draft
  blank := {}
  fields := [
    { id := 1, codec := .i32, get := (·.numValues),
      set := fun d x => { d with numValues := some x } },
    { id := 2, codec := .code Encoding, get := (·.encoding),
      set := fun d x => { d with encoding := some x } },
    { id := 3, codec := .bool, get := (·.isSorted),
      set := fun d x => { d with isSorted := some x } }]
  finish d := do
    let numValues ← require .dictionaryPageHeader "num_values" d.numValues
    let encoding ← require .dictionaryPageHeader "encoding" d.encoding
    pure { d with numValues, encoding }
  draft r := { r with numValues := some r.numValues, encoding := some r.encoding }

structure DataPageHeaderV2 where
  numValues : Int32
  numNulls : Int32
  numRows : Int32
  encoding : Encoding
  definitionLevelsByteLength : Int32
  repetitionLevelsByteLength : Int32
  isCompressed : Option Bool
  statistics : Option Statistics
deriving DecidableEq

structure DataPageHeaderV2.Draft where
  numValues : Option Int32 := none
  numNulls : Option Int32 := none
  numRows : Option Int32 := none
  encoding : Option Encoding := none
  definitionLevelsByteLength : Option Int32 := none
  repetitionLevelsByteLength : Option Int32 := none
  isCompressed : Option Bool := none
  statistics : Option Statistics := none

def DataPageHeaderV2.format : Format DataPageHeaderV2 where
  kind := .dataPageHeaderV2
  Draft := DataPageHeaderV2.Draft
  blank := {}
  fields := [
    { id := 1, codec := .i32, get := (·.numValues),
      set := fun d x => { d with numValues := some x } },
    { id := 2, codec := .i32, get := (·.numNulls),
      set := fun d x => { d with numNulls := some x } },
    { id := 3, codec := .i32, get := (·.numRows),
      set := fun d x => { d with numRows := some x } },
    { id := 4, codec := .code Encoding, get := (·.encoding),
      set := fun d x => { d with encoding := some x } },
    { id := 5, codec := .i32, get := (·.definitionLevelsByteLength),
      set := fun d x => { d with definitionLevelsByteLength := some x } },
    { id := 6, codec := .i32, get := (·.repetitionLevelsByteLength),
      set := fun d x => { d with repetitionLevelsByteLength := some x } },
    { id := 7, codec := .bool, get := (·.isCompressed),
      set := fun d x => { d with isCompressed := some x } },
    { id := 8, codec := .record Statistics.format, get := (·.statistics),
      set := fun d x => { d with statistics := some x } }]
  finish d := do
    let numValues ← require .dataPageHeaderV2 "num_values" d.numValues
    let numNulls ← require .dataPageHeaderV2 "num_nulls" d.numNulls
    let numRows ← require .dataPageHeaderV2 "num_rows" d.numRows
    let encoding ← require .dataPageHeaderV2 "encoding" d.encoding
    let definitionLevelsByteLength ←
      require .dataPageHeaderV2 "definition_levels_byte_length" d.definitionLevelsByteLength
    let repetitionLevelsByteLength ←
      require .dataPageHeaderV2 "repetition_levels_byte_length" d.repetitionLevelsByteLength
    pure { d with
      numValues, numNulls, numRows, encoding, definitionLevelsByteLength,
      repetitionLevelsByteLength }
  draft r := { r with
    numValues := some r.numValues
    numNulls := some r.numNulls
    numRows := some r.numRows
    encoding := some r.encoding
    definitionLevelsByteLength := some r.definitionLevelsByteLength
    repetitionLevelsByteLength := some r.repetitionLevelsByteLength }

structure PageHeader where
  pageType : PageType
  uncompressedPageSize : Int32
  compressedPageSize : Int32
  crc : Option Int32
  dataPageHeader : Option DataPageHeader
  dictionaryPageHeader : Option DictionaryPageHeader
  dataPageHeaderV2 : Option DataPageHeaderV2
deriving DecidableEq

structure PageHeader.Draft where
  pageType : Option PageType := none
  uncompressedPageSize : Option Int32 := none
  compressedPageSize : Option Int32 := none
  crc : Option Int32 := none
  dataPageHeader : Option DataPageHeader := none
  dictionaryPageHeader : Option DictionaryPageHeader := none
  dataPageHeaderV2 : Option DataPageHeaderV2 := none

/-- the number 6 is not read -/
def PageHeader.format : Format PageHeader where
  kind := .pageHeader
  Draft := PageHeader.Draft
  blank := {}
  fields := [
    { id := 1, codec := .code PageType, get := (·.pageType),
      set := fun d x => { d with pageType := some x } },
    { id := 2, codec := .i32, get := (·.uncompressedPageSize),
      set := fun d x => { d with uncompressedPageSize := some x } },
    { id := 3, codec := .i32, get := (·.compressedPageSize),
      set := fun d x => { d with compressedPageSize := some x } },
    { id := 4, codec := .i32, get := (·.crc), set := fun d x => { d with crc := some x } },
    { id := 5, codec := .record DataPageHeader.format, get := (·.dataPageHeader),
      set := fun d x => { d with dataPageHeader := some x } },
    { id := 7, codec := .record DictionaryPageHeader.format, get := (·.dictionaryPageHeader),
      set := fun d x => { d with dictionaryPageHeader := some x } },
    { id := 8, codec := .record DataPageHeaderV2.format, get := (·.dataPageHeaderV2),
      set := fun d x => { d with dataPageHeaderV2 := some x } }]
  finish d := do
    let pageType ← require .pageHeader "type" d.pageType
    let uncompressedPageSize ← require .pageHeader "uncompressed_page_size" d.uncompressedPageSize
    let compressedPageSize ← require .pageHeader "compressed_page_size" d.compressedPageSize
    pure { d with pageType, uncompressedPageSize, compressedPageSize }
  draft r := { r with
    pageType := some r.pageType
    uncompressedPageSize := some r.uncompressedPageSize
    compressedPageSize := some r.compressedPageSize }

end Columnar
