import Columnar.Bytes
import Columnar.Codes

/-!
# Faults

What can be wrong with a file, a record or a request, and how it is said.

* `Fault`    one constructor for each thing that can be wrong, with the numbers it is about;
* `Context`  what was being done when a fault was met;
* `Error`    a fault under the contexts it passed through;
* `Misuse`   a call outside the contract of an operation: no input is to blame for it;
* `Failure`  an error or a misuse.

All wording is here: `Fault.note?`, `Context.text`, `Misuse.text`.  A fault has one of seven
kinds, each with a fixed negative number (`Kind.code`).
-/

namespace Columnar

/-! ## kinds -/

inductive Kind where
  | invalid | unsupported | notImplemented | layout | pool | utf8 | io
deriving DecidableEq

namespace Kind

def name : Kind → String
  | invalid => "Invalid"
  | unsupported => "Unsupported"
  | notImplemented => "NotImplemented"
  | layout => "Layout"
  | pool => "Pool"
  | utf8 => "Utf8Decode"
  | io => "Io"

def all : List Kind := [invalid, unsupported, notImplemented, layout, pool, utf8, io]

/-- the number under which a kind is known to callers that cannot carry an error -/
def code : Kind → Int
  | invalid => -1
  | unsupported => -2
  | notImplemented => -3
  | layout => -4
  | pool => -5
  | utf8 => -6
  | io => -7

end Kind

/-- where a byte string stops being UTF-8: the length of its longest good front, and the
length of the bad sequence behind it, `none` when the string only ends too early -/
structure Utf8Fault where
  validUpTo : Nat
  errorLen : Option Nat
deriving DecidableEq

/-- which number of a column chunk is negative -/
inductive ChunkNumber where
  | valueCount | chunkSize | dictionaryPageOffset | dataPageOffset
deriving DecidableEq

def ChunkNumber.text : ChunkNumber → String
  | valueCount => "value count"
  | chunkSize => "column chunk size"
  | dictionaryPageOffset => "dictionary page offset"
  | dataPageOffset => "data page offset"

/-! ## faults -/

inductive Fault where
  /-- a fault of which only the kind is known -/
  | bare (kind : Kind)
  | badUtf8 (fault : Utf8Fault)
  | io (text : String)
  -- byte strings
  | readPastEnd (len pos size : Nat)
  | seekPastEnd (offset size : Nat)
  | prefetchPastEnd (offset len size : Nat)
  -- the compact protocol
  | varintTooLong (offset : Nat)
  | unknownWireType (code : UInt8)
  | readStructTooDeep (offset : Nat)
  | writtenStructTooDeep
  | unmatchedStructEnd
  | fieldIdOverflow
  | varintTooWide (raw bits : Nat)
  | negativeBinaryLength (len : Int)
  | binaryTooLong (len limit : Nat)
  | negativeContainerSize (size : Int)
  | containerTooLarge (size limit : Nat)
  | skippedTooDeep
  | skippedStop
  | boolFieldPending (id : Int)
  | boolFieldWithoutValue (id : Int)
  -- records
  | unknownCode (noun : String) (code : Int)
  | missingField (kind : RecordKind) (field : String)
  | notAListOf (kind : RecordKind) (found : WireType)
  -- the hybrid stream
  | readWidthTooLarge (width : Nat)
  | outOfRuns (size : Nat)
  | tooManyGroups (count : Nat)
  | runPastEnd (len pos size : Nat)
  | writtenWidthTooLarge (width : Nat)
  | valueTooWide (value width : Nat)
  -- plain values
  | noTypeLength
  | int96Values
  | spanOutside (start stop size : Nat)
  | byteArrayTooLong (size : Nat)
  -- pages
  | negativePageSize (compressed uncompressed : Int)
  | compressedPage (compressed uncompressed : Int)
  | noDataPageHeader
  | dataPageV2
  | notADataPage (found : PageType)
  | negativePageValueCount (count : Int)
  | levelEncoding (found : Encoding)
  | pageEncoding (found : Encoding)
  | notADictionaryPage (found : PageType)
  | noDictionaryPageHeader
  | negativeDictionaryValueCount (count : Int)
  | dictionaryEncoding (found : Encoding)
  | noLevels (size : Nat)
  | levelsPastEnd (len size : Nat)
  -- column chunks
  | externalFile (path : String)
  | fileOffsetSet (offset : Int)
  | chunkWithoutMetaData
  | codec (found : Compression)
  | compressedChunk (compressed uncompressed : Int)
  | notOptional (column : String) (found : Option Repetition)
  | noPhysicalType (column : String)
  | chunkTypeMismatch (column : String) (schema chunk : PhysicalType)
  | int96Column (column : String)
  | badTypeLength (column : String) (found : Option Int)
  | negativeChunkNumber (which : ChunkNumber) (value : Int)
  | chunkPastEnd (start len size : Nat)
  -- reading a column
  | dictionaryDisabled
  | dictionarySizeMismatch (size count taken : Nat)
  | emptyDataPage
  | tooManyPageValues (count left : Nat)
  | noDictionaryPage
  | noIndexWidth
  | pagePastChunk (size left : Nat)
  | batchPastPage (taken left : Nat)
  | indexOutOfRange (index size : Nat)
  -- reading the delta column
  | deltaNotByteArray (column : String) (found : PhysicalType)
  | deltaWithoutPage (column : String)
  -- files
  | fileTooSmall (size minimum : Nat)
  | badTrailingMagic (found : Bytes)
  | footerTooLong (len size : Nat)
  | badLeadingMagic (found : Bytes)
  | emptySchema
  | nestedSchema (declared : Option Int) (leaves : Nat)
  | nestedColumn (column : String)
  | chunkCountMismatch (rowGroup chunks columns : Nat)
  | groupChunkWithoutMetaData (rowGroup : Nat) (column : String)
  | groupChunkTypeMismatch (rowGroup : Nat) (column : String) (chunk : PhysicalType)
      (schema : Option PhysicalType)
  | allRowGroupsRead
  | noRowGroupYet
  | noSuchColumn (index columns : Nat)
  | noColumns
  -- pools
  | notPooled (kind : RecordKind)
  | poolExhausted (kind : RecordKind) (capacity : Nat)
  -- writing a file
  | noPageRows
  | columnCountMismatch (given expected : Nat)
  | columnTypeMismatch (column : String) (schema given : PhysicalType)
  | rowCountMismatch (column : String) (found expected : Nat)
  | noFixedLength (column : String)
  | wrongFixedLength (size : Nat) (column : String) (expected : Int)
  | emptyDeltaValue (column : String)
  | pageTooLarge (size : Nat)
deriving DecidableEq

namespace Fault

def kind : Fault → Kind
  | bare k => k
  | badUtf8 _ => .utf8
  | io _ => .io
  | readPastEnd .. | seekPastEnd .. | prefetchPastEnd .. => .layout
  | outOfRuns _ | runPastEnd .. => .layout
  | spanOutside .. => .layout
  | noLevels _ | levelsPastEnd .. => .layout
  | chunkPastEnd .. => .layout
  | noIndexWidth | pagePastChunk .. | batchPastPage .. => .layout
  | int96Values => .unsupported
  | compressedPage .. | dataPageV2 => .unsupported
  | externalFile _ | fileOffsetSet _ | codec _ | compressedChunk .. | notOptional .. => .unsupported
  | int96Column _ => .unsupported
  | dictionaryDisabled => .unsupported
  | deltaNotByteArray .. => .unsupported
  | nestedSchema .. | nestedColumn _ => .unsupported
  | levelEncoding _ | pageEncoding _ | dictionaryEncoding _ => .notImplemented
  | notPooled _ | poolExhausted .. => .pool
  | _ => .invalid

/-! ## wording -/

/-- an optional part of a message -/
def optionText {α : Type} (text : α → String) : Option α → String
  | none => "None"
  | some x => s!"Some({text x})"

/-- a byte string in a message: decimal bytes in brackets -/
def bytesText (bs : Bytes) : String :=
  "[" ++ ", ".intercalate (bs.map fun b => toString b.toNat) ++ "]"

/-- a type nibble in a message: two hexadecimal digits -/
def nibbleText (c : UInt8) : String :=
  "0x0" ++ String.singleton (Nat.digitChar (c.toNat % 16))

/-- the words of a fault; `none` for the faults that are said by what caused them -/
def note? : Fault → Option String
  | bare _ | badUtf8 _ | io _ => none
  | readPastEnd len pos size =>
    s!"cannot read {len} bytes at offset {pos}, buffer has {size} bytes"
  | seekPastEnd offset size => s!"offset {offset} is past the end of the buffer ({size} bytes)"
  | prefetchPastEnd offset len size =>
    s!"prefetch range {offset}..{min (offset + len) (2 ^ 64 - 1)} exceeds file size {size}"
  | varintTooLong offset => s!"varint at offset {offset} is longer than 10 bytes"
  | unknownWireType code => s!"unknown compact type code {nibbleText code}"
  | readStructTooDeep offset => s!"structs nested deeper than 8 levels at offset {offset}"
  | writtenStructTooDeep => "structs nested deeper than 8 levels"
  | unmatchedStructEnd => "struct end without a matching struct begin"
  | fieldIdOverflow => "field id overflow"
  | varintTooWide raw bits => s!"varint {raw} does not fit an i{bits}"
  | negativeBinaryLength len => s!"negative binary length {len}"
  | binaryTooLong len limit => s!"binary length {len} exceeds the limit of {limit} bytes"
  | negativeContainerSize size => s!"negative container size {size}"
  | containerTooLarge size limit => s!"container size {size} exceeds the limit of {limit}"
  | skippedTooDeep => "value nested deeper than 64 levels"
  | skippedStop => "cannot skip a stop marker"
  | boolFieldPending id => s!"boolean field {id} is still pending"
  | boolFieldWithoutValue id => s!"boolean field Some({id}) ended without a value"
  | unknownCode noun code => s!"unknown {noun} {code}"
  | missingField kind field => s!"required field {kind.name}.{field} is missing"
  | notAListOf kind found =>
    s!"expected a list of {kind.name} structs, found {found.name} elements"
  | readWidthTooLarge width => s!"bit width {width} exceeds 32"
  | outOfRuns size => s!"hybrid stream of {size} bytes ran out of runs"
  | tooManyGroups count => s!"bit-packed run of {count} groups"
  | runPastEnd len pos size => s!"hybrid run needs {len} bytes at offset {pos}, stream has {size}"
  | writtenWidthTooLarge width => s!"bit width {width} exceeds the maximum of 32"
  | valueTooWide value width => s!"value {value} does not fit in {width} bits"
  | noTypeLength => "fixed-length byte array column without a type length"
  | int96Values => "INT96 values are not supported"
  | spanOutside start stop size => s!"span {start}..{stop} is outside its source of {size} bytes"
  | byteArrayTooLong size => s!"byte array of {size} bytes is too long"
  | negativePageSize compressed uncompressed =>
    s!"negative page size (compressed {compressed}, uncompressed {uncompressed})"
  | compressedPage compressed uncompressed =>
    s!"compressed pages are not supported, page is {compressed} bytes compressed and {uncompressed} uncompressed"
  | noDataPageHeader => "data page without a data page header"
  | dataPageV2 => "V2 data pages are not supported"
  | notADataPage found => s!"expected a data page, found {found.name}"
  | negativePageValueCount count => s!"negative page value count {count}"
  | levelEncoding found => s!"definition levels encoded as {found.name}"
  | pageEncoding found => s!"data page encoding {found.name}"
  | notADictionaryPage found => s!"expected a dictionary page, found {found.name}"
  | noDictionaryPageHeader => "dictionary page without a dictionary page header"
  | negativeDictionaryValueCount count => s!"negative dictionary value count {count}"
  | dictionaryEncoding found => s!"dictionary page encoding {found.name}"
  | noLevels size => s!"page of {size} bytes has no definition levels"
  | levelsPastEnd len size =>
    s!"{len} bytes of definition levels declared in a page of {size} bytes"
  | externalFile path => s!"column chunk references external file {path}"
  | fileOffsetSet offset => s!"deprecated column chunk file offset is set to {offset}"
  | chunkWithoutMetaData => "column chunk has no metadata"
  | codec found => s!"compression codec {found.name} is not supported"
  | compressedChunk compressed uncompressed =>
    s!"column chunk is compressed: {compressed} bytes compressed, {uncompressed} uncompressed"
  | notOptional column found =>
    s!"only optional columns are supported, {column} is {optionText Repetition.name found}"
  | noPhysicalType column => s!"column {column} has no physical type"
  | chunkTypeMismatch column schema chunk =>
    s!"column {column} is {schema.name} in the schema but {chunk.name} in the column chunk"
  | int96Column column => s!"INT96 column {column} is not supported"
  | badTypeLength column found =>
    s!"fixed-length byte array column {column} has type length {optionText toString found}"
  | negativeChunkNumber which value => s!"negative {which.text} {value}"
  | chunkPastEnd start len size =>
    s!"column chunk at offset {start} of {len} bytes is past the end of the {size} byte buffer"
  | dictionaryDisabled => "dictionary pages are disabled"
  | dictionarySizeMismatch size count taken =>
    s!"dictionary page declares {size} bytes but its {count} values take {taken}"
  | emptyDataPage => "data page without values"
  | tooManyPageValues count left =>
    s!"data page holds {count} values, column chunk has {left} left"
  | noDictionaryPage => "dictionary-encoded page in a column chunk without a dictionary page"
  | noIndexWidth => "dictionary-encoded page has no bit width"
  | pagePastChunk size left =>
    s!"page of {size} bytes overruns the {left} bytes left in the column chunk"
  | batchPastPage taken left => s!"batch consumed {taken} bytes, page has {left} left"
  | indexOutOfRange index size =>
    s!"dictionary index {index} out of range, dictionary has {size} entries"
  | deltaNotByteArray column found =>
    s!"delta column {column} must be a byte array, found {found.name}"
  | deltaWithoutPage column => s!"delta column {column} has no dictionary page offset"
  | fileTooSmall size minimum =>
    s!"file of {size} bytes is smaller than the minimum of {minimum}"
  | badTrailingMagic found => s!"bad magic before the footer: {bytesText found}"
  | footerTooLong len size => s!"footer of {len} bytes does not fit in a file of {size} bytes"
  | badLeadingMagic found => s!"bad magic at the start of the file: {bytesText found}"
  | emptySchema => "file has an empty schema"
  | nestedSchema declared leaves =>
    s!"schema root declares {optionText toString declared} children but {leaves} elements follow, nested schemas are not supported"
  | nestedColumn column => s!"nested column {column} is not supported"
  | chunkCountMismatch rowGroup chunks columns =>
    s!"row group {rowGroup} has {chunks} column chunks, schema has {columns} columns"
  | groupChunkWithoutMetaData rowGroup column =>
    s!"row group {rowGroup} column {column} has no metadata"
  | groupChunkTypeMismatch rowGroup column chunk schema =>
    s!"row group {rowGroup} column {column} is {chunk.name} but the schema says {optionText PhysicalType.name schema}"
  | allRowGroupsRead => "all row groups have been read"
  | noRowGroupYet => "no current row group, call next_row_group first"
  | noSuchColumn index columns =>
    s!"column index {index} out of range, file has {columns} columns"
  | noColumns => "file has no columns"
  | notPooled kind => s!"{kind.name} records are not pooled"
  | poolExhausted kind capacity =>
    s!"{kind.name} pool exhausted, all {capacity} slots are in use"
  | noPageRows => "page row count must be positive"
  | columnCountMismatch given expected => s!"{given} columns given, schema has {expected}"
  | columnTypeMismatch column schema given =>
    s!"column {column} is {schema.name} but {given.name} values were given"
  | rowCountMismatch column found expected =>
    s!"column {column} has {found} rows, expected {expected}"
  | noFixedLength column => s!"fixed-length byte array column {column} has no length"
  | wrongFixedLength size column expected =>
    s!"value of {size} bytes in column {column} of length {expected}"
  | emptyDeltaValue column => s!"delta column {column} cannot hold empty values"
  | pageTooLarge size => s!"page of {size} bytes is too large"

end Fault

/-- a bad sequence is named by its length, a string that ends too early is incomplete -/
def Utf8Fault.text (f : Utf8Fault) : String :=
  match f.errorLen with
  | some n => s!"invalid utf-8 sequence of {n} bytes from index {f.validUpTo}"
  | none => s!"incomplete utf-8 byte sequence from index {f.validUpTo}"

/-- the words of what lies under a fault: the bad text, or the refusal of the outside world -/
def Fault.source? : Fault → Option String
  | .badUtf8 f => some f.text
  | .io text => some text
  | _ => none

/-! ## contexts and errors -/

inductive Context where
  | note (text : String)
  | decodingRecord (kind : RecordKind)
  | byteArrayAt (len offset : Nat)
  | preparingColumn (index : Nat)
  | readingPage (column : Nat)
  | decodingColumn (index : Nat)
  | preparingDelta (index : Nat)
  | decodingDelta (offset : Nat)
  | footerAt (offset : Nat)
  | readingRowGroup (index : Nat)
  | writingRowGroup (index : Nat)
  | opening (path : String)
deriving DecidableEq

def Context.text : Context → String
  | note text => text
  | decodingRecord kind => s!"could not decode {kind.name}"
  | byteArrayAt len offset => s!"byte array of {len} bytes at offset {offset}"
  | preparingColumn index => s!"could not prepare column {index}"
  | readingPage column => s!"could not read page of column {column}"
  | decodingColumn index => s!"could not decode column {index}"
  | preparingDelta index => s!"could not prepare delta column {index}"
  | decodingDelta offset => s!"could not decode delta value at page offset {offset}"
  | footerAt offset => s!"footer at offset {offset}"
  | readingRowGroup index => s!"row group {index}"
  | writingRowGroup index => s!"could not write row group {index}"
  | opening path => s!"could not open {path}"

/-- a fault under its contexts, the outermost first -/
structure Error where
  fault : Fault
  contexts : List Context
deriving DecidableEq

namespace Error

def kind (e : Error) : Kind := e.fault.kind

def within (c : Context) (e : Error) : Error := { e with contexts := c :: e.contexts }

/-- the contexts of an error and the note of its fault, the outermost first -/
def notes (e : Error) : List String := e.contexts.map Context.text ++ e.fault.note?.toList

/-- the message of an error: its notes, then what lies under the fault -/
def message (e : Error) : String := ": ".intercalate (e.notes ++ e.fault.source?.toList)

/-- how the cause of an error is written in a listing -/
def causeText (e : Error) : String :=
  match e.fault with
  | .badUtf8 f =>
    s!"Utf8Decode(Utf8Error \x7b valid_up_to: {f.validUpTo}, error_len: {Fault.optionText toString f.errorLen} \x7d)"
  | f => f.kind.name

/-- the listing of an error: its cause, then its notes one to a line -/
def listing (e : Error) : String :=
  s!"ParquetError\n    Cause: {e.causeText}\n    Context:\n"
    ++ String.join (e.notes.map fun note => s!"        {note}\n")

end Error

instance : Coe Fault Error := ⟨fun f => ⟨f, []⟩⟩

/-! ## misuse -/

inductive Misuse where
  | vectorFull
  | slotOutside (slot total : Nat)
  | columnNotPrepared
  | deltaNotPrepared
  | wrongValue (wanted : String) (found : PhysicalType)
  | wrongWidth (wanted found : Nat)
  | sliceStart (start size : Nat)
  | maskTooLong (count : Nat)
  | subtractOverflow
  | multiplyOverflow
  | shiftOverflow
  | capacityOverflow
  | unbound
  | noPage
deriving DecidableEq

def Misuse.text : Misuse → String
  | vectorFull => "vector is full"
  | slotOutside slot total => s!"slot {slot} out of {total}"
  | columnNotPrepared => "column reader used before a successful prepare"
  | deltaNotPrepared => "delta column reader used before a successful prepare"
  | wrongValue wanted found => s!"expected {wanted} value, got {found.name}"
  | wrongWidth wanted found =>
    s!"copy_from_slice: source slice length ({found}) does not match destination slice length ({wanted})"
  | sliceStart start size =>
    s!"range start index {start} out of range for slice of length {size}"
  | maskTooLong count => s!"null masks cover at most 16 slots, {count} requested"
  | subtractOverflow => "attempt to subtract with overflow"
  | multiplyOverflow => "attempt to multiply with overflow"
  | shiftOverflow => "attempt to shift left with overflow"
  | capacityOverflow => "capacity overflow"
  | unbound => "column reader is bound"
  | noPage => "a data page is loaded"

inductive Failure where
  | error (e : Error)
  | misuse (m : Misuse)
deriving DecidableEq

namespace Failure

def within (c : Context) : Failure → Failure
  | error e => error (e.within c)
  | misuse m => misuse m

instance : Coe Error Failure := ⟨error⟩
instance : Coe Fault Failure := ⟨fun f => error f⟩
instance : Coe Misuse Failure := ⟨misuse⟩

end Failure

/-- what is left of `a` when `b` is taken away; to take more than there is, is a misuse -/
def subtract (a b : Nat) : Except Failure Nat :=
  if b ≤ a then .ok (a - b) else .error (.misuse .subtractOverflow)

theorem subtract_ok {a b : Nat} (h : b ≤ a) : subtract a b = .ok (a - b) := if_pos h

end Columnar
