/-!
# Codes

The closed sets of names that metadata and pages store as numbers.

* `Coded α`        the members of a set, the number of each, and what the set is called;
* `Coded.ofCode?`  the member with a given number.

`Coded.ofCode?_code` says that a member is found again by its number.
-/

namespace Columnar

/-- a closed set of members that are stored as 32-bit numbers -/
class Coded (α : Type) where
  all : List α
  code : α → Int32
  name : α → String
  /-- what a member of the set is called in a message -/
  noun : String

/-- the member stored as `c` -/
def Coded.ofCode? {α : Type} [Coded α] (c : Int32) : Option α :=
  (Coded.all : List α).find? fun x => Coded.code x == c

/-! ## the types of a column's values -/

inductive PhysicalType where
  | boolean | int32 | int64 | int96 | float | double | byteArray | fixedLenByteArray
deriving DecidableEq

namespace PhysicalType

def name : PhysicalType → String
  | boolean => "Boolean"
  | int32 => "Int32"
  | int64 => "Int64"
  | int96 => "Int96"
  | float => "Float"
  | double => "Double"
  | byteArray => "ByteArray"
  | fixedLenByteArray => "FixedLenByteArray"

def code : PhysicalType → Int32
  | boolean => 0
  | int32 => 1
  | int64 => 2
  | int96 => 3
  | float => 4
  | double => 5
  | byteArray => 6
  | fixedLenByteArray => 7

/-- the width in bytes that the type itself fixes -/
def fixedWidth? : PhysicalType → Option Nat
  | int32 | float => some 4
  | int64 | double => some 8
  | int96 => some 12
  | boolean | byteArray | fixedLenByteArray => none

instance : Coded PhysicalType where
  all := [boolean, int32, int64, int96, float, double, byteArray, fixedLenByteArray]
  code := code
  name := name
  noun := "physical type"

end PhysicalType

/-! ## whether a column may leave a slot empty or repeat it -/

inductive Repetition where
  | required | optional | repeated
deriving DecidableEq

namespace Repetition

def name : Repetition → String
  | required => "Required"
  | optional => "Optional"
  | repeated => "Repeated"

def code : Repetition → Int32
  | required => 0
  | optional => 1
  | repeated => 2

instance : Coded Repetition where
  all := [required, optional, repeated]
  code := code
  name := name
  noun := "repetition type"

end Repetition

/-! ## encodings of values and levels -/

inductive Encoding where
  | plain | plainDictionary | rle | bitPacked | deltaBinaryPacked | deltaLengthByteArray
  | deltaByteArray | rleDictionary | byteStreamSplit
deriving DecidableEq

namespace Encoding

def name : Encoding → String
  | plain => "Plain"
  | plainDictionary => "PlainDictionary"
  | rle => "Rle"
  | bitPacked => "BitPacked"
  | deltaBinaryPacked => "DeltaBinaryPacked"
  | deltaLengthByteArray => "DeltaLengthByteArray"
  | deltaByteArray => "DeltaByteArray"
  | rleDictionary => "RleDictionary"
  | byteStreamSplit => "ByteStreamSplit"

/-- the number 1 is not assigned -/
def code : Encoding → Int32
  | plain => 0
  | plainDictionary => 2
  | rle => 3
  | bitPacked => 4
  | deltaBinaryPacked => 5
  | deltaLengthByteArray => 6
  | deltaByteArray => 7
  | rleDictionary => 8
  | byteStreamSplit => 9

/-- whether a page in this encoding holds indices into a dictionary -/
def isDictionary : Encoding → Bool
  | plainDictionary | rleDictionary => true
  | _ => false

instance : Coded Encoding where
  all := [plain, plainDictionary, rle, bitPacked, deltaBinaryPacked, deltaLengthByteArray,
    deltaByteArray, rleDictionary, byteStreamSplit]
  code := code
  name := name
  noun := "encoding"

end Encoding

/-! ## compression codecs -/

inductive Compression where
  | uncompressed | snappy | gzip | lzo | brotli | lz4 | zstd | lz4Raw
deriving DecidableEq

namespace Compression

def name : Compression → String
  | uncompressed => "Uncompressed"
  | snappy => "Snappy"
  | gzip => "Gzip"
  | lzo => "Lzo"
  | brotli => "Brotli"
  | lz4 => "Lz4"
  | zstd => "Zstd"
  | lz4Raw => "Lz4Raw"

def code : Compression → Int32
  | uncompressed => 0
  | snappy => 1
  | gzip => 2
  | lzo => 3
  | brotli => 4
  | lz4 => 5
  | zstd => 6
  | lz4Raw => 7

instance : Coded Compression where
  all := [uncompressed, snappy, gzip, lzo, brotli, lz4, zstd, lz4Raw]
  code := code
  name := name
  noun := "compression codec"

end Compression

/-! ## kinds of pages -/

inductive PageType where
  | dataPage | indexPage | dictionaryPage | dataPageV2
deriving DecidableEq

namespace PageType

def name : PageType → String
  | dataPage => "DataPage"
  | indexPage => "IndexPage"
  | dictionaryPage => "DictionaryPage"
  | dataPageV2 => "DataPageV2"

def code : PageType → Int32
  | dataPage => 0
  | indexPage => 1
  | dictionaryPage => 2
  | dataPageV2 => 3

instance : Coded PageType where
  all := [dataPage, indexPage, dictionaryPage, dataPageV2]
  code := code
  name := name
  noun := "page type"

end PageType

/-- a set whose members have numbers of their own: its lookup finds every member again -/
class LawfulCoded (α : Type) [Coded α] : Prop where
  ofCode?_code : ∀ x : α, Coded.ofCode? (Coded.code x) = some x

instance : LawfulCoded PhysicalType := ⟨by intro x; cases x <;> rfl⟩
instance : LawfulCoded Repetition := ⟨by intro x; cases x <;> rfl⟩
instance : LawfulCoded Encoding := ⟨by intro x; cases x <;> rfl⟩
instance : LawfulCoded Compression := ⟨by intro x; cases x <;> rfl⟩
instance : LawfulCoded PageType := ⟨by intro x; cases x <;> rfl⟩

/-- a number that finds a member is that member's number -/
theorem Coded.code_of_ofCode? {α : Type} [Coded α] {c : Int32} {x : α}
    (h : Coded.ofCode? c = some x) : Coded.code x = c := by
  have := List.find?_some h
  simpa using this

/-! ## kinds of records -/

inductive RecordKind where
  | fileMetaData | schemaElement | rowGroup | columnChunk | columnMetaData | keyValue
  | statistics | pageHeader | dataPageHeader | dataPageHeaderV2 | dictionaryPageHeader
deriving DecidableEq

def RecordKind.all : List RecordKind :=
  [.fileMetaData, .schemaElement, .rowGroup, .columnChunk, .columnMetaData, .keyValue,
   .statistics, .pageHeader, .dataPageHeader, .dataPageHeaderV2, .dictionaryPageHeader]

def RecordKind.name : RecordKind → String
  | .fileMetaData => "FileMetaData"
  | .schemaElement => "SchemaElement"
  | .rowGroup => "RowGroup"
  | .columnChunk => "ColumnChunk"
  | .columnMetaData => "ColumnMetaData"
  | .keyValue => "KeyValue"
  | .statistics => "Statistics"
  | .pageHeader => "PageHeader"
  | .dataPageHeader => "DataPageHeader"
  | .dataPageHeaderV2 => "DataPageHeaderV2"
  | .dictionaryPageHeader => "DictionaryPageHeader"

/-- the bytes of memory that a record takes in a list; the other kinds stand in no list -/
def RecordKind.room : RecordKind → Nat
  | .keyValue => 48
  | .schemaElement => 80
  | .rowGroup => 80
  | .columnChunk => 304
  | _ => 0

/-! ## types of values on the wire -/

/-- the type of a value in the compact protocol; `stop` closes a struct and is no value -/
inductive WireType where
  | stop | bool | i8 | i16 | i32 | i64 | double | binary | list | set | map | struct
deriving DecidableEq

namespace WireType

def all : List WireType :=
  [stop, bool, i8, i16, i32, i64, double, binary, list, set, map, struct]

def name : WireType → String
  | stop => "Stop"
  | bool => "Bool"
  | i8 => "I08"
  | i16 => "I16"
  | i32 => "I32"
  | i64 => "I64"
  | double => "Double"
  | binary => "Binary"
  | list => "List"
  | set => "Set"
  | map => "Map"
  | struct => "Struct"

/-- the nibble of a type; a boolean field says `true` with the nibble 1 and `false` with 2 -/
def code : WireType → UInt8
  | stop => 0
  | bool => 1
  | i8 => 3
  | i16 => 4
  | i32 => 5
  | i64 => 6
  | double => 7
  | binary => 8
  | list => 9
  | set => 10
  | map => 11
  | struct => 12

/-- the type with a given nibble; 1 and 2 are both booleans -/
def ofCode? (c : UInt8) : Option WireType :=
  match c.toNat with
  | 0 => some stop
  | 1 | 2 => some bool
  | 3 => some i8
  | 4 => some i16
  | 5 => some i32
  | 6 => some i64
  | 7 => some double
  | 8 => some binary
  | 9 => some list
  | 10 => some set
  | 11 => some map
  | 12 => some struct
  | _ => none

theorem ofCode?_code (t : WireType) : ofCode? t.code = some t := by
  cases t <;> rfl

end WireType

/-- the most structs that may be open at once, when they are read and when they are written -/
def maxStructDepth : Nat := 8

end Columnar
