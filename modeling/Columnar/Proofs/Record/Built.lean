import Columnar.Proofs.Record.RoundTrip

/-!
# What formats are made of

Every format is a table of numbers, codes, texts, byte strings, lists of these, and other formats.
What holds of each kind of payload, and of a record as soon as it holds of its fields, therefore
holds of every record.

* `Codec.Built c`      `c` is one of the codecs of payloads, or a record or a list of records whose
                       fields are;
* `Codec.Shape c`      the same as data: which codec `c` is, and what its fields are;
* `RecordKind.shape`, `RecordKind.built`   the shape of every record, so that every record is built.
-/

namespace Columnar

/-- the codecs of payloads, and the records that are made of them -/
inductive Codec.Built : {α : Type} → Codec α → Prop
  | bool : Built .bool
  | i16 : Built .i16
  | i32 : Built .i32
  | i64 : Built .i64
  | binary : Built .binary
  | string : Built .string
  | code {α : Type} [Coded α] : Built (.code α)
  | codes {α : Type} [Coded α] : Built (.codes α)
  | strings : Built .strings
  | record {R : Type} {F : Format R} (fields : ∀ f ∈ F.fields, Built f.codec) : Built (.record F)
  | records {R : Type} {F : Format R} (fields : ∀ f ∈ F.fields, Built f.codec) :
    Built (.records F)

/-- the fields of a table are built -/
def Fields.Built {D : Type} (fs : List (Field D)) : Prop := ∀ f ∈ fs, f.codec.Built

mutual

/-- what a codec is made of -/
inductive Codec.Shape : {α : Type} → Codec α → Type 1
  | bool : Codec.Shape .bool
  | i16 : Codec.Shape .i16
  | i32 : Codec.Shape .i32
  | i64 : Codec.Shape .i64
  | binary : Codec.Shape .binary
  | string : Codec.Shape .string
  | code {α : Type} [Coded α] : Codec.Shape (.code α)
  | codes {α : Type} [Coded α] : Codec.Shape (.codes α)
  | strings : Codec.Shape .strings
  | record {R : Type} {F : Format R} (fields : Fields.Shape F.fields) : Codec.Shape (.record F)
  | records {R : Type} {F : Format R} (fields : Fields.Shape F.fields) : Codec.Shape (.records F)

/-- what the fields of a table are made of -/
inductive Fields.Shape : {D : Type} → List (Field D) → Type 1
  | nil {D : Type} : Fields.Shape ([] : List (Field D))
  | cons {D : Type} {f : Field D} {fs : List (Field D)} (head : Codec.Shape f.codec)
    (tail : Fields.Shape fs) : Fields.Shape (f :: fs)

end

mutual

/-- what has a shape is built -/
theorem Codec.Shape.built : ∀ {α : Type} {c : Codec α}, c.Shape → c.Built
  | _, _, .bool => .bool
  | _, _, .i16 => .i16
  | _, _, .i32 => .i32
  | _, _, .i64 => .i64
  | _, _, .binary => .binary
  | _, _, .string => .string
  | _, _, @Codec.Shape.code α inst => @Codec.Built.code α inst
  | _, _, @Codec.Shape.codes α inst => @Codec.Built.codes α inst
  | _, _, .strings => .strings
  | _, _, .record fields => .record fields.built
  | _, _, .records fields => .records fields.built

theorem Fields.Shape.built : ∀ {D : Type} {fs : List (Field D)}, Fields.Shape fs → Fields.Built fs
  | _, _, .nil => List.forall_mem_nil _
  | _, _, .cons head tail => List.forall_mem_cons.mpr ⟨head.built, tail.built⟩

end

/-! ## the records -/

def KeyValue.shape : Fields.Shape KeyValue.format.fields := .cons .string (.cons .string .nil)

def Statistics.shape : Fields.Shape Statistics.format.fields :=
  .cons .binary (.cons .binary (.cons .i64 (.cons .i64 (.cons .binary (.cons .binary .nil)))))

def SchemaElement.shape : Fields.Shape SchemaElement.format.fields :=
  .cons .code (.cons .i32 (.cons .code (.cons .string (.cons .i32 (.cons .i32 (.cons .i32
    (.cons .i32 (.cons .i32 .nil))))))))

def DataPageHeader.shape : Fields.Shape DataPageHeader.format.fields :=
  .cons .i32 (.cons .code (.cons .code (.cons .code (.cons (.record Statistics.shape) .nil))))

def DictionaryPageHeader.shape : Fields.Shape DictionaryPageHeader.format.fields :=
  .cons .i32 (.cons .code (.cons .bool .nil))

def DataPageHeaderV2.shape : Fields.Shape DataPageHeaderV2.format.fields :=
  .cons .i32 (.cons .i32 (.cons .i32 (.cons .code (.cons .i32 (.cons .i32 (.cons .bool
    (.cons (.record Statistics.shape) .nil)))))))

def PageHeader.shape : Fields.Shape PageHeader.format.fields :=
  .cons .code (.cons .i32 (.cons .i32 (.cons .i32 (.cons (.record DataPageHeader.shape)
    (.cons (.record DictionaryPageHeader.shape)
      (.cons (.record DataPageHeaderV2.shape) .nil))))))

def ColumnMetaData.shape : Fields.Shape ColumnMetaData.format.fields :=
  .cons .code (.cons .codes (.cons .strings (.cons .code (.cons .i64 (.cons .i64 (.cons .i64
    (.cons (.records KeyValue.shape) (.cons .i64 (.cons .i64 (.cons .i64
      (.cons (.record Statistics.shape) .nil)))))))))))

def ColumnChunk.shape : Fields.Shape ColumnChunk.format.fields :=
  .cons .string (.cons .i64 (.cons (.record ColumnMetaData.shape) .nil))

def RowGroup.shape : Fields.Shape RowGroup.format.fields :=
  .cons (.records ColumnChunk.shape) (.cons .i64 (.cons .i64 (.cons .i64 (.cons .i64
    (.cons .i16 .nil)))))

def FileMetaData.shape : Fields.Shape FileMetaData.format.fields :=
  .cons .i32 (.cons (.records SchemaElement.shape) (.cons .i64
    (.cons (.records RowGroup.shape) (.cons (.records KeyValue.shape) (.cons .string .nil)))))

/-- what every record is made of -/
def RecordKind.shape : (kind : RecordKind) → Fields.Shape kind.format.fields
  | fileMetaData => FileMetaData.shape
  | schemaElement => SchemaElement.shape
  | rowGroup => RowGroup.shape
  | columnChunk => ColumnChunk.shape
  | columnMetaData => ColumnMetaData.shape
  | keyValue => KeyValue.shape
  | statistics => Statistics.shape
  | pageHeader => PageHeader.shape
  | dataPageHeader => DataPageHeader.shape
  | dataPageHeaderV2 => DataPageHeaderV2.shape
  | dictionaryPageHeader => DictionaryPageHeader.shape

/-- every record is made of payloads -/
theorem RecordKind.built (kind : RecordKind) : Fields.Built kind.format.fields := kind.shape.built

end Columnar
