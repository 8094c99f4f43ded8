import Columnar.Proofs.Record.Stable
import Columnar.Record.File
import Columnar.Record.Page

/-!
# The formats of the records

For each record the bounds on what is in it (`Within`), the laws of its format, and what follows
from them: a record within the bounds is carried, and so is whatever is read.  A record that
encloses others needs room for as many structs as they nest.
-/

namespace Columnar

open Columnar.Compact

variable {o : Options} {d : Nat}

/-- what holds of `a` holds of the payload of a field that is always there -/
theorem forall_mem_some {α : Type} {P : α → Prop} {a : α} (h : P a) : ∀ x ∈ some a, P x := by
  rintro x ⟨⟩
  exact h

/-- what holds of a payload holds wherever there is one -/
theorem forall_mem_imp {α : Type} {P Q : α → Prop} {x : Option α} (h : ∀ a ∈ x, P a)
    (hPQ : ∀ a, P a → Q a) : ∀ a ∈ x, Q a := fun a ha => hPQ a (h a ha)

/-- a text that may be read -/
def TextFits (o : Options) (t : String) : Prop := Fits o (Utf8.encode t).length

instance (o : Options) (t : String) : Decidable (TextFits o t) :=
  inferInstanceAs (Decidable (Fits o _))

/-! ## key-value pairs -/

structure KeyValue.Within (o : Options) (r : KeyValue) : Prop where
  key : TextFits o r.key
  value : ∀ t ∈ r.value, TextFits o t

theorem KeyValue.lawful : KeyValue.format.Lawful where
  positive := by decide
  nodup := by decide
  blank := rfl
  set := rfl
  ext := by
    rintro ⟨⟩ ⟨⟩ ⟨⟩
    rfl
  finish_draft _ := rfl
  draft_finish := by
    rintro ⟨_ | _, _⟩ _ ⟨⟩
    rfl

theorem KeyValue.carried {r : KeyValue} (h : r.Within o) :
    Carried o (d + 1) (format.write r) format.read r :=
  Format.carried lawful (.cons (.string (forall_mem_some h.key)) (.cons (.string h.value) .nil))

theorem KeyValue.stable : (Codec.record format).Stable o (d + 1) :=
  Format.stable lawful (.cons .string (.cons .string .nil))

/-- a list of pairs that may be read -/
def KeyValue.ListWithin (o : Options) (rs : List KeyValue) : Prop :=
  FitsList o rs.length KeyValue.format.kind.room ∧ ∀ r ∈ rs, r.Within o

theorem KeyValue.holds {D : Type} {e : D} {id : Int16} {get : D → Option (List KeyValue)}
    {set : D → List KeyValue → D} (h : ∀ rs ∈ get e, ListWithin o rs) :
    Field.Holds o (d + 1) e { id, codec := .records format, get, set } :=
  .records (by decide) fun rs hrs => ⟨(h rs hrs).1, fun r hr => carried ((h rs hrs).2 r hr)⟩

/-! ## statistics -/

structure Statistics.Within (o : Options) (r : Statistics) : Prop where
  max : ∀ bs ∈ r.max, Fits o bs.length
  min : ∀ bs ∈ r.min, Fits o bs.length
  maxValue : ∀ bs ∈ r.maxValue, Fits o bs.length
  minValue : ∀ bs ∈ r.minValue, Fits o bs.length

theorem Statistics.lawful : Statistics.format.Lawful where
  positive := by decide
  nodup := by decide
  blank := rfl
  set := rfl
  ext := by
    rintro ⟨⟩ ⟨⟩ ⟨⟩
    rfl
  finish_draft _ := rfl
  draft_finish := by
    rintro _ _ ⟨⟩
    rfl

theorem Statistics.carried {r : Statistics} (h : r.Within o) :
    Carried o (d + 1) (format.write r) format.read r :=
  Format.carried lawful (.cons (.binary h.max) (.cons (.binary h.min) (.cons .i64 (.cons .i64
    (.cons (.binary h.maxValue) (.cons (.binary h.minValue) .nil))))))

theorem Statistics.stable : (Codec.record format).Stable o (d + 1) :=
  Format.stable lawful (.cons .binary (.cons .binary (.cons .i64 (.cons .i64
    (.cons .binary (.cons .binary .nil))))))

/-! ## schema elements -/

structure SchemaElement.Within (o : Options) (r : SchemaElement) : Prop where
  name : TextFits o r.name

theorem SchemaElement.lawful : SchemaElement.format.Lawful where
  positive := by decide
  nodup := by decide
  blank := rfl
  set := rfl
  ext := by
    rintro ⟨⟩ ⟨⟩ ⟨⟩
    rfl
  finish_draft _ := rfl
  draft_finish := by
    rintro ⟨_, _, _, _ | _, _, _, _, _, _⟩ _ ⟨⟩
    rfl

theorem SchemaElement.carried {r : SchemaElement} (h : r.Within o) :
    Carried o (d + 1) (format.write r) format.read r :=
  Format.carried lawful (.cons .code (.cons .i32 (.cons .code
    (.cons (.string (forall_mem_some h.name)) (.cons .i32 (.cons .i32 (.cons .i32 (.cons .i32
      (.cons .i32 .nil)))))))))

theorem SchemaElement.stable : (Codec.record format).Stable o (d + 1) :=
  Format.stable lawful (.cons .code (.cons .i32 (.cons .code (.cons .string (.cons .i32
    (.cons .i32 (.cons .i32 (.cons .i32 (.cons .i32 .nil)))))))))

/-! ## page headers -/

structure DataPageHeader.Within (o : Options) (r : DataPageHeader) : Prop where
  statistics : ∀ s ∈ r.statistics, s.Within o

theorem DataPageHeader.lawful : DataPageHeader.format.Lawful where
  positive := by decide
  nodup := by decide
  blank := rfl
  set := rfl
  ext := by
    rintro ⟨⟩ ⟨⟩ ⟨⟩
    rfl
  finish_draft _ := rfl
  draft_finish := by
    rintro ⟨_ | _, _ | _, _ | _, _ | _, _⟩ _ ⟨⟩
    rfl

theorem DataPageHeader.carried {r : DataPageHeader} (h : r.Within o) :
    Carried o (d + 2) (format.write r) format.read r :=
  Format.carried lawful (.cons .i32 (.cons .code (.cons .code (.cons .code
    (.cons (.record (forall_mem_imp h.statistics fun _ => Statistics.carried)) .nil)))))

theorem DataPageHeader.stable : (Codec.record format).Stable o (d + 2) :=
  Format.stable lawful (.cons .i32 (.cons .code (.cons .code (.cons .code
    (.cons (.record Statistics.stable) .nil)))))

theorem DictionaryPageHeader.lawful : DictionaryPageHeader.format.Lawful where
  positive := by decide
  nodup := by decide
  blank := rfl
  set := rfl
  ext := by
    rintro ⟨⟩ ⟨⟩ ⟨⟩
    rfl
  finish_draft _ := rfl
  draft_finish := by
    rintro ⟨_ | _, _ | _, _⟩ _ ⟨⟩
    rfl

/-- a header of a dictionary page is of bounded size -/
theorem DictionaryPageHeader.carried (r : DictionaryPageHeader) :
    Carried o (d + 1) (format.write r) format.read r :=
  Format.carried lawful (.cons .i32 (.cons .code (.cons .bool .nil)))

theorem DictionaryPageHeader.stable : (Codec.record format).Stable o (d + 1) :=
  Format.stable lawful (.cons .i32 (.cons .code (.cons .bool .nil)))

structure DataPageHeaderV2.Within (o : Options) (r : DataPageHeaderV2) : Prop where
  statistics : ∀ s ∈ r.statistics, s.Within o

theorem DataPageHeaderV2.lawful : DataPageHeaderV2.format.Lawful where
  positive := by decide
  nodup := by decide
  blank := rfl
  set := rfl
  ext := by
    rintro ⟨⟩ ⟨⟩ ⟨⟩
    rfl
  finish_draft _ := rfl
  draft_finish := by
    rintro ⟨_ | _, _ | _, _ | _, _ | _, _ | _, _ | _, _, _⟩ _ ⟨⟩
    rfl

theorem DataPageHeaderV2.carried {r : DataPageHeaderV2} (h : r.Within o) :
    Carried o (d + 2) (format.write r) format.read r :=
  Format.carried lawful (.cons .i32 (.cons .i32 (.cons .i32 (.cons .code (.cons .i32 (.cons .i32
    (.cons .bool
      (.cons (.record (forall_mem_imp h.statistics fun _ => Statistics.carried)) .nil))))))))

theorem DataPageHeaderV2.stable : (Codec.record format).Stable o (d + 2) :=
  Format.stable lawful (.cons .i32 (.cons .i32 (.cons .i32 (.cons .code (.cons .i32 (.cons .i32
    (.cons .bool (.cons (.record Statistics.stable) .nil))))))))

structure PageHeader.Within (o : Options) (r : PageHeader) : Prop where
  dataPageHeader : ∀ h ∈ r.dataPageHeader, h.Within o
  dataPageHeaderV2 : ∀ h ∈ r.dataPageHeaderV2, h.Within o

theorem PageHeader.lawful : PageHeader.format.Lawful where
  positive := by decide
  nodup := by decide
  blank := rfl
  set := rfl
  ext := by
    rintro ⟨⟩ ⟨⟩ ⟨⟩
    rfl
  finish_draft _ := rfl
  draft_finish := by
    rintro ⟨_ | _, _ | _, _ | _, _, _, _, _⟩ _ ⟨⟩
    rfl

theorem PageHeader.carried {r : PageHeader} (h : r.Within o) :
    Carried o (d + 3) (format.write r) format.read r :=
  Format.carried lawful (.cons .code (.cons .i32 (.cons .i32 (.cons .i32
    (.cons (.record (forall_mem_imp h.dataPageHeader fun _ => DataPageHeader.carried))
      (.cons (.record fun r _ => DictionaryPageHeader.carried r)
        (.cons (.record (forall_mem_imp h.dataPageHeaderV2 fun _ => DataPageHeaderV2.carried))
          .nil)))))))

theorem PageHeader.stable : (Codec.record format).Stable o (d + 3) :=
  Format.stable lawful (.cons .code (.cons .i32 (.cons .i32 (.cons .i32
    (.cons (.record DataPageHeader.stable) (.cons (.record DictionaryPageHeader.stable)
      (.cons (.record DataPageHeaderV2.stable) .nil)))))))

/-! ## column chunks -/

structure ColumnMetaData.Within (o : Options) (r : ColumnMetaData) : Prop where
  encodings : FitsList o r.encodings.length Codec.codeRoom
  pathInSchema : FitsList o r.pathInSchema.length Codec.textRoom ∧
    ∀ t ∈ r.pathInSchema, TextFits o t
  keyValueMetadata : ∀ rs ∈ r.keyValueMetadata, KeyValue.ListWithin o rs
  statistics : ∀ s ∈ r.statistics, s.Within o

theorem ColumnMetaData.lawful : ColumnMetaData.format.Lawful where
  positive := by decide
  nodup := by decide
  blank := rfl
  set := rfl
  ext := by
    rintro ⟨⟩ ⟨⟩ ⟨⟩
    rfl
  finish_draft _ := rfl
  draft_finish := by
    rintro ⟨_ | _, _ | _, _ | _, _ | _, _ | _, _ | _, _ | _, _, _ | _, _, _, _⟩ _ ⟨⟩
    rfl

theorem ColumnMetaData.carried {r : ColumnMetaData} (h : r.Within o) :
    Carried o (d + 2) (format.write r) format.read r :=
  Format.carried lawful (.cons .code (.cons (.codes (forall_mem_some h.encodings))
    (.cons (.strings (forall_mem_some h.pathInSchema)) (.cons .code (.cons .i64 (.cons .i64
      (.cons .i64 (.cons (KeyValue.holds h.keyValueMetadata) (.cons .i64 (.cons .i64 (.cons .i64
        (.cons (.record (forall_mem_imp h.statistics fun _ => Statistics.carried))
          .nil))))))))))))

theorem ColumnMetaData.stable : (Codec.record format).Stable o (d + 2) :=
  Format.stable lawful (.cons .code (.cons .codes (.cons .strings (.cons .code (.cons .i64
    (.cons .i64 (.cons .i64 (.cons (.records (by decide) KeyValue.stable) (.cons .i64 (.cons .i64
      (.cons .i64 (.cons (.record Statistics.stable) .nil))))))))))))

structure ColumnChunk.Within (o : Options) (r : ColumnChunk) : Prop where
  filePath : ∀ t ∈ r.filePath, TextFits o t
  metaData : ∀ m ∈ r.metaData, m.Within o

theorem ColumnChunk.lawful : ColumnChunk.format.Lawful where
  positive := by decide
  nodup := by decide
  blank := rfl
  set := rfl
  ext := by
    rintro ⟨⟩ ⟨⟩ ⟨⟩
    rfl
  finish_draft _ := rfl
  draft_finish := by
    rintro ⟨_, _ | _, _⟩ _ ⟨⟩
    rfl

theorem ColumnChunk.carried {r : ColumnChunk} (h : r.Within o) :
    Carried o (d + 3) (format.write r) format.read r :=
  Format.carried lawful (.cons (.string h.filePath) (.cons .i64
    (.cons (.record (forall_mem_imp h.metaData fun _ => ColumnMetaData.carried)) .nil)))

theorem ColumnChunk.stable : (Codec.record format).Stable o (d + 3) :=
  Format.stable lawful (.cons .string (.cons .i64 (.cons (.record ColumnMetaData.stable) .nil)))

/-! ## row groups and files -/

structure RowGroup.Within (o : Options) (r : RowGroup) : Prop where
  columns : FitsList o r.columns.length ColumnChunk.format.kind.room ∧
    ∀ c ∈ r.columns, c.Within o

theorem RowGroup.lawful : RowGroup.format.Lawful where
  positive := by decide
  nodup := by decide
  blank := rfl
  set := rfl
  ext := by
    rintro ⟨⟩ ⟨⟩ ⟨⟩
    rfl
  finish_draft _ := rfl
  draft_finish := by
    rintro ⟨_ | _, _ | _, _ | _, _, _, _⟩ _ ⟨⟩
    rfl

theorem RowGroup.carried {r : RowGroup} (h : r.Within o) :
    Carried o (d + 4) (format.write r) format.read r :=
  Format.carried lawful (.cons (.records (by decide) (forall_mem_some
      ⟨h.columns.1, fun c hc => ColumnChunk.carried (h.columns.2 c hc)⟩))
    (.cons .i64 (.cons .i64 (.cons .i64 (.cons .i64 (.cons .i16 .nil))))))

theorem RowGroup.stable : (Codec.record format).Stable o (d + 4) :=
  Format.stable lawful (.cons (.records (by decide) ColumnChunk.stable) (.cons .i64 (.cons .i64
    (.cons .i64 (.cons .i64 (.cons .i16 .nil))))))

structure FileMetaData.Within (o : Options) (r : FileMetaData) : Prop where
  schema : FitsList o r.schema.length SchemaElement.format.kind.room ∧
    ∀ s ∈ r.schema, s.Within o
  rowGroups : FitsList o r.rowGroups.length RowGroup.format.kind.room ∧
    ∀ g ∈ r.rowGroups, g.Within o
  keyValueMetadata : ∀ rs ∈ r.keyValueMetadata, KeyValue.ListWithin o rs
  createdBy : ∀ t ∈ r.createdBy, TextFits o t

theorem FileMetaData.lawful : FileMetaData.format.Lawful where
  positive := by decide
  nodup := by decide
  blank := rfl
  set := rfl
  ext := by
    rintro ⟨⟩ ⟨⟩ ⟨⟩
    rfl
  finish_draft _ := rfl
  draft_finish := by
    rintro ⟨_ | _, _ | _, _ | _, _ | _, _, _⟩ _ ⟨⟩
    rfl

theorem FileMetaData.carried {r : FileMetaData} (h : r.Within o) :
    Carried o (d + 5) (format.write r) format.read r :=
  Format.carried lawful (.cons .i32
    (.cons (.records (by decide) (forall_mem_some
      ⟨h.schema.1, fun s hs => SchemaElement.carried (h.schema.2 s hs)⟩))
    (.cons .i64
    (.cons (.records (by decide) (forall_mem_some
      ⟨h.rowGroups.1, fun g hg => RowGroup.carried (h.rowGroups.2 g hg)⟩))
    (.cons (KeyValue.holds h.keyValueMetadata) (.cons (.string h.createdBy) .nil))))))

theorem FileMetaData.stable : (Codec.record format).Stable o (d + 5) :=
  Format.stable lawful (.cons .i32 (.cons (.records (by decide) SchemaElement.stable) (.cons .i64
    (.cons (.records (by decide) RowGroup.stable)
      (.cons (.records (by decide) KeyValue.stable) (.cons .string .nil))))))

end Columnar
