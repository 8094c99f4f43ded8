import Columnar.Proofs.Record.Laws

/-!
# Every record makes the round trip

The eleven kinds of records at once: each has its record type, its format, and the bounds on what
is in a record (`RecordKind.Record`, `RecordKind.format`, `RecordKind.Within`).

* `Format.RoundTrips F o r`   written behind any bytes and read in front of any others, `r` is
                              found again, and as many bytes are read as were written.
-/

namespace Columnar

open Columnar.Compact

/-! ## the kinds -/

namespace RecordKind

/-- the records of a kind -/
def Record : RecordKind → Type
  | fileMetaData => FileMetaData
  | schemaElement => SchemaElement
  | rowGroup => RowGroup
  | columnChunk => ColumnChunk
  | columnMetaData => ColumnMetaData
  | keyValue => KeyValue
  | statistics => Statistics
  | pageHeader => PageHeader
  | dataPageHeader => DataPageHeader
  | dataPageHeaderV2 => DataPageHeaderV2
  | dictionaryPageHeader => DictionaryPageHeader

def format : (kind : RecordKind) → Format kind.Record
  | fileMetaData => FileMetaData.format
  | schemaElement => SchemaElement.format
  | rowGroup => RowGroup.format
  | columnChunk => ColumnChunk.format
  | columnMetaData => ColumnMetaData.format
  | keyValue => KeyValue.format
  | statistics => Statistics.format
  | pageHeader => PageHeader.format
  | dataPageHeader => DataPageHeader.format
  | dataPageHeaderV2 => DataPageHeaderV2.format
  | dictionaryPageHeader => DictionaryPageHeader.format

/-- the byte strings and lists of a record are within the limits -/
def Within (o : Options) : (kind : RecordKind) → kind.Record → Prop
  | fileMetaData => FileMetaData.Within o
  | schemaElement => SchemaElement.Within o
  | rowGroup => RowGroup.Within o
  | columnChunk => ColumnChunk.Within o
  | columnMetaData => ColumnMetaData.Within o
  | keyValue => KeyValue.Within o
  | statistics => Statistics.Within o
  | pageHeader => PageHeader.Within o
  | dataPageHeader => DataPageHeader.Within o
  | dataPageHeaderV2 => DataPageHeaderV2.Within o
  | dictionaryPageHeader => fun _ => True

/-- every format is that of its kind -/
theorem format_kind (kind : RecordKind) : kind.format.kind = kind := by
  cases kind <;> rfl

theorem lawful (kind : RecordKind) : kind.format.Lawful := by
  cases kind with
  | fileMetaData => exact FileMetaData.lawful
  | schemaElement => exact SchemaElement.lawful
  | rowGroup => exact RowGroup.lawful
  | columnChunk => exact ColumnChunk.lawful
  | columnMetaData => exact ColumnMetaData.lawful
  | keyValue => exact KeyValue.lawful
  | statistics => exact Statistics.lawful
  | pageHeader => exact PageHeader.lawful
  | dataPageHeader => exact DataPageHeader.lawful
  | dataPageHeaderV2 => exact DataPageHeaderV2.lawful
  | dictionaryPageHeader => exact DictionaryPageHeader.lawful

variable {o : Options}

/-- five structs inside each other are enough for every kind -/
theorem carried {kind : RecordKind} {r : kind.Record} (h : kind.Within o r) :
    Carried o 5 (kind.format.write r) kind.format.read r := by
  cases kind with
  | fileMetaData => exact FileMetaData.carried h
  | schemaElement => exact SchemaElement.carried h
  | rowGroup => exact RowGroup.carried h
  | columnChunk => exact ColumnChunk.carried h
  | columnMetaData => exact ColumnMetaData.carried h
  | keyValue => exact KeyValue.carried h
  | statistics => exact Statistics.carried h
  | pageHeader => exact PageHeader.carried h
  | dataPageHeader => exact DataPageHeader.carried h
  | dataPageHeaderV2 => exact DataPageHeaderV2.carried h
  | dictionaryPageHeader => exact DictionaryPageHeader.carried r

theorem stable (kind : RecordKind) : (Codec.record kind.format).Stable o 5 := by
  cases kind with
  | fileMetaData => exact FileMetaData.stable
  | schemaElement => exact SchemaElement.stable
  | rowGroup => exact RowGroup.stable
  | columnChunk => exact ColumnChunk.stable
  | columnMetaData => exact ColumnMetaData.stable
  | keyValue => exact KeyValue.stable
  | statistics => exact Statistics.stable
  | pageHeader => exact PageHeader.stable
  | dataPageHeader => exact DataPageHeader.stable
  | dataPageHeaderV2 => exact DataPageHeaderV2.stable
  | dictionaryPageHeader => exact DictionaryPageHeader.stable

end RecordKind

/-! ## from bytes to bytes -/

namespace Format

variable {R : Type} {F : Format R} {o : Options} {d : Nat} {r : R}

/-- `r` is written behind any bytes, and found again in front of any others -/
def RoundTrips (F : Format R) (o : Options) (r : R) : Prop :=
  ∃ bs, (∀ front, F.append front r = .ok (front ++ bs, bs.length)) ∧
    ∀ behind, F.decode o (bs ++ behind) = .ok (r, bs.length)

/-- a carried record makes the round trip, since nothing is open around it -/
theorem roundTrips_of_carried (hd : d ≤ maxStructDepth)
    (h : Compact.Carried o d (F.write r) F.read r) : F.RoundTrips o r := by
  obtain ⟨bs, hbs⟩ := h
  refine ⟨bs, fun front => ?_, fun behind => ?_⟩
  · obtain ⟨z, e, hz⟩ := (hbs 0).1 { sink := .holding front }
      ⟨fun _ _ => rfl, rfl, rfl, by rwa [List.length_nil, Nat.zero_add]⟩
    rw [append, e]
    show Except.ok (z.bytes, bs.length) = _
    rw [hz.bytes]
    show Except.ok ([front].flatten ++ bs, bs.length) = _
    rw [List.flatten_singleton]
  · have e := (hbs 0).2 (.ofCursor (.ofBytes (bs ++ behind)) o) [] behind
      ⟨⟨rfl, rfl⟩, rfl, rfl, by
        show 0 + d ≤ maxStructDepth
        omega⟩ rfl
    rw [decode, e]
    show Except.ok (r, (bs.reverse ++ []).length) = _
    rw [List.append_nil, List.length_reverse]

/-- a record that was read is carried -/
theorem carried_of_decode (hF : (Codec.record F).Stable o d) {bs : Bytes} {n : Nat}
    (h : F.decode o bs = .ok (r, n)) : Compact.Carried o d (F.write r) F.read r := by
  unfold decode at h
  split at h
  · rename_i r' s e
    cases h
    exact (Step.Maintains.of_eq hF (⟨rfl, rfl⟩ : (Reader.ofCursor _ o).Obeys o) e).2
  · cases h

end Format

/-- a record within the limits makes the round trip, and so does every record that was read -/
theorem RecordKind.roundTrips (kind : RecordKind) (o : Options) :
    (∀ r, kind.Within o r → kind.format.RoundTrips o r) ∧
      ∀ bs r n, kind.format.decode o bs = .ok (r, n) → kind.format.RoundTrips o r :=
  ⟨fun _ h => Format.roundTrips_of_carried (by decide) (carried h),
    fun _ _ _ h => Format.roundTrips_of_carried (by decide)
      (Format.carried_of_decode kind.stable h)⟩

/-- a pair of texts within the limits, and an empty key that was read with a byte behind it -/
theorem RecordKind.roundTrips_keyValue :
    KeyValue.format.RoundTrips {} ⟨"k", some "v"⟩ ∧ KeyValue.format.RoundTrips {} ⟨"", none⟩ :=
  ⟨(RecordKind.roundTrips .keyValue {}).1 ⟨"k", some "v"⟩
      ⟨by decide, by rintro _ ⟨⟩; decide⟩,
    (RecordKind.roundTrips .keyValue {}).2 [0x18, 0, 0, 7] ⟨"", none⟩ 3 (by rfl)⟩

end Columnar
