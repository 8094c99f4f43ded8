import Columnar.Proofs.Compact.Abreast
import Columnar.Proofs.Record.Sizes
import Columnar.Proofs.Record.Spelled

/-!
# Records keep abreast

A record that is read has the extent of the struct that is skipped in its place.  Lists of records
declare structs or are refused, but the element types that lists of numbers and lists of texts
declare play no part in reading them, so a record keeps abreast as long as these tell the truth.

* `Reader.Declares ts r`        the list in front of `r` declares one of `ts`, or has no elements;
* `Format.fieldsAt F r`         the fields that reading `F` from `r` on comes to, each with the
                                reader in front of its payload;
* `Codec.Truthful c r`          the lists that reading `c` comes to are what they declare;
* `Codec.Truthful.abreast`      the payload keeps abreast of the value that is skipped;
* `RecordKind.truthful`         a record without the metadata of a column always is truthful;
* `RecordKind.decode_skip`      a record takes as many bytes as the struct that is skipped.
-/

namespace Columnar

open Columnar.Compact

variable {α R : Type} {F : Format R} {r : Reader}

/-! ## what lists declare -/

/-- the list in front of `r` declares one of the types `ts`, or has no elements -/
def Compact.Reader.Declares (ts : List WireType) (r : Reader) : Prop :=
  ∀ t n s, Read.listBegin r = (.ok (t, n), s) → n = 0 ∨ t ∈ ts

instance (ts : List WireType) (r : Reader) : Decidable (r.Declares ts) :=
  match hlist : Read.listBegin r with
  | (.error _, _) => isTrue fun t n s h => by
    rw [hlist] at h
    cases h
  | (.ok (t, n), _) => decidable_of_iff (n = 0 ∨ t ∈ ts) <| by
    refine ⟨fun h t' n' s' h' => ?_, fun h => h t n _ hlist⟩
    rw [hlist] at h'
    cases h'
    exact h

/-! ## the fields that are come to -/

namespace Format

/-- the fields of the table among the next `fuel` fields, each with the reader in front of its
payload -/
def visits (F : Format R) : Nat → F.Draft → Reader → List (Field F.Draft × Reader)
  | 0, _, _ => []
  | fuel + 1, d, r =>
    match Read.fieldBegin r with
    | (.ok (some (t, id)), s) =>
      (F.known t id).toList.map (·, s) ++
        match F.readField d t id s with
        | (.ok d', s') => F.visits fuel d' s'
        | (.error _, _) => []
    | _ => []

/-- the fields that reading a record from `r` on comes to -/
def fieldsAt (F : Format R) (r : Reader) : List (Field F.Draft × Reader) :=
  F.visits ((Read.inside r).cursor.remaining + 1) F.blank (Read.inside r)

variable {n : Nat} {d d' : F.Draft} {s s' : Reader} {t : WireType} {id : Int16}
  {p : Field F.Draft × Reader}

theorem mem_visits_known {f : Field F.Draft} (hbegin : Read.fieldBegin r = (.ok (some (t, id)), s))
    (hf : F.known t id = some f) : (f, s) ∈ F.visits (n + 1) d r := by
  rw [visits, hbegin]
  refine List.mem_append_left _ ?_
  rw [hf]
  exact List.mem_singleton.mpr rfl

theorem mem_visits_rest (hbegin : Read.fieldBegin r = (.ok (some (t, id)), s))
    (hread : F.readField d t id s = (.ok d', s')) (hp : p ∈ F.visits n d' s') :
    p ∈ F.visits (n + 1) d r := by
  rw [visits, hbegin]
  refine List.mem_append_right _ ?_
  rw [hread]
  exact hp

/-- what is come to stands in the table -/
theorem mem_fields_of_visits (n : Nat) : ∀ {d : F.Draft} {r : Reader},
    p ∈ F.visits n d r → p.1 ∈ F.fields := by
  induction n with
  | zero => exact fun h => nomatch h
  | succ n ih =>
    intro d r h
    rw [visits] at h
    split at h
    · rename_i t id s _
      rcases List.mem_append.mp h with hknown | hrest
      · obtain ⟨f, hf, rfl⟩ := List.mem_map.mp hknown
        exact (known_eq_some (Option.mem_toList.mp hf)).1
      · split at hrest
        · exact ih hrest
        · cases hrest
    · cases h

theorem mem_fields_of_fieldsAt (h : p ∈ F.fieldsAt r) : p.1 ∈ F.fields := mem_fields_of_visits _ h

/-- a record keeps abreast of a struct that is skipped, as soon as every field it comes to does -/
theorem abreast_read (h : ∀ p ∈ F.fieldsAt r,
      ∀ k, Read.Abreast p.1.codec.read (Read.skipWithin k p.1.codec.type) p.2) (k : Nat) :
    Read.Abreast F.read (Read.skipWithin k .struct) r := by
  match k with
  | 0 => exact Read.abreast_fail_right _ _
  | k + 1 =>
    have hfold : Read.Abreast (Read.foldStruct F.readField F.blank)
        (Read.foldStruct (fun _ t _ => Read.skipWithin k t) ()) r := by
      refine Read.abreast_foldStruct (Read.abreast_foldFields
        (P := fun n d s => ∀ p ∈ F.visits n d s,
          ∀ k, Read.Abreast p.1.codec.read (Read.skipWithin k p.1.codec.type) p.2) ?_ _ _ _ _ h)
      intro n d r t id s hvisits hbegin
      refine ⟨fun _ => ?_, fun d' s' hread p hp =>
        hvisits p (mem_visits_rest hbegin hread hp)⟩
      rcases hknown : F.known t id with _ | f
      · rw [readField_other hknown]
        exact (Read.abreast_skipWithin maxSkipDepth k t s).bind_still fun _ => Read.still_pure d
      · rw [readField_known hknown]
        have hf := hvisits (f, s) (mem_visits_known hbegin hknown) k
        rw [(known_eq_some hknown).2.2] at hf
        exact hf.bind_still fun x => Read.still_pure _
    exact hfold.bind_still fun d => Read.still_lift (F.finish d)

end Format

/-! ## truthful payloads -/

/-- the lists of numbers and of texts that reading `c` from `r` on comes to are what they declare -/
inductive Codec.Truthful : {α : Type} → Codec α → Reader → Prop
  | bool {r : Reader} : Truthful .bool r
  | i16 {r : Reader} : Truthful .i16 r
  | i32 {r : Reader} : Truthful .i32 r
  | i64 {r : Reader} : Truthful .i64 r
  | binary {r : Reader} : Truthful .binary r
  | string {r : Reader} : Truthful .string r
  | code {α : Type} [Coded α] {r : Reader} : Truthful (.code α) r
  | codes {α : Type} [Coded α] {r : Reader} (numbers : r.Declares Read.numberTypes) :
    Truthful (.codes α) r
  | strings {r : Reader} (texts : r.Declares Read.textTypes) : Truthful .strings r
  | record {R : Type} {F : Format R} {r : Reader}
    (fields : ∀ p ∈ F.fieldsAt r, Truthful p.1.codec p.2) : Truthful (.record F) r
  | records {R : Type} {F : Format R} {r : Reader}
    (members : ∀ n s, Read.listBegin r = (.ok (.struct, n), s) →
      ∀ i < n, ∀ rs s', Step.times i F.read s = (.ok rs, s') → Truthful (.record F) s') :
    Truthful (.records F) r

/-- a truthful payload keeps abreast of the value that is skipped in its place -/
theorem Codec.Truthful.abreast {c : Codec α} (h : c.Truthful r) :
    ∀ k, Read.Abreast c.read (Read.skipWithin k c.type) r := by
  induction h with
  | bool => exact Read.abreast_skip (.refl Read.bool) (.refl Read.bool) fun _ => rfl
  | i16 => exact Read.abreast_skip (.refl Read.i16) (.refl Read.i16) fun _ => rfl
  | i32 => exact Read.abreast_skip (.refl Read.i32) (.refl Read.i32) fun _ => rfl
  | i64 => exact Read.abreast_skip (.refl Read.i64) (.refl Read.i64) fun _ => rfl
  | binary => exact Read.abreast_skip (.refl Read.binary) (.refl Read.binary) fun _ => rfl
  | string => exact Read.abreast_skip Read.shadows_string (.refl Read.binary) fun _ => rfl
  | code =>
    exact Read.abreast_skip (Read.shadows_bind fun c => Read.still_lift _) (.refl Read.i32)
      fun _ => rfl
  | codes numbers =>
    refine Read.abreast_list fun t n s hlist k => ?_
    refine Read.abreast_still_bind (Read.still_reserve _ _) fun _ => ?_
    refine (Read.abreast_times n fun i hi _ s' _ => ?_).bind_still fun cs => Read.still_lift _
    exact Read.abreast_i32 ((numbers t n s hlist).resolve_left (Nat.ne_zero_of_lt hi)) k
  | strings texts =>
    refine Read.abreast_list fun t n s hlist k => ?_
    refine Read.abreast_still_bind (Read.still_reserve _ _) fun _ => ?_
    refine Read.abreast_times n fun i hi _ s' _ => ?_
    exact Read.abreast_string ((texts t n s hlist).resolve_left (Nat.ne_zero_of_lt hi)) k
  | record fields ih => exact Format.abreast_read ih
  | records members ih =>
    refine Read.abreast_list fun t n s hlist k => ?_
    dsimp only
    split
    · rename_i ht
      subst ht
      refine Read.abreast_still_bind (Read.still_reserve _ _) fun _ => ?_
      exact Read.abreast_times n fun i hi rs s' hrs => ih n s hlist i hi rs s' hrs k
    · exact Read.abreast_fail_left _ _

/-! ## records that always tell the truth -/

/-- the fields of a table are truthful wherever they stand -/
def Fields.Truthful {D : Type} (fs : List (Field D)) : Prop := ∀ f ∈ fs, ∀ r, f.codec.Truthful r

namespace Fields.Truthful

variable {D : Type}

theorem nil : Truthful ([] : List (Field D)) := List.forall_mem_nil _

theorem cons {f : Field D} {fs : List (Field D)} (h : ∀ r, f.codec.Truthful r)
    (h' : Truthful fs) : Truthful (f :: fs) := List.forall_mem_cons.mpr ⟨h, h'⟩

theorem record (h : Truthful F.fields) (r : Reader) : (Codec.record F).Truthful r :=
  .record fun p hp => h p.1 (Format.mem_fields_of_fieldsAt hp) p.2

theorem records (h : Truthful F.fields) (r : Reader) : (Codec.records F).Truthful r :=
  .records fun _ _ _ _ _ _ s' _ => h.record s'

end Fields.Truthful

theorem KeyValue.truthful : Fields.Truthful KeyValue.format.fields :=
  .cons (fun _ => .string) (.cons (fun _ => .string) .nil)

theorem Statistics.truthful : Fields.Truthful Statistics.format.fields :=
  .cons (fun _ => .binary) (.cons (fun _ => .binary) (.cons (fun _ => .i64) (.cons (fun _ => .i64)
    (.cons (fun _ => .binary) (.cons (fun _ => .binary) .nil)))))

theorem SchemaElement.truthful : Fields.Truthful SchemaElement.format.fields :=
  .cons (fun _ => .code) (.cons (fun _ => .i32) (.cons (fun _ => .code) (.cons (fun _ => .string)
    (.cons (fun _ => .i32) (.cons (fun _ => .i32) (.cons (fun _ => .i32) (.cons (fun _ => .i32)
      (.cons (fun _ => .i32) .nil))))))))

theorem DataPageHeader.truthful : Fields.Truthful DataPageHeader.format.fields :=
  .cons (fun _ => .i32) (.cons (fun _ => .code) (.cons (fun _ => .code) (.cons (fun _ => .code)
    (.cons Statistics.truthful.record .nil))))

theorem DictionaryPageHeader.truthful : Fields.Truthful DictionaryPageHeader.format.fields :=
  .cons (fun _ => .i32) (.cons (fun _ => .code) (.cons (fun _ => .bool) .nil))

theorem DataPageHeaderV2.truthful : Fields.Truthful DataPageHeaderV2.format.fields :=
  .cons (fun _ => .i32) (.cons (fun _ => .i32) (.cons (fun _ => .i32) (.cons (fun _ => .code)
    (.cons (fun _ => .i32) (.cons (fun _ => .i32) (.cons (fun _ => .bool)
      (.cons Statistics.truthful.record .nil)))))))

theorem PageHeader.truthful : Fields.Truthful PageHeader.format.fields :=
  .cons (fun _ => .code) (.cons (fun _ => .i32) (.cons (fun _ => .i32) (.cons (fun _ => .i32)
    (.cons DataPageHeader.truthful.record (.cons DictionaryPageHeader.truthful.record
      (.cons DataPageHeaderV2.truthful.record .nil))))))

/-- the metadata of a column, and the records that may hold it -/
def RecordKind.aboutColumns : List RecordKind :=
  [.columnMetaData, .columnChunk, .rowGroup, .fileMetaData]

/-- a record without the metadata of a column always is truthful -/
theorem RecordKind.truthful {kind : RecordKind} (h : kind ∉ RecordKind.aboutColumns) :
    ∀ r, (Codec.record kind.format).Truthful r := by
  cases kind with
  | fileMetaData => exact absurd (by decide) h
  | rowGroup => exact absurd (by decide) h
  | columnChunk => exact absurd (by decide) h
  | columnMetaData => exact absurd (by decide) h
  | schemaElement => exact SchemaElement.truthful.record
  | keyValue => exact KeyValue.truthful.record
  | statistics => exact Statistics.truthful.record
  | pageHeader => exact PageHeader.truthful.record
  | dataPageHeader => exact DataPageHeader.truthful.record
  | dataPageHeaderV2 => exact DataPageHeaderV2.truthful.record
  | dictionaryPageHeader => exact DictionaryPageHeader.truthful.record

/-- the list of encodings in front of `r` is declared as numbers, and the path as texts -/
def ColumnMetaData.Declared (id : Int16) (r : Reader) : Prop :=
  (id = 2 → r.Declares Read.numberTypes) ∧ (id = 3 → r.Declares Read.textTypes)

instance (id : Int16) (r : Reader) : Decidable (ColumnMetaData.Declared id r) :=
  inferInstanceAs (Decidable (_ ∧ _))

/-- the fields behind the lists of a column's metadata -/
theorem ColumnMetaData.truthful_drop : Fields.Truthful (ColumnMetaData.format.fields.drop 3) :=
  .cons (fun _ => .code) (.cons (fun _ => .i64) (.cons (fun _ => .i64) (.cons (fun _ => .i64)
    (.cons KeyValue.truthful.records (.cons (fun _ => .i64) (.cons (fun _ => .i64)
      (.cons (fun _ => .i64) (.cons Statistics.truthful.record .nil))))))))

theorem ColumnMetaData.field_truthful : ∀ f ∈ ColumnMetaData.format.fields, ∀ r,
    ColumnMetaData.Declared f.id r → f.codec.Truthful r :=
  List.forall_mem_cons.mpr ⟨fun _ _ => .code,
    List.forall_mem_cons.mpr ⟨fun _ h => .codes (h.1 rfl),
      List.forall_mem_cons.mpr ⟨fun _ h => .strings (h.2 rfl),
        fun f hf r _ => ColumnMetaData.truthful_drop f hf r⟩⟩⟩

/-- the metadata of a column are truthful when its encodings are declared as numbers and its path
as texts, each time they come -/
theorem ColumnMetaData.truthful
    (h : ∀ p ∈ ColumnMetaData.format.fieldsAt r, ColumnMetaData.Declared p.1.id p.2) :
    (Codec.record ColumnMetaData.format).Truthful r :=
  .record fun p hp =>
    ColumnMetaData.field_truthful p.1 (Format.mem_fields_of_fieldsAt hp) p.2 (h p hp)

/-! ## records and skipped structs -/

/-- a record takes as many bytes as the struct that is skipped in its place: a record without the
metadata of a column always, and one that may hold them when its lists are what they declare -/
theorem RecordKind.decode_skip (kind : RecordKind) {o : Options} {bs : Bytes} {x : kind.Record}
    {n : Nat} {s : Reader} (hread : kind.format.decode o bs = .ok (x, n))
    (hskip : Read.skip .struct (.ofCursor (.ofBytes bs) o) = (.ok (), s))
    (htruthful : kind ∈ RecordKind.aboutColumns →
      (Codec.record kind.format).Truthful (.ofCursor (.ofBytes bs) o)) :
    n = s.cursor.pos := by
  have h : (Codec.record kind.format).Truthful (.ofCursor (.ofBytes bs) o) := by
    by_cases hkind : kind ∈ RecordKind.aboutColumns
    · exact htruthful hkind
    · exact RecordKind.truthful hkind _
  rw [Format.decode] at hread
  rcases hrun : kind.format.read (.ofCursor (.ofBytes bs) o) with ⟨e | y, s'⟩
  · rw [hrun] at hread
    cases hread
  · rw [hrun] at hread
    cases hread
    rw [h.abreast maxSkipDepth x s' () s hrun hskip]

/-- the metadata of a column of one encoding, declared as a number of 64 bits and written in two
bytes, and one name -/
theorem RecordKind.decode_skip_wide :
    let bs : Bytes := [0x15, 2, 0x19, 0x16, 0x80, 0, 0x19, 0x18, 1, 0x61, 0x15, 0, 0x16, 0, 0x16, 0,
      0x16, 0, 0x26, 0, 0]
    ∃ x s, ColumnMetaData.format.decode {} bs = .ok (x, 21) ∧
      Read.skip .struct (.ofCursor (.ofBytes bs) {}) = (.ok (), s) ∧
      (Codec.record ColumnMetaData.format).Truthful (.ofCursor (.ofBytes bs) {}) ∧
      21 = s.cursor.pos := by
  intro bs
  let x : ColumnMetaData := { ColumnMetaData.ofEncodings [.plain] with pathInSchema := ["a"] }
  have hread : ColumnMetaData.format.decode {} bs = .ok (x, 21) := by decide +kernel
  have hskip : Read.skip .struct (.ofCursor (.ofBytes bs) {}) =
      (.ok (), .ofCursor ⟨bs.reverse, []⟩ {}) := by decide +kernel
  have htruthful : (Codec.record ColumnMetaData.format).Truthful (.ofCursor (.ofBytes bs) {}) :=
    ColumnMetaData.truthful (by decide +kernel)
  exact ⟨x, _, hread, hskip, htruthful,
    RecordKind.decode_skip .columnMetaData hread hskip fun _ => htruthful⟩

/-- encodings that are declared as bytes: reading takes two bytes for one, and skipping takes the
second one for the end of the struct -/
theorem RecordKind.not_decode_skip_bytes :
    ¬ ∀ (kind : RecordKind) (o : Options) (bs : Bytes) (x : kind.Record) (n : Nat) (s : Reader),
      kind.format.decode o bs = .ok (x, n) →
      Read.skip .struct (.ofCursor (.ofBytes bs) o) = (.ok (), s) → n = s.cursor.pos := by
  intro h
  let front : Bytes := [0x15, 2, 0x19, 0x13, 0x80, 0]
  let back : Bytes := [0x19, 8, 0x15, 0, 0x16, 0, 0x16, 0, 0x16, 0, 0x26, 0, 0]
  have hread : ColumnMetaData.format.decode {} (front ++ back) =
      .ok (.ofEncodings [.plain], 19) := by decide +kernel
  have hskip : Read.skip .struct (.ofCursor (.ofBytes (front ++ back)) {}) =
      (.ok (), .ofCursor ⟨front.reverse, back⟩ {}) := by decide +kernel
  exact absurd (h .columnMetaData {} (front ++ back) _ 19 _ hread hskip) (by decide)

end Columnar
