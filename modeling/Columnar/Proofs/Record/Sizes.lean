import Columnar.Proofs.Compact.Extent
import Columnar.Proofs.Record.Built

/-!
# How much is in a record

Byte strings, texts and lists are held against the limits one by one, wherever in a record they
are, and so are the byte strings and containers that a caller of the compact protocol reads or
skips.  The size of a list that stands in its header is not: such a list may be up to fourteen
long whatever the limit is.

* `Codec.Contains c x s`   somewhere in `x`, which `c` reads and writes, there is a byte string or
                           a list of size `s`;
* `Codec.Built.keeps`      no record changes the limits under which it is read;
* `Met o path s`           under the limits of `o` there is something of size `s` to be met: an
                           answer of a reader, a part of what is skipped, or a part of a record;
* `met_allowed`            what is met is within the limits, or a short list;
* `met_fourteen`           under any limits a list of fourteen can be met.
-/

namespace Columnar

open Columnar.Compact Step

variable {o : Options} {α : Type}

/-! ## sizes in a record -/

/-- what `c` reads and writes as `x` has a byte string or a list of a size in it -/
inductive Codec.Contains : {α : Type} → Codec α → α → Size → Prop
  | binary (bs : Bytes) : Contains .binary bs (.bytes bs.length)
  | string (t : String) : Contains .string t (.bytes (Utf8.encode t).length)
  | codes {α : Type} [Coded α] (xs : List α) : Contains (.codes α) xs (.list xs.length)
  | strings (ts : List String) : Contains .strings ts (.list ts.length)
  | mem_strings {t : String} {ts : List String} (ht : t ∈ ts) :
    Contains .strings ts (.bytes (Utf8.encode t).length)
  | records {kind : RecordKind} (rs : List kind.Record) :
    Contains (.records kind.format) rs (.list rs.length)
  | mem_records {kind : RecordKind} {r : kind.Record} {rs : List kind.Record} {s : Size}
    (hr : r ∈ rs) (h : Contains (.record kind.format) r s) : Contains (.records kind.format) rs s
  | field {kind : RecordKind} {r : kind.Record} {f : Field kind.format.Draft} {x : f.Payload}
    {s : Size} (hf : f ∈ kind.format.fields) (hx : f.get (kind.format.draft r) = some x)
    (h : Contains f.codec x s) : Contains (.record kind.format) r s

/-! ## what is read -/

/-- under the limits of `o`, `x` may answer `a` -/
def Compact.Read.Answers (o : Options) (x : Read α) (a : α) : Prop :=
  ∃ r r' : Reader, r.Obeys o ∧ x r = (.ok a, r')

theorem Compact.Read.Answers.of_keeps {x : Read α} {a : α} {P : α → Prop}
    (h : Read.Answers o x a) (hx : Read.Keeps o P x) : P a := by
  obtain ⟨r, r', hr, e⟩ := h
  exact (Maintains.of_eq hx hr e).2

/-- what `x` answers, it may answer -/
theorem Compact.Read.Keeps.answers {x : Read α} {P : α → Prop} (h : Read.Keeps o P x) :
    Read.Keeps o (Read.Answers o x) x := by
  intro r hr
  refine ⟨(h r hr).1, fun a ha => ?_⟩
  exact ⟨r, (x r).2, hr, Prod.ext ha rfl⟩

/-- a record whose fields do not change the limits does not -/
theorem Format.keeps {R : Type} {F : Format R}
    (h : ∀ f ∈ F.fields, Read.Keeps o Any f.codec.read) : Read.Keeps o Any F.read := by
  have hfield : ∀ e t id, Any e → Read.Keeps o Any (F.readField e t id) := by
    intro e t id _
    unfold readField
    split
    · rename_i f hfind
      exact maintains_bind (h f (List.mem_of_find?_eq_some hfind)) fun _ _ => maintains_pure trivial
    · exact maintains_bind (Read.keeps_skip t) fun _ _ => maintains_pure trivial
  exact maintains_bind (Read.keeps_foldStruct trivial hfield) fun _ _ =>
    Read.keeps_lift fun _ _ => trivial

/-- no payload changes the limits under which it is read -/
theorem Codec.Built.keeps {c : Codec α} (h : c.Built) : Read.Keeps o Any c.read := by
  have any {β : Type} {P : β → Prop} {x : Read β} (hx : Read.Keeps o P x) : Read.Keeps o Any x :=
    hx.mono fun _ _ => trivial
  induction h with
  | bool => exact Read.keeps_bool
  | i16 => exact Read.keeps_i16
  | i32 => exact Read.keeps_i32
  | i64 => exact Read.keeps_i64
  | binary => exact any Read.keeps_binary
  | string => exact any Read.keeps_string
  | code => exact maintains_bind Read.keeps_i32 fun _ _ => Read.keeps_lift fun _ _ => trivial
  | codes => exact any keeps_codes
  | strings => exact any keeps_strings
  | record _ ih => exact Format.keeps ih
  | records _ ih => exact any (keeps_records (Format.keeps ih))

theorem RecordKind.keeps (kind : RecordKind) : Read.Keeps o Any kind.format.read :=
  (Codec.Built.record kind.built).keeps

/-- what is in a payload that is read is within the limits, or a short list -/
theorem Codec.Contains.allowed {c : Codec α} {x : α} {s : Size} (h : c.Contains x s) :
    Read.Answers o c.read x → s.Allowed o := by
  induction h with
  | binary bs => exact fun hx => .inl (hx.of_keeps Read.keeps_binary).1
  | string t => exact fun hx => .inl (hx.of_keeps Read.keeps_string).1
  | codes xs => exact fun hx => Size.allowed_list.mpr (hx.of_keeps keeps_codes).1
  | strings ts => exact fun hx => Size.allowed_list.mpr (hx.of_keeps keeps_strings).1.1
  | mem_strings ht => exact fun hx => .inl ((hx.of_keeps keeps_strings).2 _ ht).1
  | @records kind rs =>
    exact fun hx => Size.allowed_list.mpr (hx.of_keeps (keeps_records kind.keeps)).1.1
  | @mem_records kind r rs s hr _ ih =>
    exact fun hx => ih ((hx.of_keeps (keeps_records kind.keeps.answers)).2 r hr)
  | @field kind r f x s hf hx _ ih =>
    intro hr
    have hfields := hr.of_keeps (Format.keeps_fields kind.lawful
      (P := fun f => Read.Answers o f.codec.read) fun f hf => (kind.built f hf).keeps.answers)
    exact ih (hfields f hf x hx)

/-! ## what is met -/

/-- where the size of something is met -/
inductive Path where
  | read
  | skip
  | record
deriving DecidableEq

/-- what may be met under the limits of `o`: behind any calls, when a list or a set, a map, a byte
string or a text is read or a value is skipped (`Read.skip_eq`), and in records of any kind -/
inductive Met (o : Options) : Path → Size → Prop
  | list {r r' : Reader} {t : WireType} {n : Nat} (hr : Reached o r)
    (h : Read.listBegin r = (.ok (t, n), r')) : Met o .read (.list n)
  | map {r r' : Reader} {header : Read.MapHeader} (hr : Reached o r)
    (h : Read.mapBegin r = (.ok header, r')) : Met o .read (.map header.size)
  | binary {r r' : Reader} {bs : Bytes} (hr : Reached o r)
    (h : Read.binary r = (.ok bs, r')) : Met o .read (.bytes bs.length)
  | string {r r' : Reader} {t : String} (hr : Reached o r)
    (h : Read.string r = (.ok t, r')) : Met o .read (.bytes (Utf8.encode t).length)
  | skip {r r' : Reader} {t : WireType} {sizes : List Size} {s : Size} (hr : Reached o r)
    (h : Read.pass t r = (.ok sizes, r')) (hs : s ∈ sizes) : Met o .skip s
  | record {kind : RecordKind} {bs : Bytes} {r : kind.Record} {n : Nat} {s : Size}
    (h : kind.format.decode o bs = .ok (r, n))
    (hs : (Codec.record kind.format).Contains r s) : Met o .record s

/-- a record that was decoded may be read -/
theorem Format.answers_of_decode {R : Type} {F : Format R} {bs : Bytes} {r : R} {n : Nat}
    (h : F.decode o bs = .ok (r, n)) : Read.Answers o F.read r := by
  unfold decode at h
  split at h
  · rename_i r' s e
    cases h
    exact ⟨_, s, ⟨rfl, rfl⟩, e⟩
  · cases h

variable {path : Path} {s : Size}

/-- what is met is within the limits, or a short list -/
theorem met_allowed (h : Met o path s) : s.Allowed o := by
  cases h with
  | list hr h => exact Size.allowed_list.mpr (Maintains.of_eq Read.keeps_listBegin hr.obeys h).2
  | map hr h => exact .inl (Maintains.of_eq Read.keeps_mapBegin hr.obeys h).2
  | binary hr h => exact .inl (Maintains.of_eq Read.keeps_binary hr.obeys h).2.1
  | string hr h => exact .inl (Maintains.of_eq Read.keeps_string hr.obeys h).2.1
  | skip hr h hs => exact (Maintains.of_eq (Read.keeps_pass _) hr.obeys h).2 s hs
  | record h hs => exact hs.allowed (Format.answers_of_decode h)

/-- the metadata of a chunk that says nothing but some encodings -/
def ColumnMetaData.ofEncodings (encodings : List Encoding) : ColumnMetaData where
  physicalType := .int32
  encodings := encodings
  pathInSchema := []
  codec := .uncompressed
  numValues := 0
  totalUncompressedSize := 0
  totalCompressedSize := 0
  keyValueMetadata := none
  dataPageOffset := 0
  indexPageOffset := none
  dictionaryPageOffset := none
  statistics := none

theorem ColumnMetaData.within_ofEncodings {encodings : List Encoding}
    (h : FitsList o encodings.length Codec.codeRoom) : (ofEncodings encodings).Within o where
  encodings := h
  pathInSchema := by
    have hempty : FitsList o 0 Codec.textRoom := ⟨.inl (by decide), by decide⟩
    exact ⟨hempty, List.forall_mem_nil _⟩
  keyValueMetadata := nofun
  statistics := nofun

/-- a list of fourteen is met on every path, whatever the limits are -/
theorem met_fourteen (o : Options) (path : Path) : Met o path (.list 14) := by
  cases path with
  | read => exact .list (.start (.ofBytes [0xE5])) rfl
  | skip =>
    exact .skip (t := .list) (.start (.ofBytes (0xE3 :: List.replicate 14 0))) rfl
      List.mem_cons_self
  | record =>
    have hfits : FitsList o (List.replicate 14 Encoding.plain).length Codec.codeRoom :=
      ⟨.inl (by decide), by decide⟩
    obtain ⟨bs, -, hdecode⟩ := Format.roundTrips_of_carried (by decide)
      (ColumnMetaData.carried (d := 0) (ColumnMetaData.within_ofEncodings hfits))
    have hencodings : (Codec.record RecordKind.columnMetaData.format).Contains
        (ColumnMetaData.ofEncodings (.replicate 14 .plain)) (.list 14) :=
      .field (f := RecordKind.columnMetaData.format.fields[1]) (List.getElem_mem _) rfl (.codes _)
    exact @Met.record o .columnMetaData _ _ _ _ (hdecode []) hencodings

/-- Whatever the limits of `o` are, all that is met on a path is within them, except that a list of
up to fourteen may be met as well; so a path is within the limits exactly when the limit on
containers is fourteen or more. -/
theorem met_within_iff (o : Options) (path : Path) :
    (∀ s, Met o path s → s.Allowed o) ∧
      ((∀ s, Met o path s → s.Within o) ↔ 14 ≤ o.containerLimit) := by
  refine ⟨fun s => met_allowed, fun h => h _ (met_fourteen o path), fun ho s hs => ?_⟩
  exact (met_allowed hs).within ho

/-- a list of five numbers is read under a limit of three -/
theorem not_within_shortList :
    Met { containerLimit := 3 } .read (.list 5) ∧
      ¬ (Size.list 5).Within { containerLimit := 3 } :=
  ⟨.list (.start (.ofBytes [0x55, 0, 0, 0, 0, 0])) rfl, by decide⟩

end Columnar
