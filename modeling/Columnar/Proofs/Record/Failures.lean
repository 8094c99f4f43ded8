import Columnar.Proofs.Compact.Failures
import Columnar.Record.File
import Columnar.Record.Page

/-!
# How records fail

A record is refused with an error, or because a list in it declares more elements than memory can
hold; the second needs a limit on lists that is itself too large.

* `Codec.FailsWith c o E`   under the limits of `o`, `c` fails only with what satisfies `E`;
* `Format.failsWith`        what every field of a format fails with, its records do;
* `PageHeader.decode_regular`, `FileMetaData.decode_limited`   the two records that are read on
                            their own.
-/

namespace Columnar

open Columnar.Compact Step

variable {o : Options} {E : Failure → Prop} {α : Type}

/-- the most room that an element of a list takes -/
def maxRoom : Nat := 304

theorem RecordKind.room_le (kind : RecordKind) : kind.room ≤ maxRoom := by
  cases kind <;> decide

theorem Compact.Read.keeps_any {x : Read α} {P : α → Prop} (h : Read.Keeps o P x) :
    Read.Keeps o Any x := h.mono fun _ _ => trivial

/-- under the limits of `o`, `c` fails only with what satisfies `E` -/
structure Codec.FailsWith (c : Codec α) (o : Options) (E : Failure → Prop) : Prop where
  keeps : Read.Keeps o Any c.read
  fails : Fails (fun r : Reader => r.Obeys o) E c.read

/-- the payloads of some fields fail only with what satisfies `E` -/
def Fields.FailsWith {D : Type} (fs : List (Field D)) (o : Options) (E : Failure → Prop) : Prop :=
  ∀ f ∈ fs, f.codec.FailsWith o E

namespace Fields.FailsWith

variable {D : Type}

theorem nil : FailsWith ([] : List (Field D)) o E := List.forall_mem_nil _

theorem cons {f : Field D} {fs : List (Field D)} (h : f.codec.FailsWith o E)
    (h' : FailsWith fs o E) : FailsWith (f :: fs) o E := List.forall_mem_cons.mpr ⟨h, h'⟩

end Fields.FailsWith

theorem require_regular {kind : RecordKind} {field : String} {x : Option α} {e : Error}
    (h : require kind field x = .error e) : e.Regular := by
  cases x with
  | some x => cases h
  | none =>
    cases h
    exact fun h => h

/-- two answers in a row fail as one of them does -/
theorem Except.error_of_bind {ε β : Type} {x : Except ε α} {f : α → Except ε β} {P : ε → Prop}
    (hx : ∀ e, x = .error e → P e) (hf : ∀ a e, f a = .error e → P e) :
    ∀ e, (x >>= f) = .error e → P e := by
  intro e h
  cases x with
  | error e' =>
    cases h
    exact hx e rfl
  | ok a => exact hf a e h

/-- a field that a record needs, in front of what is made of it -/
theorem require_bind_regular {β : Type} {kind : RecordKind} {field : String} {x : Option α}
    {f : α → Except Error β} (hf : ∀ a e, f a = .error e → e.Regular) :
    ∀ e, (require kind field x >>= f) = .error e → e.Regular :=
  Except.error_of_bind (fun _ h => require_regular h) hf

theorem pure_regular {x : α} : ∀ e : Error, (pure x : Except Error α) = .error e → e.Regular :=
  fun _ h => nomatch h

theorem decodeCode_regular [Coded α] {c : Int32} {e : Error} (h : decodeCode α c = .error e) :
    e.Regular := by
  unfold decodeCode at h
  split at h
  · cases h
  · cases h
    exact fun h => h

theorem mapM_decodeCode_regular [Coded α] {cs : List Int32} :
    ∀ e, cs.mapM (decodeCode α) = .error e → e.Regular := by
  induction cs with
  | nil => exact fun _ h => nomatch h
  | cons c cs ih =>
    rw [List.mapM_cons]
    refine Except.error_of_bind (fun e he => decodeCode_regular he) fun x => ?_
    exact Except.error_of_bind ih fun _ => pure_regular

/-! ## payloads -/

namespace Codec.FailsWith

/-- a list that is short or within the limit has its memory, or the limit is too large -/
theorem fails_listBegin_reserve {n room : Nat}
    (hcap : Read.maxListRoom < o.containerLimit * maxRoom → E (.misuse .capacityOverflow))
    (hn : n < 15 ∨ n ≤ o.containerLimit) (hroom : room ≤ maxRoom) :
    Fails (fun r : Reader => r.Obeys o) E (Read.reserve n room) := by
  apply Read.fails_reserve
  intro hlt
  rcases hn with hshort | hlong
  · have hle : n * room ≤ 15 * maxRoom := Nat.mul_le_mul (Nat.le_of_lt hshort) hroom
    have hroomy : 15 * maxRoom ≤ Read.maxListRoom := by decide
    omega
  · exact hcap (Nat.lt_of_lt_of_le hlt (Nat.mul_le_mul hlong hroom))

section
variable (hE : ∀ e : Failure, e.Regular → E e)
include hE

theorem bool : Codec.bool.FailsWith o E := ⟨Read.keeps_bool, Read.regular_bool.mono hE⟩

theorem i16 : Codec.i16.FailsWith o E := ⟨Read.keeps_i16, Read.regular_i16.mono hE⟩

theorem i32 : Codec.i32.FailsWith o E := ⟨Read.keeps_i32, Read.regular_i32.mono hE⟩

theorem i64 : Codec.i64.FailsWith o E := ⟨Read.keeps_i64, Read.regular_i64.mono hE⟩

theorem binary : Codec.binary.FailsWith o E :=
  ⟨Read.keeps_any Read.keeps_binary, Read.regular_binary.mono hE⟩

theorem string : Codec.string.FailsWith o E :=
  ⟨Read.keeps_any Read.keeps_string, Read.regular_string.mono hE⟩

theorem code [Coded α] : (Codec.code α).FailsWith o E := by
  refine ⟨maintains_bind Read.keeps_i32 fun c _ => Read.keeps_lift fun _ _ => trivial, ?_⟩
  refine fails_bind Read.keeps_i32 (Read.regular_i32.mono hE) fun c _ => Fails.mono ?_ hE
  exact fails_liftExcept fun e he => decodeCode_regular he

variable (hcap : Read.maxListRoom < o.containerLimit * maxRoom → E (.misuse .capacityOverflow))
include hcap

theorem codes [Coded α] : (Codec.codes α).FailsWith o E := by
  constructor
  · refine maintains_bind Read.keeps_listBegin fun h _ => ?_
    refine maintains_bind (Read.keeps_reserve _ _) fun _ _ => ?_
    refine maintains_bind (maintains_times Read.keeps_i32 _) fun cs _ => ?_
    exact Read.keeps_lift fun _ _ => trivial
  · refine fails_bind Read.keeps_listBegin (Read.regular_listBegin.mono hE) fun h hn => ?_
    refine fails_bind (Read.keeps_reserve _ _)
      (fails_listBegin_reserve hcap hn (by decide)) fun _ _ => ?_
    refine fails_bind (maintains_times Read.keeps_i32 _)
      (fails_times Read.keeps_i32 (Read.regular_i32.mono hE) _) fun cs _ => Fails.mono ?_ hE
    exact fails_liftExcept mapM_decodeCode_regular

theorem strings : Codec.strings.FailsWith o E := by
  constructor
  · refine maintains_bind Read.keeps_listBegin fun h _ => ?_
    refine maintains_bind (Read.keeps_reserve _ _) fun _ _ => ?_
    exact Read.keeps_any (maintains_times Read.keeps_string _)
  · refine fails_bind Read.keeps_listBegin (Read.regular_listBegin.mono hE) fun h hn => ?_
    refine fails_bind (Read.keeps_reserve _ _)
      (fails_listBegin_reserve hcap hn (by decide)) fun _ _ => ?_
    exact fails_times Read.keeps_string (Read.regular_string.mono hE) _

theorem records {R : Type} {F : Format R} (hF : (Codec.record F).FailsWith o E) :
    (Codec.records F).FailsWith o E := by
  constructor
  · refine maintains_bind Read.keeps_listBegin fun h _ => ?_
    dsimp only
    split
    · refine maintains_bind (Read.keeps_reserve _ _) fun _ _ => ?_
      exact Read.keeps_any (maintains_times hF.keeps _)
    · exact maintains_fail _
  · refine fails_bind Read.keeps_listBegin (Read.regular_listBegin.mono hE) fun h hn => ?_
    dsimp only
    split
    · refine fails_bind (Read.keeps_reserve _ _)
        (fails_listBegin_reserve hcap hn F.kind.room_le) fun _ _ => ?_
      exact fails_times hF.keeps hF.fails _
    · exact fails_fail (hE _ fun h => h)

end

end Codec.FailsWith

/-! ## records -/

namespace Format

variable {R : Type} {F : Format R}

/-- what every field of a format fails with, its records do -/
theorem failsWith (hE : ∀ e : Failure, e.Regular → E e)
    (hfinish : ∀ d e, F.finish d = .error e → e.Regular) (h : Fields.FailsWith F.fields o E) :
    (Codec.record F).FailsWith o E := by
  have hk : ∀ d t id, Read.Keeps o Any (F.readField d t id) := by
    intro d t id
    unfold readField
    split
    · rename_i f hfind
      have hf := h f (List.mem_of_find?_eq_some hfind)
      exact maintains_bind hf.keeps fun _ _ => maintains_pure trivial
    · exact maintains_bind (Read.keeps_skip t) fun _ _ => maintains_pure trivial
  have hx : ∀ d t id, Fails (fun r : Reader => r.Obeys o) E (F.readField d t id) := by
    intro d t id
    unfold readField
    split
    · rename_i f hfind
      have hf := h f (List.mem_of_find?_eq_some hfind)
      exact fails_bind hf.keeps hf.fails fun _ _ => fails_pure _
    · exact fails_bind (Read.keeps_skip t) ((Read.regular_skip t).mono hE) fun _ _ => fails_pure _
  have hstruct : Read.Keeps o Any (Read.foldStruct F.readField F.blank) :=
    Read.keeps_foldStruct trivial fun d t id _ => hk d t id
  constructor
  · exact maintains_bind hstruct fun d _ => Read.keeps_lift fun _ _ => trivial
  · refine fails_bind hstruct (Read.fails_foldStruct hE hk hx _) fun d _ => Fails.mono ?_ hE
    exact fails_liftExcept (hfinish d)

/-- a record that is read on its own -/
theorem decode_error (h : (Codec.record F).FailsWith o E) {bs : Bytes} {e : Failure}
    (he : F.decode o bs = .error e) : ∃ e', E e' ∧ e = e'.within (.decodingRecord F.kind) := by
  have hx := h.fails (.ofCursor (.ofBytes bs) o) ⟨rfl, rfl⟩
  change ∀ e, (F.read (.ofCursor (.ofBytes bs) o)).1 = .error e → E e at hx
  unfold decode at he
  rcases hrun : F.read (.ofCursor (.ofBytes bs) o) with ⟨e' | r, s⟩
  · rw [hrun] at he hx
    cases he
    exact ⟨e', hx e' rfl, rfl⟩
  · rw [hrun] at he
    cases he

end Format

/-! ## the header of a page -/

section
variable (hE : ∀ e : Failure, e.Regular → E e)
include hE

theorem Statistics.failsWith : (Codec.record Statistics.format).FailsWith o E :=
  Format.failsWith hE (fun _ => pure_regular)
    (.cons (.binary hE) (.cons (.binary hE) (.cons (.i64 hE)
      (.cons (.i64 hE) (.cons (.binary hE)
        (.cons (.binary hE) .nil))))))

theorem DataPageHeader.failsWith : (Codec.record DataPageHeader.format).FailsWith o E :=
  Format.failsWith hE
    (fun _ => require_bind_regular fun _ => require_bind_regular fun _ =>
      require_bind_regular fun _ => require_bind_regular fun _ => pure_regular)
    (.cons (.i32 hE) (.cons (.code hE) (.cons (.code hE)
      (.cons (.code hE) (.cons (Statistics.failsWith hE) .nil)))))

theorem DictionaryPageHeader.failsWith :
    (Codec.record DictionaryPageHeader.format).FailsWith o E :=
  Format.failsWith hE (fun _ => require_bind_regular fun _ => require_bind_regular fun _ =>
      pure_regular)
    (.cons (.i32 hE) (.cons (.code hE) (.cons (.bool hE) .nil)))

theorem DataPageHeaderV2.failsWith : (Codec.record DataPageHeaderV2.format).FailsWith o E :=
  Format.failsWith hE
    (fun _ => require_bind_regular fun _ => require_bind_regular fun _ =>
      require_bind_regular fun _ => require_bind_regular fun _ => require_bind_regular fun _ =>
        require_bind_regular fun _ => pure_regular)
    (.cons (.i32 hE) (.cons (.i32 hE) (.cons (.i32 hE) (.cons (.code hE) (.cons (.i32 hE)
      (.cons (.i32 hE) (.cons (.bool hE) (.cons (Statistics.failsWith hE) .nil))))))))

theorem PageHeader.failsWith : (Codec.record PageHeader.format).FailsWith o E :=
  Format.failsWith hE
    (fun _ => require_bind_regular fun _ => require_bind_regular fun _ =>
      require_bind_regular fun _ => pure_regular)
    (.cons (.code hE) (.cons (.i32 hE) (.cons (.i32 hE) (.cons (.i32 hE)
      (.cons (DataPageHeader.failsWith hE) (.cons (DictionaryPageHeader.failsWith hE)
        (.cons (DataPageHeaderV2.failsWith hE) .nil)))))))

/-! ## the metadata of a file -/

theorem KeyValue.failsWith : (Codec.record KeyValue.format).FailsWith o E :=
  Format.failsWith hE (fun _ => require_bind_regular fun _ => pure_regular)
    (.cons (.string hE) (.cons (.string hE) .nil))

theorem SchemaElement.failsWith : (Codec.record SchemaElement.format).FailsWith o E :=
  Format.failsWith hE (fun _ => require_bind_regular fun _ => pure_regular)
    (.cons (.code hE) (.cons (.i32 hE) (.cons (.code hE) (.cons (.string hE) (.cons (.i32 hE)
      (.cons (.i32 hE) (.cons (.i32 hE) (.cons (.i32 hE) (.cons (.i32 hE) .nil)))))))))

variable (hcap : Read.maxListRoom < o.containerLimit * maxRoom → E (.misuse .capacityOverflow))
include hcap

theorem ColumnMetaData.failsWith : (Codec.record ColumnMetaData.format).FailsWith o E :=
  Format.failsWith hE
    (fun _ => require_bind_regular fun _ => require_bind_regular fun _ =>
      require_bind_regular fun _ => require_bind_regular fun _ => require_bind_regular fun _ =>
        require_bind_regular fun _ => require_bind_regular fun _ => require_bind_regular fun _ =>
          pure_regular)
    (.cons (.code hE) (.cons (.codes hE hcap) (.cons (.strings hE hcap) (.cons (.code hE)
      (.cons (.i64 hE) (.cons (.i64 hE) (.cons (.i64 hE)
        (.cons (.records hE hcap (KeyValue.failsWith hE)) (.cons (.i64 hE) (.cons (.i64 hE)
          (.cons (.i64 hE) (.cons (Statistics.failsWith hE) .nil))))))))))))

theorem ColumnChunk.failsWith : (Codec.record ColumnChunk.format).FailsWith o E :=
  Format.failsWith hE (fun _ => require_bind_regular fun _ => pure_regular)
    (.cons (.string hE) (.cons (.i64 hE) (.cons (ColumnMetaData.failsWith hE hcap) .nil)))

theorem RowGroup.failsWith : (Codec.record RowGroup.format).FailsWith o E :=
  Format.failsWith hE
    (fun _ => require_bind_regular fun _ => require_bind_regular fun _ =>
      require_bind_regular fun _ => pure_regular)
    (.cons (.records hE hcap (ColumnChunk.failsWith hE hcap)) (.cons (.i64 hE) (.cons (.i64 hE)
      (.cons (.i64 hE) (.cons (.i64 hE) (.cons (.i16 hE) .nil))))))

theorem FileMetaData.failsWith : (Codec.record FileMetaData.format).FailsWith o E :=
  Format.failsWith hE
    (fun _ => require_bind_regular fun _ => require_bind_regular fun _ =>
      require_bind_regular fun _ => require_bind_regular fun _ => pure_regular)
    (.cons (.i32 hE) (.cons (.records hE hcap (SchemaElement.failsWith hE)) (.cons (.i64 hE)
      (.cons (.records hE hcap (RowGroup.failsWith hE hcap))
        (.cons (.records hE hcap (KeyValue.failsWith hE)) (.cons (.string hE) .nil))))))

end

/-- the header of a page is refused with an error -/
theorem PageHeader.decode_regular {bs : Bytes} {e : Failure}
    (h : PageHeader.format.decode o bs = .error e) : e.Regular := by
  obtain ⟨e', he, rfl⟩ := Format.decode_error (PageHeader.failsWith fun _ he => he) h
  exact he.within _

/-- a failure is an error, or a list that memory cannot hold, where its limit allows that -/
def Failure.Limited (o : Options) (e : Failure) : Prop :=
  ∀ m, e = .misuse m → m = .capacityOverflow ∧ Read.maxListRoom < o.containerLimit * maxRoom

theorem Failure.Regular.limited {e : Failure} (h : e.Regular) : e.Limited o :=
  fun m hm => absurd hm (h.ne_misuse m)

theorem Failure.Limited.within {e : Failure} (h : e.Limited o) (c : Context) :
    (Failure.within c e).Limited o := by
  cases e with
  | error e => exact fun _ hm => nomatch hm
  | misuse m => exact h

/-- the metadata of a file is refused with an error, unless the limit on lists is larger than
memory -/
theorem FileMetaData.decode_limited {bs : Bytes} {e : Failure}
    (h : FileMetaData.format.decode o bs = .error e) : e.Limited o := by
  have hcap : Read.maxListRoom < o.containerLimit * maxRoom →
      (Failure.misuse .capacityOverflow).Limited o := by
    rintro hlt m ⟨⟩
    exact ⟨rfl, hlt⟩
  obtain ⟨e', he, rfl⟩ := Format.decode_error
    (FileMetaData.failsWith (fun _ he => he.limited) hcap) h
  exact he.within _

end Columnar
