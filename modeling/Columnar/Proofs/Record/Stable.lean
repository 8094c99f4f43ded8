import Columnar.Proofs.Compact.Limits
import Columnar.Proofs.Record.Format

/-!
# What is read can be written and read again

A codec is stable when whatever it reads is carried: it may be written and read under the same
limits.  Lists may be read that are not within the limit, but only short ones, and those stay
short.

* `Codec.Stable c o d`    what `c` reads under the limits of `o` is carried;
* `Format.keeps_fields`   what holds of every payload that is read holds of those in a record;
* `Format.stable`         a format of stable codecs is stable.
-/

namespace Columnar

open Columnar.Compact Step

variable {o : Options} {d : Nat}

/-- whatever `c` reads is carried -/
def Codec.Stable {α : Type} (c : Codec α) (o : Options) (d : Nat) : Prop :=
  Read.Keeps o (fun x => Carried o d (c.write x) c.read x) c.read

/-- whatever is read as the payload of a field is carried as that field -/
def Field.Stable {D : Type} (o : Options) (d : Nat) (f : Field D) : Prop :=
  Read.Keeps o (f.Carried o d) f.codec.read

/-- whatever is read as the payload of one of the fields is carried -/
def Fields.Stable {D : Type} (o : Options) (d : Nat) (fs : List (Field D)) : Prop :=
  ∀ f ∈ fs, f.Stable o d

namespace Codec

theorem stable_i16 : Codec.i16.Stable o d := Read.keeps_i16.mono fun n _ => carried_i16 n

theorem stable_i32 : Codec.i32.Stable o d := Read.keeps_i32.mono fun n _ => carried_i32 n

theorem stable_i64 : Codec.i64.Stable o d := Read.keeps_i64.mono fun n _ => carried_i64 n

theorem stable_binary : Codec.binary.Stable o d :=
  Read.keeps_binary.mono fun _ h => carried_binary h

theorem stable_string : Codec.string.Stable o d :=
  Read.keeps_string.mono fun _ h => carried_string h

theorem stable_code {α : Type} [Coded α] [LawfulCoded α] : (Codec.code α).Stable o d :=
  maintains_bind Read.keeps_i32 fun _ _ => Read.keeps_lift fun x _ => carried_code x

/-- as many members as numbers -/
theorem length_of_mapM {α β ε : Type} {f : α → Except ε β} {as : List α} {bs : List β}
    (h : as.mapM f = .ok bs) : bs.length = as.length := by
  induction as generalizing bs with
  | nil =>
    cases h
    rfl
  | cons a as ih =>
    rw [List.mapM_cons] at h
    cases ha : f a with
    | error e =>
      rw [ha] at h
      cases h
    | ok b =>
      cases hm : as.mapM f with
      | error e =>
        rw [ha, hm] at h
        cases h
      | ok cs =>
        rw [ha, hm] at h
        cases h
        exact congrArg Nat.succ (ih hm)

/-! ## lists -/

theorem keeps_codes {α : Type} [Coded α] :
    Read.Keeps o (fun xs => FitsList o xs.length codeRoom) (codes α).read := by
  apply maintains_bind Read.keeps_listBegin
  intro h hn
  apply maintains_bind (Read.keeps_reserve _ _)
  intro _ hroom
  apply maintains_bind (maintains_times Read.keeps_i32 _)
  intro cs hcs
  refine Read.keeps_lift fun xs hxs => ?_
  rw [length_of_mapM hxs, hcs.1]
  exact ⟨hn, hroom⟩

theorem keeps_strings :
    Read.Keeps o (fun ts => FitsList o ts.length textRoom ∧
      ∀ t ∈ ts, Fits o (Utf8.encode t).length) strings.read := by
  apply maintains_bind Read.keeps_listBegin
  intro h hn
  apply maintains_bind (Read.keeps_reserve _ _)
  intro _ hroom
  apply (maintains_times Read.keeps_string _).mono
  intro ts hts
  rw [hts.1]
  exact ⟨⟨hn, hroom⟩, hts.2⟩

/-- what holds of every record that is read holds of those in a list -/
theorem keeps_records {R : Type} {F : Format R} {P : R → Prop} (hF : Read.Keeps o P F.read) :
    Read.Keeps o (fun rs => FitsList o rs.length F.kind.room ∧ ∀ r ∈ rs, P r)
      (records F).read := by
  apply maintains_bind Read.keeps_listBegin
  intro h hn
  dsimp only
  split
  · apply maintains_bind (Read.keeps_reserve _ _)
    intro _ hroom
    apply (maintains_times hF _).mono
    intro rs hrs
    rw [hrs.1]
    exact ⟨⟨hn, hroom⟩, hrs.2⟩
  · exact maintains_fail _

theorem stable_codes {α : Type} [Coded α] [LawfulCoded α] : (Codec.codes α).Stable o d :=
  keeps_codes.mono fun _ h => carried_codes h

theorem stable_strings : Codec.strings.Stable o d :=
  keeps_strings.mono fun _ h => carried_strings h.1 h.2

theorem stable_records {R : Type} {F : Format R} (hroom : 0 < F.kind.room)
    (hF : (Codec.record F).Stable o d) : (Codec.records F).Stable o d :=
  (keeps_records hF).mono fun _ h => carried_records hroom h.1 h.2

end Codec

namespace Format

variable {R : Type} {F : Format R}

/-- setting a field leaves every other one -/
theorem Lawful.get_other (L : F.Lawful) {f g : Field F.Draft} (hf : f ∈ F.fields)
    (hg : g ∈ F.fields) : g = f ∨ ∀ e x, g.get (f.set e x) = g.get e := by
  obtain ⟨before, behind, e⟩ := List.append_of_mem hf
  have hp := L.apart
  rw [e] at hp hg
  obtain ⟨_, hcons, hbefore⟩ := List.pairwise_append.mp hp
  rcases List.mem_append.mp hg with hg | hg
  · exact Or.inr (hbefore g hg f List.mem_cons_self).2.2
  · rcases List.mem_cons.mp hg with hg | hg
    · exact Or.inl hg
    · exact Or.inr ((List.pairwise_cons.mp hcons).1 g hg).2.1

/-- what holds of every payload that is read for a field holds of the fields of a record -/
theorem keeps_fields (L : F.Lawful) {P : (f : Field F.Draft) → f.Payload → Prop}
    (h : ∀ f ∈ F.fields, Read.Keeps o (P f) f.codec.read) :
    Read.Keeps o (fun r => ∀ f ∈ F.fields, ∀ x, f.get (F.draft r) = some x → P f x) F.read := by
  let Q (e : F.Draft) : Prop := ∀ f ∈ F.fields, ∀ x, f.get e = some x → P f x
  have hblank : Q F.blank := by
    intro f hf x hx
    rw [L.get_blank f hf] at hx
    cases hx
  have hset : ∀ e f, f ∈ F.fields → Q e → ∀ x, P f x → Q (f.set e x) := by
    intro e f hf he x hx g hg y hy
    rcases L.get_other hf hg with rfl | hother
    · rw [L.get_set g hf] at hy
      cases hy
      exact hx
    · rw [hother] at hy
      exact he g hg y hy
  have hfield : ∀ e t id, Q e → Read.Keeps o Q (F.readField e t id) := by
    intro e t id he
    unfold readField
    split
    · rename_i f hfind
      have hf := List.mem_of_find?_eq_some hfind
      exact maintains_bind (h f hf) fun x hx => maintains_pure (hset e f hf he x hx)
    · exact maintains_bind (Read.keeps_skip t) fun _ _ => maintains_pure he
  apply maintains_bind (Read.keeps_foldStruct hblank hfield)
  intro e he
  refine Read.keeps_lift fun r hr => ?_
  rw [L.draft_finish e r hr]
  exact he

/-- a format of which every field is stable is stable -/
theorem stable (L : F.Lawful) (h : Fields.Stable o d F.fields) :
    (Codec.record F).Stable o (d + 1) :=
  (keeps_fields L h).mono fun _ hr => carried L hr

end Format

/-! ## one lemma for each kind of payload -/

namespace Fields.Stable

variable {D : Type}

theorem nil : Stable o d ([] : List (Field D)) := List.forall_mem_nil _

theorem cons {f : Field D} {fs : List (Field D)} (h : f.Stable o d) (h' : Stable o d fs) :
    Stable o d (f :: fs) := List.forall_mem_cons.mpr ⟨h, h'⟩

end Fields.Stable

namespace Field.Stable

variable {D : Type} {id : Int16}

theorem of_codec {f : Field D} (hb : f.codec.type ≠ .bool) (ht : f.codec.type ≠ .stop)
    (h : f.codec.Stable o d) : f.Stable o d :=
  h.mono fun _ hx => fieldCarried_of_carried hb ht hx

theorem bool {get : D → Option Bool} {set : D → Bool → D} :
    Stable o d { id, codec := .bool, get, set } :=
  Read.keeps_bool.mono fun b _ => fieldCarried_bool b

theorem i16 {get : D → Option Int16} {set : D → Int16 → D} :
    Stable o d { id, codec := .i16, get, set } := of_codec nofun nofun Codec.stable_i16

theorem i32 {get : D → Option Int32} {set : D → Int32 → D} :
    Stable o d { id, codec := .i32, get, set } := of_codec nofun nofun Codec.stable_i32

theorem i64 {get : D → Option Int64} {set : D → Int64 → D} :
    Stable o d { id, codec := .i64, get, set } := of_codec nofun nofun Codec.stable_i64

theorem binary {get : D → Option Bytes} {set : D → Bytes → D} :
    Stable o d { id, codec := .binary, get, set } := of_codec nofun nofun Codec.stable_binary

theorem string {get : D → Option String} {set : D → String → D} :
    Stable o d { id, codec := .string, get, set } := of_codec nofun nofun Codec.stable_string

theorem code {α : Type} [Coded α] [LawfulCoded α] {get : D → Option α} {set : D → α → D} :
    Stable o d { id, codec := .code α, get, set } := of_codec nofun nofun Codec.stable_code

theorem codes {α : Type} [Coded α] [LawfulCoded α] {get : D → Option (List α)}
    {set : D → List α → D} : Stable o d { id, codec := .codes α, get, set } :=
  of_codec nofun nofun Codec.stable_codes

theorem strings {get : D → Option (List String)} {set : D → List String → D} :
    Stable o d { id, codec := .strings, get, set } := of_codec nofun nofun Codec.stable_strings

theorem record {R : Type} {F : Format R} {get : D → Option R} {set : D → R → D}
    (h : (Codec.record F).Stable o d) : Stable o d { id, codec := .record F, get, set } :=
  of_codec nofun nofun h

theorem records {R : Type} {F : Format R} {get : D → Option (List R)} {set : D → List R → D}
    (hroom : 0 < F.kind.room) (h : (Codec.record F).Stable o d) :
    Stable o d { id, codec := .records F, get, set } :=
  of_codec nofun nofun (Codec.stable_records hroom h)

end Field.Stable

end Columnar
