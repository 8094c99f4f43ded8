import Columnar.Proofs.Compact.Struct

/-!
# Records are read back

The table of a format is lawful when its fields are apart from each other and together say all
that a record does.  A record of a lawful format is carried as soon as each of its fields is.

* `Format.Lawful F`   the laws of a table;
* `Field.Holds`       what a field holds is carried, one lemma for each kind of payload;
* `Format.carried`    a record of which every payload is carried is carried.
-/

namespace Columnar

open Columnar.Compact

/-- a payload is carried as a field of a struct -/
def Field.Carried {D : Type} (f : Field D) (o : Options) (d : Nat) (x : f.Payload) : Prop :=
  FieldCarried o d f.codec.type f.id (f.codec.write x) f.codec.read x

/-- what the field of a draft holds is carried -/
def Field.Holds {D : Type} (o : Options) (d : Nat) (e : D) (f : Field D) : Prop :=
  ∀ x, f.get e = some x → f.Carried o d x

/-- what the fields of a draft hold is carried -/
def Fields.Hold {D : Type} (o : Options) (d : Nat) (e : D) (fs : List (Field D)) : Prop :=
  ∀ f ∈ fs, f.Holds o d e

namespace Format

variable {R : Type} {F : Format R} {o : Options} {d : Nat}

/-- what the fields of a draft hold, in order -/
def contents (F : Format R) (e : F.Draft) : List ((α : Type) × Option α) :=
  F.fields.map fun f => ⟨f.Payload, f.get e⟩

/-! ## lawful tables -/

structure Lawful (F : Format R) : Prop where
  positive : ∀ f ∈ F.fields, 0 ≤ f.id.toInt
  nodup : (F.fields.map Field.id).Nodup
  blank : F.contents F.blank = F.fields.map fun f => ⟨f.Payload, none⟩
  /-- setting field `i` puts the payload in place `i` and leaves every other place -/
  set : (F.fields.map fun f =>
      (⟨f.Payload, fun e x => F.contents (f.set e x)⟩ :
        (α : Type) × (F.Draft → α → List ((β : Type) × Option β)))) =
    F.fields.zipIdx.map fun (f, i) =>
      ⟨f.Payload, fun e x => (F.contents e).set i ⟨f.Payload, some x⟩⟩
  /-- the fields say all that a draft does -/
  ext : ∀ e e', F.contents e = F.contents e' → e = e'
  finish_draft : ∀ r, F.finish (F.draft r) = .ok r
  draft_finish : ∀ e r, F.finish e = .ok r → F.draft r = e

theorem getElem?_contents (e : F.Draft) (i : Nat) :
    (F.contents e)[i]? = F.fields[i]?.map fun f => ⟨f.Payload, f.get e⟩ :=
  List.getElem?_map

/-- a place holds one payload -/
theorem mk_injective {α : Type} {x y : Option α}
    (h : some (⟨α, x⟩ : (β : Type) × Option β) = some ⟨α, y⟩) : x = y := by
  cases h
  rfl

theorem Lawful.get_blank (L : F.Lawful) : ∀ f ∈ F.fields, f.get F.blank = none := by
  intro f hf
  obtain ⟨i, hi⟩ := List.getElem?_of_mem hf
  have h := congrArg (·[i]?) L.blank
  rw [getElem?_contents, List.getElem?_map, hi] at h
  exact mk_injective h

theorem Lawful.contents_set (L : F.Lawful) {f : Field F.Draft} {i : Nat}
    (hi : F.fields[i]? = some f) (e : F.Draft) (x : f.Payload) :
    F.contents (f.set e x) = (F.contents e).set i ⟨f.Payload, some x⟩ := by
  have h := congrArg (·[i]?) L.set
  dsimp only at h
  rw [List.getElem?_map, List.getElem?_map, List.getElem?_zipIdx, hi] at h
  have h' := eq_of_heq (Sigma.mk.inj (Option.some.inj h)).2
  rw [Nat.zero_add] at h'
  exact congrFun (congrFun h' e) x

theorem Lawful.get_set (L : F.Lawful) : ∀ f ∈ F.fields, ∀ e x, f.get (f.set e x) = some x := by
  intro f hf e x
  obtain ⟨i, hi⟩ := List.getElem?_of_mem hf
  have h := getElem?_contents (f.set e x) i
  have hlt : i < (F.contents e).length := by
    rw [contents, List.length_map]
    exact (List.getElem?_eq_some_iff.mp hi).1
  rw [L.contents_set hi, List.getElem?_set_self hlt, hi] at h
  exact (mk_injective h).symm

theorem Lawful.get_set_ne (L : F.Lawful) {f g : Field F.Draft} {i j : Nat} (hij : i ≠ j)
    (hi : F.fields[i]? = some f) (hj : F.fields[j]? = some g) (e : F.Draft) (x : f.Payload) :
    g.get (f.set e x) = g.get e := by
  have h := getElem?_contents (f.set e x) j
  rw [L.contents_set hi, List.getElem?_set_ne hij, getElem?_contents, hj] at h
  exact (mk_injective h).symm

/-- fields have numbers of their own, and setting one leaves the others -/
theorem Lawful.apart (L : F.Lawful) : F.fields.Pairwise fun f g => f.id ≠ g.id ∧
    (∀ e x, g.get (f.set e x) = g.get e) ∧ ∀ e x, f.get (g.set e x) = f.get e := by
  apply List.pairwise_iff_getElem.mpr
  intro i j hi hj hlt
  have hi' := List.getElem?_eq_getElem hi
  have hj' := List.getElem?_eq_getElem hj
  have hids := List.pairwise_map.mp L.nodup
  exact ⟨List.pairwise_iff_getElem.mp hids i j hi hj hlt,
    L.get_set_ne (Nat.ne_of_lt hlt) hi' hj', L.get_set_ne (Nat.ne_of_gt hlt) hj' hi'⟩

/-! ## one field -/

/-- a field is found again by its number and type -/
theorem Lawful.find_eq (L : F.Lawful) {f : Field F.Draft} (hf : f ∈ F.fields) :
    (F.fields.find? fun g => g.id == f.id && g.codec.type == f.codec.type) = some f := by
  obtain ⟨before, behind, e⟩ := List.append_of_mem hf
  have h := L.apart
  rw [e] at h ⊢
  obtain ⟨_, _, hb⟩ := List.pairwise_append.mp h
  have hnone : before.find? (fun g => g.id == f.id && g.codec.type == f.codec.type) = none := by
    refine List.find?_eq_none.mpr fun g hg hp => ?_
    have hid : g.id = f.id := by
      rw [Bool.and_eq_true, beq_iff_eq] at hp
      exact hp.1
    exact (hb g hg f List.mem_cons_self).1 hid
  rw [List.find?_append, hnone, List.find?_cons_of_pos (by simp)]
  rfl

theorem readField_ok (L : F.Lawful) {f : Field F.Draft} (hf : f ∈ F.fields) {e : F.Draft}
    {x : f.Payload} {r s : Reader} (h : f.codec.read r = (.ok x, s)) :
    F.readField e f.codec.type f.id r = (.ok (f.set e x), s) := by
  rw [readField, L.find_eq hf]
  exact Step.bind_ok h _

/-! ## all fields -/

/-- a draft under construction: it has the fields before a place, and none behind -/
structure Reached (target e : F.Draft) (done todo : List (Field F.Draft)) : Prop where
  done : ∀ f ∈ done, f.get e = f.get target
  todo : ∀ f ∈ todo, f.get e = none

theorem Reached.skip {target e : F.Draft} {f : Field F.Draft} {done todo : List (Field F.Draft)}
    (h : Reached target e done (f :: todo)) (hf : f.get target = none) :
    Reached target e (done ++ [f]) todo := by
  refine ⟨fun g hg => ?_, fun g hg => h.todo g (List.mem_cons_of_mem _ hg)⟩
  rcases List.mem_append.mp hg with hg | hg
  · exact h.done g hg
  · rw [List.mem_singleton.mp hg, hf]
    exact h.todo f List.mem_cons_self

theorem Reached.set (L : F.Lawful) {target e : F.Draft} {f : Field F.Draft} {x : f.Payload}
    {done todo : List (Field F.Draft)} (hfields : F.fields = done ++ f :: todo)
    (h : Reached target e done (f :: todo)) (hf : f.get target = some x) :
    Reached target (f.set e x) (done ++ [f]) todo := by
  have hmem : f ∈ F.fields := by
    rw [hfields]
    exact List.mem_append_right _ List.mem_cons_self
  have hp := L.apart
  rw [hfields] at hp
  obtain ⟨_, hcons, hbefore⟩ := List.pairwise_append.mp hp
  refine ⟨fun g hg => ?_, fun g hg => ?_⟩
  · rcases List.mem_append.mp hg with hg | hg
    · rw [(hbefore g hg f List.mem_cons_self).2.2]
      exact h.done g hg
    · rw [List.mem_singleton.mp hg, hf]
      exact L.get_set f hmem e x
  · rw [((List.pairwise_cons.mp hcons).1 g hg).2.1]
    exact h.todo g (List.mem_cons_of_mem _ hg)

/-- the fields behind a place are written, and read into a draft that has those before it -/
theorem carried_fields (L : F.Lawful) {target : F.Draft}
    (hcarried : Fields.Hold o d target F.fields)
    (todo : List (Field F.Draft)) : ∀ (done : List (Field F.Draft)) (i : Int16),
      F.fields = done ++ todo → 0 ≤ i.toInt → ∃ s j,
        Write.Emits d i j (Write.total (todo.map (F.writeField target))) s s.length ∧
        ∀ e fuel, Reached target e done todo → s.length < fuel →
          Read.Takes o d i j (Read.foldFields F.readField fuel e) (s ++ [0]) target := by
  induction todo with
  | nil =>
    intro done i hfields _
    refine ⟨[], i, Write.emits_pure 0, fun e fuel he hfuel => ?_⟩
    have heq : e = target := by
      refine L.ext e target (List.map_congr_left fun f hf => ?_)
      rw [hfields, List.append_nil] at hf
      rw [he.done f hf]
    obtain ⟨fuel, rfl⟩ : ∃ n, fuel = n + 1 := ⟨fuel - 1, by omega⟩
    rw [heq]
    exact Read.takes_bind_pure takes_stop (Read.takes_pure target)
  | cons f todo ih =>
    intro done i hfields hi
    have hmem : f ∈ F.fields := by
      rw [hfields]
      exact List.mem_append_right _ List.mem_cons_self
    have hfields' : F.fields = (done ++ [f]) ++ todo := by
      rw [hfields, List.append_assoc, List.singleton_append]
    cases hx : f.get target with
    | none =>
      obtain ⟨s, j, hw, hr⟩ := ih (done ++ [f]) i hfields' hi
      refine ⟨s, j, ?_, fun e fuel he => hr e fuel (he.skip hx)⟩
      have hnone : Write.Emits d i i (F.writeField target f) [] ([] : Bytes).length := by
        rw [writeField, hx]
        exact Write.emits_pure 0
      exact Write.emits_add hnone hw
    | some x =>
      obtain ⟨s, hne, hws, hrs⟩ := hcarried f hmem x hx i hi
      obtain ⟨t, j, hwt, hrt⟩ := ih (done ++ [f]) f.id hfields' (L.positive f hmem)
      refine ⟨s ++ t, j, Write.emits_add ?_ hwt, fun e fuel he hfuel => ?_⟩
      · rw [writeField, hx]
        exact hws
      · have hs : 0 < s.length := List.length_pos_iff.mpr hne
        rw [List.length_append] at hfuel
        obtain ⟨fuel, rfl⟩ : ∃ n, fuel = n + 1 := ⟨fuel - 1, by omega⟩
        intro r before rest hat hc
        rw [List.append_assoc, List.append_assoc] at hc
        obtain ⟨r', hbegin, hread⟩ := hrs r before _ hat hc
        rw [Read.foldFields, Step.bind_ok hbegin]
        dsimp only
        rw [Step.bind_ok (readField_ok L hmem hread)]
        have h := hrt (f.set e x) fuel (he.set L hfields hx) (by omega)
          { r with cursor := ⟨s.reverse ++ before, t ++ ([0] ++ rest)⟩, lastField := f.id }
          (s.reverse ++ before) rest ⟨⟨hat.limits.1, hat.limits.2⟩, rfl, hat.pending, hat.depth⟩
          (by rw [List.append_assoc])
        rw [h]
        simp only [List.reverse_append, List.append_assoc]

/-- a record is carried as soon as all its payloads are -/
theorem carried (L : F.Lawful) {r : R} (h : Fields.Hold o d (F.draft r) F.fields) :
    Compact.Carried o (d + 1) (F.write r) F.read r := by
  obtain ⟨s, j, hw, hr⟩ := carried_fields L h F.fields [] 0 rfl (by decide)
  refine ⟨s ++ [0], fun i => ⟨emits_struct hw, ?_⟩⟩
  have hblank : Reached (F.draft r) F.blank [] F.fields := ⟨List.forall_mem_nil _, L.get_blank⟩
  refine Read.takes_bind_pure (takes_struct fun fuel hfuel => hr _ fuel hblank ?_)
    (Read.takes_lift (L.finish_draft r))
  rw [List.length_append] at hfuel
  omega

end Format

/-! ## one lemma for each kind of payload -/

namespace Fields.Hold

variable {D : Type} {o : Options} {d : Nat} {e : D}

theorem nil : Hold o d e [] := List.forall_mem_nil _

theorem cons {f : Field D} {fs : List (Field D)} (h : f.Holds o d e) (h' : Hold o d e fs) :
    Hold o d e (f :: fs) := List.forall_mem_cons.mpr ⟨h, h'⟩

end Fields.Hold

namespace Field.Holds

variable {D : Type} {o : Options} {d : Nat} {e : D} {id : Int16}

theorem of_codec {f : Field D} (hb : f.codec.type ≠ .bool) (ht : f.codec.type ≠ .stop)
    (h : ∀ x ∈ f.get e, Compact.Carried o d (f.codec.write x) f.codec.read x) : f.Holds o d e :=
  fun x hx => fieldCarried_of_carried hb ht (h x hx)

theorem bool {get : D → Option Bool} {set : D → Bool → D} :
    Holds o d e { id, codec := .bool, get, set } := fun b _ => fieldCarried_bool b

theorem i16 {get : D → Option Int16} {set : D → Int16 → D} :
    Holds o d e { id, codec := .i16, get, set } :=
  of_codec nofun nofun fun n _ => carried_i16 n

theorem i32 {get : D → Option Int32} {set : D → Int32 → D} :
    Holds o d e { id, codec := .i32, get, set } :=
  of_codec nofun nofun fun n _ => carried_i32 n

theorem i64 {get : D → Option Int64} {set : D → Int64 → D} :
    Holds o d e { id, codec := .i64, get, set } :=
  of_codec nofun nofun fun n _ => carried_i64 n

theorem binary {get : D → Option Bytes} {set : D → Bytes → D}
    (h : ∀ bs ∈ get e, Fits o bs.length) : Holds o d e { id, codec := .binary, get, set } :=
  of_codec nofun nofun fun bs hbs => carried_binary (h bs hbs)

theorem string {get : D → Option String} {set : D → String → D}
    (h : ∀ t ∈ get e, Fits o (Utf8.encode t).length) :
    Holds o d e { id, codec := .string, get, set } :=
  of_codec nofun nofun fun t ht => carried_string (h t ht)

theorem code {α : Type} [Coded α] [LawfulCoded α] {get : D → Option α} {set : D → α → D} :
    Holds o d e { id, codec := .code α, get, set } :=
  of_codec nofun nofun fun x _ => carried_code x

theorem codes {α : Type} [Coded α] [LawfulCoded α] {get : D → Option (List α)}
    {set : D → List α → D} (h : ∀ xs ∈ get e, FitsList o xs.length Codec.codeRoom) :
    Holds o d e { id, codec := .codes α, get, set } :=
  of_codec nofun nofun fun xs hxs => carried_codes (h xs hxs)

theorem strings {get : D → Option (List String)} {set : D → List String → D}
    (h : ∀ xs ∈ get e, FitsList o xs.length Codec.textRoom ∧
      ∀ t ∈ xs, Fits o (Utf8.encode t).length) :
    Holds o d e { id, codec := .strings, get, set } :=
  of_codec nofun nofun fun xs hxs => carried_strings (h xs hxs).1 (h xs hxs).2

theorem record {R : Type} {F : Format R} {get : D → Option R} {set : D → R → D}
    (h : ∀ r ∈ get e, Compact.Carried o d (F.write r) F.read r) :
    Holds o d e { id, codec := .record F, get, set } := of_codec nofun nofun h

theorem records {R : Type} {F : Format R} {get : D → Option (List R)} {set : D → List R → D}
    (hroom : 0 < F.kind.room)
    (h : ∀ rs ∈ get e, FitsList o rs.length F.kind.room ∧
      ∀ r ∈ rs, Compact.Carried o d (F.write r) F.read r) :
    Holds o d e { id, codec := .records F, get, set } :=
  of_codec nofun nofun fun rs hrs => carried_records hroom (h rs hrs).1 (h rs hrs).2

end Field.Holds

end Columnar
