import Columnar.Proofs.Record.Spelled

/-!
# Records from fields in any order

A record is read from the last field of each number and type that its table has.  The fields may
come in any order and more than once, and there may be others between them: these are skipped, and
nothing of the record depends on them.

* `lastOf t id items`        the last of the fields with a number and a type;
* `Item.Valid`               a field of the table says something, any other may be skipped;
* `Format.Assembled`         a draft holds what the last fields say;
* `RecordKind.required`      the fields that a record cannot do without, in the order in which they
                             are asked for;
* `RecordKind.decode_body`   the record that a body is read as, or what it lacks.
-/

namespace Columnar

open Columnar.Compact

/-! ## bodies -/

/-- the last field of a number and type -/
def lastOf (t : WireType) (id : Int16) (items : List Item) : Option Item :=
  (items.filter fun it => it.id == id && it.type == t).getLast?

section
variable {t : WireType} {id : Int16} {items : List Item} {it : Item}

theorem lastOf_nil : lastOf t id [] = none := rfl

theorem lastOf_snoc (h : it.id = id ∧ it.type = t) : lastOf t id (items ++ [it]) = some it := by
  have hp : (it.id == id && it.type == t) = true := by
    rw [h.1, h.2, beq_self_eq_true, beq_self_eq_true]
    rfl
  rw [lastOf, List.filter_append, List.filter_cons, if_pos hp]
  exact List.getLast?_concat

theorem lastOf_snoc_other (h : ¬ (it.id = id ∧ it.type = t)) :
    lastOf t id (items ++ [it]) = lastOf t id items := by
  have hp : ¬ (it.id == id && it.type == t) = true := by
    rw [Bool.and_eq_true, beq_iff_eq, beq_iff_eq]
    exact h
  rw [lastOf, List.filter_append, List.filter_cons, if_neg hp, List.filter_nil, List.append_nil]
  rfl

end

theorem rel_unique {α β : Type} {P : α → β → Prop} (hP : ∀ a b c, P a b → P a c → b = c)
    {x : Option α} {y z : Option β} (h : Option.Rel P x y) (h' : Option.Rel P x z) : y = z := by
  cases h with
  | none =>
    cases h'
    rfl
  | some h =>
    cases h' with
    | some h' => rw [hP _ _ _ h h']

variable {R : Type} {F : Format R} {o : Options} {d : Nat} {items : List Item}

/-- a field of the table holds a payload, and any other holds a value that may be skipped -/
structure Compact.Item.Valid (it : Item) (F : Format R) (o : Options) (d : Nat) : Prop where
  known : ∀ f, F.known it.type it.id = some f → ∃ x, f.codec.Spells o d it.code it.payload x
  other : F.known it.type it.id = none →
    if it.type = .bool then it.payload = []
    else Spelled o d maxSkipDepth it.type it.payload

namespace Format

/-- every field of a draft holds what the last field of its number and type says -/
def Assembled (F : Format R) (o : Options) (d : Nat) (items : List Item) (e : F.Draft) : Prop :=
  ∀ f ∈ F.fields, Option.Rel (fun it x => f.codec.Spells o d it.code it.payload x)
    (lastOf f.codec.type f.id items) (f.get e)

theorem Lawful.known_eq (L : F.Lawful) {f : Field F.Draft} (hf : f ∈ F.fields) :
    F.known f.codec.type f.id = some f := L.find_eq hf

theorem Lawful.assembled_blank (L : F.Lawful) : F.Assembled o d [] F.blank := by
  intro f hf
  rw [lastOf_nil, L.get_blank f hf]
  exact .none

/-- one more field, read into a draft or skipped -/
theorem Lawful.assembled_snoc (L : F.Lawful) {it : Item} {e : F.Draft} (hit : it.Valid F o d)
    (he : F.Assembled o d items e) : ∃ e', F.Assembled o d (items ++ [it]) e' ∧
      TakesPayload o d it.type it.code (F.readField e it.type it.id) it.payload e' := by
  rcases hknown : F.known it.type it.id with _ | f
  · have hother := hit.other hknown
    refine ⟨e, fun g hg => ?_, ?_⟩
    · rw [lastOf_snoc_other]
      · exact he g hg
      · rintro ⟨hid, ht⟩
        rw [hid, ht, L.known_eq hg] at hknown
        cases hknown
    · rw [readField_other hknown]
      refine TakesPayload.bind (a := ()) ?_ fun i => Read.takes_pure e
      by_cases ht : it.type = .bool
      · rw [if_pos ht] at hother
        rw [ht, hother]
        exact takesPayload_bool.bind fun i => Read.takes_pure ()
      · rw [if_neg ht] at hother
        exact takesPayload_of_takes ht (takes_skip hother)
  · obtain ⟨x, hx⟩ := hit.known f hknown
    obtain ⟨hf, hid, ht⟩ := known_eq_some hknown
    refine ⟨f.set e x, fun g hg => ?_, ?_⟩
    · by_cases hmatch : it.id = g.id ∧ it.type = g.codec.type
      · rw [hmatch.1, hmatch.2, L.known_eq hg] at hknown
        cases hknown
        rw [lastOf_snoc hmatch, L.get_set f hf]
        exact .some hx
      · rw [lastOf_snoc_other hmatch]
        rcases L.get_other hf hg with rfl | hsame
        · exact absurd ⟨hid.symm, ht.symm⟩ hmatch
        · rw [hsame]
          exact he g hg
    · rw [readField_known hknown, ← ht]
      exact hx.takes.bind fun i => Read.takes_pure _

/-- what fields say they say once -/
theorem Lawful.assembled_unique (L : F.Lawful) (hd : d ≤ maxStructDepth) {e e' : F.Draft}
    (he : F.Assembled o d items e) (he' : F.Assembled o d items e') : e = e' := by
  refine L.ext e e' (List.map_congr_left fun f hf => ?_)
  have heq : f.get e = f.get e' :=
    rel_unique (fun _ _ _ hx hy => hx.unique hd hy) (he f hf) (he' f hf)
  rw [heq]

/-- a body is read as the draft that its last fields make -/
theorem Lawful.takes_body (L : F.Lawful) {stop : UInt8} (hchain : Chained 0 items)
    (hitems : ∀ it ∈ items, it.Valid F o d) (hstop : stop &&& 0x0F = 0) :
    ∃ e, F.Assembled o d items e ∧ ∀ i, Read.Takes o (d + 1) i i
      (Read.foldStruct F.readField F.blank) (body items stop) e := by
  obtain ⟨e, j, he, htakes⟩ := takes_items (f := F.readField) (R := F.Assembled o d) hstop items
    [] 0 F.blank (fun it hit done e he => L.assembled_snoc (hitems it hit) he) hchain
    L.assembled_blank
  exact ⟨e, he, fun i => takes_struct htakes⟩

end Format

/-! ## what a record cannot do without -/

/-- the fields that a record cannot do without, in the order in which they are asked for -/
def RecordKind.required : RecordKind → List (Int16 × WireType × String)
  | fileMetaData => [(1, .i32, "version"), (2, .list, "schema"), (3, .i64, "num_rows"),
      (4, .list, "row_groups")]
  | schemaElement => [(4, .binary, "name")]
  | rowGroup => [(1, .list, "columns"), (2, .i64, "total_byte_size"), (3, .i64, "num_rows")]
  | columnChunk => [(2, .i64, "file_offset")]
  | columnMetaData => [(1, .i32, "type"), (2, .list, "encodings"), (3, .list, "path_in_schema"),
      (4, .i32, "codec"), (5, .i64, "num_values"), (6, .i64, "total_uncompressed_size"),
      (7, .i64, "total_compressed_size"), (9, .i64, "data_page_offset")]
  | keyValue => [(1, .binary, "key")]
  | statistics => []
  | pageHeader => [(1, .i32, "type"), (2, .i32, "uncompressed_page_size"),
      (3, .i32, "compressed_page_size")]
  | dataPageHeader => [(1, .i32, "num_values"), (2, .i32, "encoding"),
      (3, .i32, "definition_level_encoding"), (4, .i32, "repetition_level_encoding")]
  | dataPageHeaderV2 => [(1, .i32, "num_values"), (2, .i32, "num_nulls"), (3, .i32, "num_rows"),
      (4, .i32, "encoding"), (5, .i32, "definition_levels_byte_length"),
      (6, .i32, "repetition_levels_byte_length")]
  | dictionaryPageHeader => [(1, .i32, "num_values"), (2, .i32, "encoding")]

/-- the name of the first field that a record cannot do without and that no item is -/
def RecordKind.missing (kind : RecordKind) (items : List Item) : Option String :=
  (kind.required.find? fun q => !(lastOf q.2.1 q.1 items).isSome).map fun q => q.2.2

/-- the first of `qs` that is not there is what `x` fails for -/
structure Requires (kind : RecordKind) (qs : List (Bool × String)) (x : Except Error R) : Prop where
  ok : (qs.find? fun q => !q.1) = none → ∃ r, x = .ok r
  error : ∀ q, (qs.find? fun q => !q.1) = some q → x = .error (Fault.missingField kind q.2)

namespace Requires

variable {kind : RecordKind} {qs : List (Bool × String)}

theorem nil {r : R} : Requires kind [] (pure r : Except Error R) := ⟨fun _ => ⟨r, rfl⟩, nofun⟩

theorem cons {α : Type} {x : Option α} {name : String} {f : α → Except Error R}
    (h : ∀ a, Requires kind qs (f a)) :
    Requires kind ((x.isSome, name) :: qs) (require kind name x >>= f) := by
  cases x with
  | none =>
    refine ⟨nofun, ?_⟩
    rintro _ ⟨⟩
    rfl
  | some a => exact ⟨(h a).ok, (h a).error⟩

end Requires

/-- a draft has a field of a number and type, and something in it -/
def Format.has (F : Format R) (e : F.Draft) (t : WireType) (id : Int16) : Bool :=
  (F.known t id).any fun f => (f.get e).isSome

/-- what is asked of a draft, in order -/
def Format.asked (F : Format R) (qs : List (Int16 × WireType × String)) (e : F.Draft) :
    List (Bool × String) := qs.map fun q => (F.has e q.2.1 q.1, q.2.2)

/-- every record asks for what it cannot do without, in order -/
theorem RecordKind.requires (kind : RecordKind) (e : kind.format.Draft) :
    Requires kind (kind.format.asked kind.required e) (kind.format.finish e) := by
  cases kind with
  | fileMetaData => exact .cons fun _ => .cons fun _ => .cons fun _ => .cons fun _ => .nil
  | schemaElement => exact .cons fun _ => .nil
  | rowGroup => exact .cons fun _ => .cons fun _ => .cons fun _ => .nil
  | columnChunk => exact .cons fun _ => .nil
  | columnMetaData =>
    exact .cons fun _ => .cons fun _ => .cons fun _ => .cons fun _ => .cons fun _ =>
      .cons fun _ => .cons fun _ => .cons fun _ => .nil
  | keyValue => exact .cons fun _ => .nil
  | statistics => exact .nil
  | pageHeader => exact .cons fun _ => .cons fun _ => .cons fun _ => .nil
  | dataPageHeader => exact .cons fun _ => .cons fun _ => .cons fun _ => .cons fun _ => .nil
  | dataPageHeaderV2 =>
    exact .cons fun _ => .cons fun _ => .cons fun _ => .cons fun _ => .cons fun _ =>
      .cons fun _ => .nil
  | dictionaryPageHeader => exact .cons fun _ => .cons fun _ => .nil

/-- what a record cannot do without is in its table -/
theorem RecordKind.known_required (kind : RecordKind) :
    ∀ q ∈ kind.required, (kind.format.known q.2.1 q.1).isSome := by
  cases kind <;> decide

/-- a draft has what occurs among the items -/
theorem Format.Assembled.has_eq {e : F.Draft} (h : F.Assembled o d items e) {t : WireType}
    {id : Int16} (hknown : (F.known t id).isSome) :
    F.has e t id = (lastOf t id items).isSome := by
  obtain ⟨f, hf⟩ := Option.isSome_iff_exists.mp hknown
  obtain ⟨hmem, rfl, rfl⟩ := known_eq_some hf
  have hrel := h f hmem
  rw [has, hf, Option.any_some]
  generalize f.get e = x at hrel
  generalize lastOf f.codec.type f.id items = last at hrel
  cases hrel with
  | none => rfl
  | some _ => rfl

/-- the record that a draft makes, or the first field that is missing among the items -/
theorem RecordKind.finish_assembled {kind : RecordKind} {e : kind.format.Draft}
    (h : kind.format.Assembled o d items e) :
    (kind.missing items = none → ∃ r, kind.format.finish e = .ok r) ∧
      ∀ name, kind.missing items = some name →
        kind.format.finish e = .error (Fault.missingField kind name) := by
  have hasked : kind.format.asked kind.required e =
      kind.required.map fun q => ((lastOf q.2.1 q.1 items).isSome, q.2.2) := by
    refine List.map_congr_left fun q hq => ?_
    rw [h.has_eq (kind.known_required q hq)]
  have hfind : ((kind.format.asked kind.required e).find? fun q => !q.1) =
      (kind.required.find? fun q => !(lastOf q.2.1 q.1 items).isSome).map
        fun q => ((lastOf q.2.1 q.1 items).isSome, q.2.2) := by
    rw [hasked, List.find?_map]
    rfl
  obtain ⟨hok, herror⟩ := kind.requires e
  rw [hfind] at hok herror
  unfold missing
  rcases hq : kind.required.find? (fun q => !(lastOf q.2.1 q.1 items).isSome) with _ | q
  · rw [hq] at hok ⊢
    exact ⟨fun _ => hok rfl, nofun⟩
  · rw [hq] at herror ⊢
    refine ⟨nofun, ?_⟩
    rintro _ ⟨⟩
    exact herror _ rfl

/-! ## reading a body -/

/-- the answer of a decoder that was read as far as the draft `e` -/
def Format.answer (F : Format R) (e : F.Draft) (n : Nat) : Except Failure (R × Nat) :=
  match F.finish e with
  | .ok r => .ok (r, n)
  | .error err => .error (.error (err.within (.decodingRecord F.kind)))

/-- fields that make up the body of a record, which is a struct itself -/
structure RecordKind.Body (kind : RecordKind) (o : Options) (items : List Item) : Prop where
  chained : Chained 0 items
  valid : ∀ it ∈ items, it.Valid kind.format o (maxStructDepth - 1)

/-- the same payloads stand in the last fields that the table has -/
def RecordKind.SameLast (kind : RecordKind) (items items' : List Item) : Prop :=
  ∀ f ∈ kind.format.fields,
    (lastOf f.codec.type f.id items).map (fun it => (it.code, it.payload)) =
      (lastOf f.codec.type f.id items').map fun it => (it.code, it.payload)

variable {kind : RecordKind}

/-- a body is read to its end, into the draft that its last fields make -/
theorem RecordKind.Body.decode_eq (h : kind.Body o items) {stop : UInt8}
    (hstop : stop &&& 0x0F = 0) (rest : Bytes) :
    ∃ e, kind.format.Assembled o (maxStructDepth - 1) items e ∧
      kind.format.decode o (body items stop ++ rest) =
        kind.format.answer e (body items stop).length := by
  obtain ⟨e, he, htakes⟩ := kind.lawful.takes_body h.chained h.valid hstop
  refine ⟨e, he, ?_⟩
  have hfold := htakes 0 (.ofCursor (.ofBytes (body items stop ++ rest)) o) [] rest
    ⟨⟨rfl, rfl⟩, rfl, rfl, Nat.le_refl _⟩ rfl
  have hread : kind.format.read = Read.foldStruct kind.format.readField kind.format.blank >>=
      fun e => liftM (kind.format.finish e) := rfl
  rw [Format.decode, hread, Step.bind_ok hfold, Format.answer]
  rcases kind.format.finish e with err | r
  · rfl
  · show Except.ok (r, ((body items stop).reverse ++ []).length) = _
    rw [List.append_nil, List.length_reverse]

theorem Format.Assembled.congr {e : kind.format.Draft} {items' : List Item}
    (h : kind.format.Assembled o d items e) (hsame : kind.SameLast items items') :
    kind.format.Assembled o d items' e := by
  intro f hf
  have hrel := h f hf
  have heq := hsame f hf
  generalize lastOf f.codec.type f.id items = last at hrel heq
  generalize lastOf f.codec.type f.id items' = last' at heq ⊢
  generalize f.get e = x at hrel ⊢
  cases hrel with
  | none =>
    rw [Option.map_eq_none_iff.mp heq.symm]
    exact .none
  | some hx =>
    obtain ⟨it', rfl, hit⟩ := Option.map_eq_some_iff.mp heq.symm
    obtain ⟨hcode, hpayload⟩ := Prod.mk.inj hit
    rw [← hcode, ← hpayload] at hx
    exact .some hx

/-- a body is read as the record that the last fields of its table make, to its end, or refused
for the first field that it cannot do without and that never occurs; nothing else in it has a part
in the record -/
theorem RecordKind.decode_body (kind : RecordKind) {items : List Item} (h : kind.Body o items)
    {stop : UInt8} (hstop : stop &&& 0x0F = 0) (rest : Bytes) :
    (kind.missing items = none → ∃ r,
      kind.format.decode o (body items stop ++ rest) = .ok (r, (body items stop).length) ∧
        kind.format.Assembled o (maxStructDepth - 1) items (kind.format.draft r)) ∧
    (∀ name, kind.missing items = some name →
      kind.format.decode o (body items stop ++ rest) =
        .error (.error ⟨Fault.missingField kind name, [.decodingRecord kind]⟩)) ∧
    ∀ items' stop' rest', kind.Body o items' → stop' &&& 0x0F = 0 → kind.SameLast items items' →
      (kind.format.decode o (body items' stop' ++ rest')).map Prod.fst =
        (kind.format.decode o (body items stop ++ rest)).map Prod.fst := by
  obtain ⟨e, he, hdecode⟩ := h.decode_eq hstop rest
  obtain ⟨hok, herror⟩ := kind.finish_assembled he
  refine ⟨fun hnone => ?_, fun name hname => ?_, ?_⟩
  · obtain ⟨r, hr⟩ := hok hnone
    refine ⟨r, ?_, ?_⟩
    · rw [hdecode, Format.answer, hr]
    · rw [kind.lawful.draft_finish e r hr]
      exact he
  · rw [hdecode, Format.answer, herror name hname, kind.format_kind]
    rfl
  · intro items' stop' rest' h' hstop' hsame
    obtain ⟨e', he', hdecode'⟩ := h'.decode_eq hstop' rest'
    rw [kind.lawful.assembled_unique (Nat.sub_le _ _) he' (he.congr hsame)] at hdecode'
    rw [hdecode, hdecode', Format.answer, Format.answer]
    rcases kind.format.finish e with err | r
    · rfl
    · rfl

/-- the header of a data page out of order: statistics first, a count that a second one replaces,
a boolean under the number of the count, and a list that no table has -/
def scattered : List Item := [
  { code := 12, type := .struct, id := 5, head := [0x5C], payload := [0] },
  { code := 5, type := .i32, id := 1, head := [0x05, 0x02], payload := [0x0E] },
  { code := 1, type := .bool, id := 1, head := [0x01, 0x02], payload := [] },
  { code := 5, type := .i32, id := 1, head := [0x05, 0x82, 0x00], payload := [0x12] },
  { code := 5, type := .i32, id := 2, head := [0x15], payload := [0x00] },
  { code := 5, type := .i32, id := 3, head := [0x15], payload := [0x06] },
  { code := 5, type := .i32, id := 4, head := [0x15], payload := [0x06] },
  { code := 9, type := .list, id := 20, head := [0x09, 0x28], payload := [0x25, 0x02, 0x04] }]

theorem scattered_chained : Chained 0 scattered := by
  have hlong : Varint.Spells [0x82, 0x00] 2 :=
    { groups := .more (by decide) (.last (by decide)), length := by decide, value := rfl,
      lt := by decide }
  exact ⟨⟨rfl, nofun, .short (by decide : 0 < 5) (by decide) rfl⟩,
    ⟨rfl, nofun, .long (Varint.spells_byte (b := 2) (by decide))⟩,
    ⟨rfl, nofun, .long (Varint.spells_byte (b := 2) (by decide))⟩,
    ⟨rfl, nofun, .long hlong⟩,
    ⟨rfl, nofun, .short (by decide : 0 < 1) (by decide) rfl⟩,
    ⟨rfl, nofun, .short (by decide : 0 < 1) (by decide) rfl⟩,
    ⟨rfl, nofun, .short (by decide : 0 < 1) (by decide) rfl⟩,
    ⟨rfl, nofun, .long (Varint.spells_byte (b := 40) (by decide))⟩, trivial⟩

theorem scattered_valid :
    ∀ it ∈ scattered, it.Valid DataPageHeader.format {} (maxStructDepth - 1) := by
  have hbyte {b : UInt8} {n : Int} (hn : b.toNat = Zigzag.fold n) (hb : b.toNat < 128) :
      Varint.SpellsInt [b] n := by
    have h := Varint.spells_byte hb
    rwa [hn] at h
  have hplain : CodeSpelled [0x00] Encoding.plain := ⟨0, hbyte rfl (by decide), rfl⟩
  have hrle : CodeSpelled [0x06] Encoding.rle := ⟨3, hbyte rfl (by decide), rfl⟩
  have hnumber : ∀ bs ∈ [[0x02], [0x04]], Spelled {} 7 63 .i32 bs :=
    List.forall_mem_cons.mpr ⟨.i32 (Varint.spells_byte (by decide)) (by decide),
      List.forall_mem_singleton.mpr (.i32 (Varint.spells_byte (by decide)) (by decide))⟩
  have hlist : Spelled {} 7 maxSkipDepth .list ([0x25] ++ [[0x02], [0x04]].flatten) :=
    .list (.inl rfl) (rfl : WireType.ofCode? 5 = some .i32) (.short (by decide)) hnumber
  refine List.forall_mem_cons.mpr ⟨⟨?_, nofun⟩, List.forall_mem_cons.mpr ⟨⟨?_, nofun⟩,
    List.forall_mem_cons.mpr ⟨⟨nofun, fun _ => rfl⟩, List.forall_mem_cons.mpr ⟨⟨?_, nofun⟩,
    List.forall_mem_cons.mpr ⟨⟨?_, nofun⟩, List.forall_mem_cons.mpr ⟨⟨?_, nofun⟩,
    List.forall_mem_cons.mpr ⟨⟨?_, nofun⟩, List.forall_mem_singleton.mpr
      ⟨nofun, fun _ => hlist⟩⟩⟩⟩⟩⟩⟩⟩
  · rintro _ ⟨⟩
    exact ⟨({} : Statistics), .record .statistics ⟨_, rfl, rfl⟩⟩
  · rintro _ ⟨⟩
    exact ⟨(7 : Int32), .i32 (hbyte rfl (by decide))⟩
  · rintro _ ⟨⟩
    exact ⟨(9 : Int32), .i32 (hbyte rfl (by decide))⟩
  · rintro _ ⟨⟩
    exact ⟨Encoding.plain, .code hplain⟩
  · rintro _ ⟨⟩
    exact ⟨Encoding.rle, .code hrle⟩
  · rintro _ ⟨⟩
    exact ⟨Encoding.rle, .code hrle⟩

/-- the scattered header is read, with what its last fields say -/
theorem RecordKind.decode_body_scattered :
    RecordKind.dataPageHeader.Body {} scattered ∧
      RecordKind.dataPageHeader.missing scattered = none ∧ ∃ r,
        DataPageHeader.format.decode {} (body scattered 0 ++ [7]) = .ok (r, 23) ∧
          DataPageHeader.format.Assembled {} 7 scattered (DataPageHeader.format.draft r) :=
  have h : RecordKind.dataPageHeader.Body {} scattered := ⟨scattered_chained, scattered_valid⟩
  ⟨h, rfl, (RecordKind.decode_body .dataPageHeader h (rfl : (0 : UInt8) &&& 0x0F = 0) [7]).1 rfl⟩

end Columnar
