import Columnar.Column.Writer
import Columnar.Proofs.Column.Page
import Columnar.Proofs.Column.Values
import Columnar.Proofs.Hybrid.Encoder

/-!
# The body of a page that was written

A page is written from the bytes of its slots, and read back as the values of those bytes.

* `Binding.Reads b d slots`         the slots of a column can be read under the binding `b`, with
                                    the dictionary `d`;
* `Dictionary.values t d`           the values of a dictionary;
* `ColumnWriter.openBody_body`      a body is opened, and its slots are found.
-/

namespace Columnar

/-! ## levels and values -/

theorem splitFirst?_append (bs rest : Bytes) :
    splitFirst? bs.length (bs ++ rest) = some (bs, rest) := by
  rw [splitFirst?_eq, if_pos (by rw [List.length_append]; exact Nat.le_add_right _ _),
    List.take_left, List.drop_left]

/-- the levels of a page are found in front of its values -/
theorem splitLevels_encodeLevels {defined : List Bool} {levels : Bytes}
    (h : encodeLevels defined = .ok levels) (hlen : levels.length < 2 ^ 32) (rest : Bytes) :
    ∃ bs, Hybrid.encode 1 (defined.map Bool.toNat) = .ok bs ∧
      splitLevels (levels ++ rest) = .ok (bs, rest) := by
  obtain ⟨bs, hbs, h₁⟩ := Except.bind_eq_ok.mp h
  cases h₁
  rw [List.length_append, toLE_length] at hlen
  refine ⟨bs, hbs, ?_⟩
  have hfour := splitFirst?_append (toLE 4 bs.length) (bs ++ rest)
  have hvalue : fromLE (toLE 4 bs.length) = bs.length := by
    rw [fromLE_toLE]
    exact Nat.mod_eq_of_lt (Nat.lt_of_le_of_lt (Nat.le_add_left _ 4) hlen)
  rw [toLE_length] at hfour
  simp only [splitLevels, List.append_assoc, hfour, hvalue, splitFirst?_append]

/-- values by their indices -/
theorem times_lookUp {dictionary : List Value} : ∀ {n : Nat} {d e : Hybrid.Decoder}
    {is : List Nat} {vs : List Value}, Step.times n Hybrid.Decoder.next d = (.ok is, e) →
    is.map (dictionary[·]?) = vs.map some →
    Step.times n (OpenPage.lookUp dictionary) d = (.ok vs, e) := by
  intro n
  induction n with
  | zero =>
    intro d e is vs h hvs
    cases h
    rw [List.map_eq_nil_iff.mp hvs.symm]
    rfl
  | succ n ih =>
    intro d e is vs h hvs
    rw [Step.times_succ] at h
    obtain ⟨i, d₁, hi, h₁⟩ := Step.bind_eq_ok.mp h
    obtain ⟨is', d₂, his, h₂⟩ := Step.bind_eq_ok.mp h₁
    cases h₂
    match vs with
    | v :: vs =>
      obtain ⟨hv, hvs⟩ := List.cons.inj hvs
      replace hv : dictionary[i]? = some v := hv
      have hlook : OpenPage.lookUp dictionary d = (.ok v, d₁) := by
        rw [OpenPage.lookUp, Step.bind_ok (Step.lift_ok hi), hv]
        rfl
      rw [Step.times_succ, Step.bind_ok hlook, Step.bind_ok (ih his hvs)]
      rfl

/-- levels say which slots have a value, and the values stand in order -/
theorem weave_slots {α : Type} (f : α → Value) (slots : List (Option α)) :
    weave ((slots.map Option.isSome).map Bool.toNat) ((slots.filterMap id).map f) =
      slots.map (·.map f) := by
  induction slots with
  | nil => rfl
  | cons slot slots ih =>
    cases slot with
    | none =>
      rw [List.filterMap_cons_none rfl]
      show none :: weave _ _ = _
      rw [ih]
      rfl
    | some a =>
      rw [List.filterMap_cons_some (f := id) rfl]
      show some (f a) :: weave ((slots.map Option.isSome).map Bool.toNat)
        ((slots.filterMap id).map f) = _
      rw [ih]
      rfl

theorem countP_levels {α : Type} (slots : List (Option α)) :
    ((slots.map Option.isSome).map Bool.toNat).countP (· != 0) = (slots.filterMap id).length := by
  induction slots with
  | nil => rfl
  | cons slot slots ih =>
    cases slot with
    | none =>
      rw [List.filterMap_cons_none rfl, List.map_cons, List.map_cons,
        List.countP_cons_of_neg (by simp), ih]
    | some a =>
      rw [List.filterMap_cons_some (f := id) rfl, List.map_cons, List.map_cons,
        List.countP_cons_of_pos rfl, ih, List.length_cons]

/-! ## the body of a page -/

/-- the slots of a column can be read under a binding, with the dictionary `d` -/
structure Binding.Reads (b : Binding) (d : Option Dictionary) (slots : List (Option Bytes)) :
    Prop where
  type : b.type ≠ .int96
  length : b.type = .fixedLenByteArray → b.typeLength.isSome
  staged : ∀ bs, some bs ∈ slots → Plain.Staged b.type b.typeLength bs
  dictionary : b.dictionaryOffset.isSome = d.isSome
  entries : ∀ e ∈ d, ∀ bs, some bs ∈ slots → e.entries[e.entries.idxOf bs]? = some bs

/-- some of the slots can be read when all can -/
theorem Binding.Reads.mono {b : Binding} {d : Option Dictionary} {slots some : List (Option Bytes)}
    (h : b.Reads d slots) (hsub : ∀ slot ∈ some, slot ∈ slots) : b.Reads d some :=
  ⟨h.type, h.length, fun bs hbs => h.staged bs (hsub _ hbs), h.dictionary,
    fun e he bs hbs => h.entries e he bs (hsub _ hbs)⟩

/-- the values of a dictionary -/
def Dictionary.values (t : PhysicalType) (d : Option Dictionary) : List Value :=
  d.elim [] fun d => d.entries.map (.ofPlain t)

namespace ColumnWriter

variable {b : Binding} {d : Option Dictionary} {slots : List (Option Bytes)}

/-- a decoder of plain values, for every type that is written -/
theorem exists_ofBytes (hr : b.Reads d slots) (bs : Bytes) :
    ∃ p, Plain.Decoder.ofBytes bs b.type b.typeLength = .ok p := by
  have htype := hr.type
  have hlength := hr.length
  unfold Plain.Decoder.ofBytes
  split
  · exact ⟨_, rfl⟩
  · rename_i ht hl
    rw [hl] at hlength
    exact absurd (hlength ht) (by decide)
  · rename_i ht
    exact absurd ht htype
  · exact ⟨_, rfl⟩

/-- the values of a page, plain -/
theorem openValues_plain (hr : b.Reads none slots) :
    ∃ values e, ColumnReader.openValues b .plain (Plain.layout b.type (slots.filterMap id)) =
        .ok (values, 0) ∧
      Step.times (slots.filterMap id).length (PageValues.next []) values =
        (.ok ((slots.filterMap id).map (.ofPlain b.type)), e) := by
  obtain ⟨p, hp⟩ := exists_ofBytes hr (Plain.layout b.type (slots.filterMap id))
  have hstaged : ∀ v ∈ slots.filterMap id, Plain.Staged b.type b.typeLength v := by
    intro v hv
    obtain ⟨slot, hslot, rfl⟩ := List.mem_filterMap.mp hv
    exact hr.staged v hslot
  obtain ⟨e, htimes, -⟩ := Plain.Decoder.times_layout hstaged hp
  refine ⟨.plain p, .plain e, ?_, ?_⟩
  · rw [ColumnReader.openValues.eq_def, if_neg (by decide), hp]
    rfl
  · rw [PageValues.times_plain, htimes]
    rfl

theorem indices_filterMap (d : Dictionary) (slots : List (Option Bytes)) :
    (d.indices slots).filterMap id = (slots.filterMap id).map d.entries.idxOf := by
  rw [Dictionary.indices, List.filterMap_map, ← List.filterMap_eq_map, List.filterMap_filterMap]
  congr 1
  funext slot
  cases slot <;> rfl

/-- the values of a page, by their indices -/
theorem openValues_indices {d : Dictionary} {indices : Bytes} (encoding : Encoding)
    (hr : b.Reads (some d) slots) (hlen : slots.length < 2 ^ 56) (hdict : encoding.isDictionary)
    (h : Hybrid.encode d.bitWidth ((d.indices slots).filterMap id) = .ok indices) :
    ∃ values e, ColumnReader.openValues b encoding (UInt8.ofNat d.bitWidth :: indices) =
        .ok (values, 1) ∧
      Step.times (slots.filterMap id).length
          (PageValues.next (Dictionary.values b.type (some d))) values =
        (.ok ((slots.filterMap id).map (.ofPlain b.type)), e) := by
  have hwidth := (Hybrid.encode_eq_ok h).1
  have hnat : (UInt8.ofNat d.bitWidth).toNat = d.bitWidth := by
    have : d.bitWidth ≤ 32 := hwidth
    rw [UInt8.toNat_ofNat']
    exact Nat.mod_eq_of_lt (by omega)
  have hcount : (slots.filterMap id).length ≤ slots.length := List.length_filterMap_le _ _
  rw [indices_filterMap] at h
  obtain ⟨e, htimes⟩ := Hybrid.times_encode h (by rw [List.length_map]; omega) [] []
    (rfl : (Hybrid.Run.repeated 0 0).left = 0)
  rw [List.append_nil, List.length_map] at htimes
  have hvalues : ((slots.filterMap id).map d.entries.idxOf).map
      ((Dictionary.values b.type (some d))[·]?) =
        ((slots.filterMap id).map (.ofPlain b.type)).map some := by
    rw [List.map_map, List.map_map]
    apply List.map_congr_left
    intro v hv
    obtain ⟨slot, hslot, rfl⟩ := List.mem_filterMap.mp hv
    show (d.entries.map (Value.ofPlain b.type))[d.entries.idxOf v]? = some (.ofPlain b.type v)
    rw [List.getElem?_map, hr.entries d rfl v hslot]
    rfl
  have hlook : Step.times (slots.filterMap id).length
      (OpenPage.lookUp (Dictionary.values b.type (some d)))
      ⟨.ofBytes indices, d.bitWidth, .repeated 0 0⟩ = _ := times_lookUp htimes hvalues
  refine ⟨.indices ⟨.ofBytes indices, d.bitWidth, .repeated 0 0⟩, .indices e, ?_, ?_⟩
  · have hsome : ¬ b.dictionaryOffset.isNone = true := by
      intro hnone
      have := hr.dictionary
      rw [Option.isNone_iff_eq_none.mp hnone] at this
      cases this
    rw [ColumnReader.openValues.eq_def, if_pos hdict, if_neg hsome]
    show (Hybrid.Decoder.ofBytes indices (UInt8.ofNat d.bitWidth).toNat >>= fun d =>
      pure (PageValues.indices d, 1)) = _
    rw [hnat, Hybrid.Decoder.ofBytes, if_pos hwidth]
    rfl
  · rw [PageValues.times_indices, hlook]
    rfl

/-- the body of a page that was written is opened, and its slots are found -/
theorem openBody_body {body : Bytes} {encoding : Encoding} (hr : b.Reads d slots)
    (hlen : slots.length < 2 ^ 56) (hsize : body.length < 2 ^ 31)
    (h : ColumnWriter.body b.type d slots = .ok (body, encoding)) (n : Nat) :
    (encoding = .plain ∨ encoding.isDictionary) ∧ ∃ p front,
      ColumnReader.openBody b ⟨n, encoding, body⟩ = .ok (p, front) ∧
        p.slots (Dictionary.values b.type d) slots.length =
          .ok (slots.map (·.map (.ofPlain b.type))) := by
  obtain ⟨levels, hlevels, h₁⟩ := Except.bind_eq_ok.mp h
  obtain ⟨values, rest, width, e, hbody, hencoding, hopen, htimes⟩ : ∃ values rest width e,
      body = levels ++ rest ∧ (encoding = .plain ∨ encoding.isDictionary) ∧
      ColumnReader.openValues b encoding rest = .ok (values, width) ∧
      Step.times (slots.filterMap id).length (PageValues.next (Dictionary.values b.type d)) values =
        (.ok ((slots.filterMap id).map (.ofPlain b.type)), e) := by
    cases d with
    | none =>
      cases h₁
      obtain ⟨values, e, hopen, htimes⟩ := openValues_plain hr
      exact ⟨values, _, 0, e, rfl, Or.inl rfl, hopen, htimes⟩
    | some d =>
      obtain ⟨indices, hindices, h₂⟩ := Except.bind_eq_ok.mp h₁
      cases h₂
      obtain ⟨values, e, hopen, htimes⟩ :=
        openValues_indices .rleDictionary hr hlen rfl hindices
      exact ⟨values, _, 1, e, rfl, Or.inr rfl, hopen, htimes⟩
  refine ⟨hencoding, ?_⟩
  rw [hbody, List.length_append] at hsize
  obtain ⟨bs, hbs, hsplit⟩ := splitLevels_encodeLevels hlevels (by omega) rest
  obtain ⟨l, hl⟩ := Hybrid.times_encode hbs (by rw [List.length_map, List.length_map]; omega)
    [] [] (rfl : (Hybrid.Run.repeated 0 0).left = 0)
  rw [List.append_nil, List.length_map, List.length_map] at hl
  refine ⟨⟨⟨.ofBytes bs, 1, .repeated 0 0⟩, values⟩, 4 + width, ?_, ?_⟩
  · rw [ColumnReader.openBody, hbody, hsplit]
    show (ColumnReader.openValues b encoding rest >>= fun r => _) = _
    rw [hopen]
    rfl
  · refine (OpenPage.slots_of_ok hl).trans ?_
    rw [countP_levels, htimes]
    show Except.ok (weave _ _) = _
    rw [weave_slots]

end ColumnWriter

end Columnar
