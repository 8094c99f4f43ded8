import Columnar.Column.Dictionary
import Columnar.Column.Values
import Columnar.Proofs.Plain.Layout

/-!
# What a column writer stages

* `ColumnValues.staged_ok`      the slots of a column are staged by their bytes, which are those
                                of values of the column;
* `Dictionary.getElem?_idxOf`   the index of a value leads back to it.
-/

namespace Columnar

/-! ## staging -/

/-- the length of the values of a column, where it is fixed -/
def ColumnSpec.length (spec : ColumnSpec) : Option Nat := spec.typeLength.map fun n => n.toInt.toNat

namespace ColumnValues

variable {spec : ColumnSpec} {length : Int}

theorem type_of_mem {vs : ColumnValues} {d : Datum} (h : some d ∈ vs.data) : d.type = vs.type := by
  cases vs <;>
  · obtain ⟨slot, -, hslot⟩ := List.mem_map.mp h
    obtain ⟨x, -, rfl⟩ := Option.map_eq_some_iff.mp hslot
    rfl

/-- a datum is staged as its bytes, which are those of a value of its type -/
theorem stageDatum_ok {d : Datum} {bs : Bytes} (h : stageDatum spec length d = .ok bs) :
    bs = d.plain ∧ Plain.Staged d.type (some length.toNat) bs := by
  cases d with
  | boolean b =>
    cases h
    exact ⟨rfl, trivial⟩
  | int32 _ | float _ =>
    cases h
    exact ⟨rfl, congrArg some (toLE_length 4 _).symm⟩
  | int64 _ | double _ =>
    cases h
    exact ⟨rfl, congrArg some (toLE_length 8 _).symm⟩
  | byteArray payload =>
    unfold stageDatum at h
    dsimp only at h
    split at h
    · cases h
    · rename_i hlen
      cases h
      exact ⟨rfl, payload, rfl, Nat.not_le.mp hlen⟩
  | fixedLenByteArray payload =>
    unfold stageDatum at h
    dsimp only at h
    split at h
    · cases h
    · rename_i hlen
      have hlen := Decidable.not_not.mp hlen
      cases h
      refine ⟨rfl, ?_⟩
      show some length.toNat = some payload.length
      rw [← hlen]
      rfl

theorem fixedLength_ok {vs : ColumnValues} (h : vs.fixedLength spec = .ok length)
    (htype : vs.type = .fixedLenByteArray) : spec.length = some length.toNat := by
  match vs, htype with
  | fixedLenByteArray slots, _ =>
    rw [fixedLength.eq_def, ColumnSpec.length] at *
    cases hlen : spec.typeLength with
    | none =>
      rw [hlen] at h
      cases h
    | some n =>
      rw [hlen] at h
      cases h
      rfl

/-- a slot is staged as its bytes, or stays empty -/
theorem stageSlot_ok {slot : Option Datum} {staged : Option Bytes}
    (h : slot.mapM (stageDatum spec length) = .ok staged) :
    staged = slot.map Datum.plain ∧
      ∀ bs ∈ staged, ∃ d ∈ slot, Plain.Staged d.type (some length.toNat) bs := by
  cases slot with
  | none =>
    cases h
    exact ⟨rfl, fun _ h => nomatch h⟩
  | some d =>
    obtain ⟨bs, hbs, h₁⟩ := Except.bind_eq_ok.mp h
    cases h₁
    obtain ⟨hplain, hstaged⟩ := stageDatum_ok hbs
    refine ⟨congrArg some hplain, ?_⟩
    rintro _ ⟨⟩
    exact ⟨d, rfl, hstaged⟩

/-- the slots of a column are staged by their bytes -/
theorem staged_ok {vs : ColumnValues} {slots : List (Option Bytes)}
    (h : vs.staged spec = .ok slots) : slots = vs.data.map (·.map Datum.plain) ∧
      (vs.type = .fixedLenByteArray → spec.length.isSome) ∧
      ∀ bs, some bs ∈ slots → ∀ len, (vs.type = .fixedLenByteArray → len = spec.length) →
        Plain.Staged vs.type len bs := by
  obtain ⟨length, hlength, h₁⟩ := Except.bind_eq_ok.mp h
  refine ⟨?_, fun htype => by rw [fixedLength_ok hlength htype]; rfl, fun bs hbs len hlen => ?_⟩
  · exact Except.eq_map_of_mapM h₁ fun slot _ staged hs => (stageSlot_ok hs).1
  · obtain ⟨slot, hslot, hs⟩ := Except.exists_of_mapM h₁ _ hbs
    obtain ⟨d, hd, hstaged⟩ := (stageSlot_ok hs).2 bs rfl
    have hslot : some d ∈ vs.data := Option.mem_def.mp hd ▸ hslot
    rw [type_of_mem hslot] at hstaged
    exact Plain.staged_congr (fun htype => by rw [hlen htype, fixedLength_ok hlength htype]) hstaged

end ColumnValues

/-! ## dictionaries -/

namespace Dictionary

variable {slots : List (Option Bytes)} {bs : Bytes}

theorem mem_entries : bs ∈ (ofSlots slots).entries ↔ some bs ∈ slots := by
  rw [ofSlots, List.mem_eraseDups, List.mem_filterMap]
  constructor
  · rintro ⟨slot, hslot, rfl⟩
    exact hslot
  · exact fun h => ⟨some bs, h, rfl⟩

/-- the place of a value leads back to it -/
theorem getElem?_idxOf (h : some bs ∈ slots) :
    (ofSlots slots).entries[(ofSlots slots).entries.idxOf bs]? = some bs := by
  have hlt : (ofSlots slots).entries.idxOf bs < (ofSlots slots).entries.length :=
    List.idxOf_lt_length_of_mem (mem_entries.mpr h)
  rw [List.getElem?_eq_getElem hlt, List.getElem_idxOf hlt]

end Dictionary

end Columnar
