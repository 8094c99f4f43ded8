import Columnar.Proofs.Column.Finality
import Columnar.Proofs.Plain.Typed

/-!
# The values that readers hand out

A reader hands out only values of the column that it was bound to last, whatever the bytes of the
chunk are, and a read that fails leaves only such values in the batch as well.

* `Value.OfColumn schema v`                  `v` is a value of the column of `schema`;
* `ColumnReader.Typed P r`                   all values that `r` has and can hand out satisfy `P`;
* `Called prepare read r₀ schema r`          `r₀` comes to `r` by calls, and was bound last with
                                             `schema`;
* `ColumnReader.read_all`, `DeltaReader.read_all`   one read;
* `handsOut_ofColumn`                        any calls.
-/

namespace Columnar

open Step

variable {P : Value → Prop} {schema : SchemaElement} {b : Binding}

/-- a value of the column of a schema element -/
def Value.OfColumn (schema : SchemaElement) (v : Value) : Prop :=
  ∃ t, schema.physicalType = some t ∧ v.Of t (schema.typeLength.map fun n => n.toInt.toNat)

theorem Value.OfColumn.gives {v : Value} (h : v.OfColumn schema) :
    ∃ d, v.Gives d ∧ v.datum = .ok d := by
  obtain ⟨t, -, hof⟩ := h
  obtain ⟨d, hgives, hdatum, -⟩ := hof.gives
  exact ⟨d, hgives, hdatum⟩

/-! ## bindings -/

namespace Binding

/-- what is said of the values of a column in its binding is what the schema says -/
structure Describes (schema : SchemaElement) (b : Binding) : Prop where
  type : schema.physicalType = some b.type
  length : b.type = .fixedLenByteArray →
    b.typeLength = schema.typeLength.map fun n => n.toInt.toNat

theorem Describes.ofColumn (h : b.Describes schema) {v : Value} (hv : v.Of b.type b.typeLength) :
    v.OfColumn schema := by
  refine ⟨b.type, h.type, hv.type, ?_⟩
  cases v with
  | fixedLenByteArray bs => exact (h.length hv.type.symm).symm.trans hv.sized
  | _ => exact hv.sized

theorem checkType_ok {m : ColumnMetaData} {t : PhysicalType} (h : checkType schema m = .ok t) :
    schema.physicalType = some t := by
  unfold checkType at h
  split at h
  · cases h
  split at h
  · cases h
  · split at h
    · cases h
    split at h
    · cases h
    cases h
    assumption

theorem checkLength_ok {t : PhysicalType} {length : Option Nat}
    (h : checkLength schema t = .ok length) (ht : t = .fixedLenByteArray) :
    length = schema.typeLength.map fun n => n.toInt.toNat := by
  unfold checkLength at h
  rw [if_pos ht] at h
  split at h
  · rename_i hlength
    rw [hlength]
    split at h
    · cases h
      rfl
    · cases h
  · cases h

theorem ofChunk_describesSchema {column size : Nat} {chunk : ColumnChunk}
    (h : ofChunk column schema chunk size = .ok b) : b.Describes schema := by
  obtain ⟨m, -, h₁⟩ := Except.bind_eq_ok.mp h
  obtain ⟨t, htype, h₂⟩ := Except.bind_eq_ok.mp h₁
  obtain ⟨length, hlength, h₃⟩ := Except.bind_eq_ok.mp h₂
  obtain ⟨_, -, h₄⟩ := Except.bind_eq_ok.mp h₃
  obtain ⟨_, -, h₅⟩ := Except.bind_eq_ok.mp h₄
  obtain ⟨_, -, h₆⟩ := Except.bind_eq_ok.mp h₅
  obtain ⟨_, -, h₇⟩ := Except.bind_eq_ok.mp h₆
  split at h₇
  · cases h₇
  · cases h₇
    exact ⟨checkType_ok htype, checkLength_ok hlength⟩

end Binding

/-! ## pages -/

/-- plain values of a page satisfy `P`; an index says nothing of a value -/
def PageValues.Typed (P : Value → Prop) : PageValues → Prop
  | plain d => d.Yields P
  | indices _ => True

namespace OpenPage

variable {dictionary : List Value}

theorem lookUp_all (hdictionary : ∀ v ∈ dictionary, P v) :
    Maintains (fun _ => True) P (lookUp dictionary) := by
  refine maintains_bind (maintains_any _) fun i _ => ?_
  split
  · exact maintains_fail _
  · rename_i v hv
    exact maintains_pure (hdictionary v (List.mem_of_getElem? hv))

theorem takeValues_all (hdictionary : ∀ v ∈ dictionary, P v) (n : Nat) :
    Maintains (fun s => s.1.Typed P ∧ s.2.All P) Any (takeValues dictionary n) := by
  refine .of_forall fun ⟨p, batch⟩ hs => ?_
  cases p with
  | plain d => exact (Plain.Decoder.values_all n (d, batch) hs).1
  | indices d => exact (Batch.pushEach_all (lookUp_all hdictionary) n (d, batch) ⟨trivial, hs.2⟩).1

theorem takeSlots_all (hdictionary : ∀ v ∈ dictionary, P v) (count : Nat) :
    Maintains (fun s => s.1.values.Typed P ∧ s.2.All P) Any (takeSlots dictionary count) := by
  refine maintains_bind maintains_state fun before _ => ?_
  refine maintains_bind (maintains_on fun _ _ h => h) fun mask _ => ?_
  refine maintains_bind (maintains_part (takeValues_all hdictionary _) (fun _ h => h)
    fun _ _ _ h => h) fun _ _ => ?_
  refine maintains_bind maintains_state fun after _ => ?_
  refine maintains_bind (maintains_ofExcept (P := Any) fun _ _ => trivial) fun levels _ => ?_
  refine maintains_bind (maintains_ofExcept (P := Any) fun _ _ => trivial) fun values _ => ?_
  exact maintains_bind (maintains_update fun _ h => h) fun _ _ => maintains_pure trivial

end OpenPage

/-! ## column readers -/

namespace ColumnReader

/-- all values that a reader has, and all that it decodes, satisfy `P` -/
structure Typed (P : Value → Prop) (r : ColumnReader) : Prop where
  binding : ∀ b ∈ r.binding, ∀ v : Value, v.Of b.type b.typeLength → P v
  dictionary : ∀ v ∈ r.dictionary, P v
  page : ∀ p ∈ r.page, p.values.Typed P

theorem typed_ofBuffer (buffer : Bytes) (o : Options) : (ofBuffer buffer o).Typed P :=
  ⟨nofun, List.forall_mem_nil P, nofun⟩

/-- the values of the column that a reader is bound to satisfy `P` -/
theorem bound_typed :
    Maintains (Typed P) (fun b => ∀ v : Value, v.Of b.type b.typeLength → P v) bound := by
  refine maintains_bind maintains_state fun r hr => ?_
  split
  · rename_i b hb
    exact maintains_pure (hr.binding b hb)
  · exact maintains_fail _

theorem entries_all (hb : ∀ v : Value, v.Of b.type b.typeLength → P v) {page : DictionaryPage}
    {vs : List Value} (h : entries page b = .ok vs) : ∀ v ∈ vs, P v := by
  obtain ⟨d, hd, h⟩ := Except.bind_eq_ok.mp h
  have hyields : d.Yields P := (Plain.yields_ofBytes hd).imp hb
  rcases hrun : Step.times page.numValues Plain.Decoder.value d with ⟨x | ws, e⟩
  · rw [hrun] at h
    cases h
  · rw [hrun] at h
    dsimp only at h
    split at h
    · cases h
      exact ((maintains_times Plain.Decoder.value_all _).of_eq hyields hrun).2.2
    · cases h

theorem loadDictionary_typed : Maintains (Typed P) Any loadDictionary := by
  refine maintains_bind bound_typed fun b hb => ?_
  refine maintains_bind maintains_state fun r _ => ?_
  split
  · split
    · exact maintains_fail _
    refine maintains_bind (P := Any) (maintains_on fun _ _ h => ⟨h.1, h.2, h.3⟩) fun page _ => ?_
    refine maintains_bind (maintains_lift fun _ => entries_all hb) fun vs hvs => ?_
    exact maintains_bind (passed_maintains _) fun _ _ =>
      maintains_update fun _ h => ⟨h.1, hvs, h.3⟩
  · exact maintains_pure trivial

theorem openBody_typed (hb : ∀ v : Value, v.Of b.type b.typeLength → P v) {page : DataPage}
    {opened : OpenPage × Nat} (h : openBody b page = .ok opened) : opened.1.values.Typed P := by
  obtain ⟨⟨levels, rest⟩, -, h⟩ := Except.bind_eq_ok.mp h
  obtain ⟨⟨values, width⟩, hvalues, h⟩ := Except.bind_eq_ok.mp h
  obtain ⟨d, -, h⟩ := Except.bind_eq_ok.mp h
  cases h
  unfold openValues at hvalues
  split at hvalues
  · split at hvalues
    · cases hvalues
    split at hvalues
    · cases hvalues
    · obtain ⟨d, -, hd⟩ := Except.bind_eq_ok.mp hvalues
      cases hd
      trivial
  · obtain ⟨d, hd, h⟩ := Except.bind_eq_ok.mp hvalues
    cases h
    exact (Plain.yields_ofBytes hd).imp hb

theorem enterPage_typed (page : DataPage) (size : Nat) :
    Maintains (Typed P) Any (enterPage page size) := by
  refine maintains_bind maintains_state fun r hr => ?_
  split
  · exact maintains_fail _
  split
  · exact maintains_fail _
  refine maintains_bind bound_typed fun b hb => ?_
  refine maintains_bind (maintains_lift fun _ => openBody_typed hb) fun opened hopened => ?_
  refine maintains_bind (subtract_maintains _ _) fun header _ => ?_
  refine maintains_bind (subtract_maintains _ _) fun columnBytes _ => ?_
  refine maintains_bind (subtract_maintains _ _) fun pageBytes _ => ?_
  refine maintains_bind (maintains_put ⟨hr.1, hr.2, ?_⟩) fun _ _ => maintains_pure trivial
  rintro p hp
  cases hp
  exact hopened

theorem openPage_typed : Maintains (Typed P) Any openPage := by
  refine maintains_bind maintains_state fun r hr => ?_
  refine maintains_bind (subtract_maintains _ _) fun columnBytes _ => ?_
  refine maintains_bind (maintains_put ⟨hr.1, hr.2, nofun⟩) fun _ _ => ?_
  refine maintains_bind (P := Any) (maintains_on fun _ _ h => ⟨h.1, h.2, h.3⟩) fun page _ => ?_
  exact maintains_bind (passed_maintains _) fun n _ => enterPage_typed page n.1

/-- nothing of what a reader was bound to before is left, whether it is prepared or not -/
theorem prepare_typed (column : Nat) (schema : SchemaElement) (chunk : ColumnChunk)
    (r : ColumnReader) : (prepare column schema chunk r).2.Typed (Value.OfColumn schema) := by
  have hrest : Maintains (Typed (Value.OfColumn schema)) Any (do
      let r ← state
      let b ← Binding.ofChunk column schema chunk r.buffer.length
      if b.numValues = 0 ∨ b.size = 0 then
        put { r with
          binding := some b
          chunk := .ofBytes (b.bytes r.buffer)
          columnBytes := b.size
          progress := .ready }
      else
        put { r with
          binding := some b
          chunk := .ofBytes (b.bytes r.buffer)
          columnValues := b.numValues
          columnBytes := b.size }
        loadDictionary
        let _ ← openPage
        update fun r => { r with progress := .ready } : Step ColumnReader Failure Unit) := by
    refine maintains_bind maintains_state fun r hr => ?_
    refine maintains_bind (maintains_lift fun b => Binding.ofChunk_describesSchema)
      fun b hb => ?_
    have hbinding : ∀ c ∈ some b, ∀ v : Value, v.Of c.type c.typeLength → v.OfColumn schema := by
      rintro c ⟨⟩ v hv
      exact hb.ofColumn hv
    split
    · exact maintains_put ⟨hbinding, hr.2, hr.3⟩
    · refine maintains_bind (maintains_put ⟨hbinding, hr.2, hr.3⟩) fun _ _ => ?_
      refine maintains_bind loadDictionary_typed fun _ _ => ?_
      exact maintains_bind openPage_typed fun _ _ => maintains_update fun _ h => ⟨h.1, h.2, h.3⟩
  exact (maintains_within (c := .preparingColumn column) hrest _ (typed_ofBuffer _ _)).1

theorem takeBatch_all (count : Nat) :
    Maintains (fun s => s.1.Typed P ∧ s.2.All P) Any (takeBatch count) := by
  refine .of_forall fun ⟨r, batch⟩ hs => ?_
  unfold takeBatch
  split
  · exact hs
  · rename_i p hp
    obtain ⟨hpage, hbatch⟩ := (OpenPage.takeSlots_all hs.1.dictionary count (p, batch)
      ⟨hs.1.page p hp, hs.2⟩).1
    refine ⟨⟨hs.1.binding, hs.1.dictionary, ?_⟩, hbatch⟩
    rintro q ⟨⟩
    exact hpage

theorem takePage_all (b : Binding) :
    Maintains (fun s => s.1.Typed P ∧ s.2.All P) Any (takePage b) := by
  refine maintains_bind maintains_state fun s _ => ?_
  refine maintains_bind (maintains_within (takeBatch_all _)) fun bytes _ => ?_
  split
  · exact maintains_fail _
  refine maintains_bind (maintains_ofExcept (P := Any) fun _ _ => trivial) fun _ _ => ?_
  refine maintains_bind (maintains_ofExcept (P := Any) fun _ _ => trivial) fun _ _ => ?_
  refine maintains_bind (maintains_ofExcept (P := Any) fun _ _ => trivial) fun _ _ => ?_
  refine maintains_bind (maintains_update fun _ h => ⟨⟨h.1.1, h.1.2, h.1.3⟩, h.2⟩) fun _ _ => ?_
  exact maintains_pure trivial

theorem turnPage_typed (b : Binding) : Maintains (Typed P) Any (turnPage b) := by
  refine maintains_bind maintains_state fun r _ => ?_
  split
  · exact maintains_within openPage_typed
  · exact maintains_pure trivial

theorem fill_all (fuel : Nat) : ∀ taken,
    Maintains (fun s => s.1.Typed P ∧ s.2.All P) Any (fill fuel taken) := by
  induction fuel with
  | zero => exact fun _ => maintains_pure trivial
  | succ fuel ih =>
    intro taken
    refine maintains_bind maintains_state fun s _ => ?_
    dsimp only
    split
    · refine maintains_bind (maintains_fst bound_maintains) fun b _ => ?_
      refine maintains_bind (maintains_fst (turnPage_typed b)) fun upfront _ => ?_
      exact maintains_bind (takePage_all b) fun bytes _ => ih _
    · exact maintains_pure trivial

/-- a read puts only values that satisfy `P` into the batch, which it empties first -/
theorem read_all {r : ColumnReader} (hr : r.Typed P) (v : Batch) : (read (r, v)).2.1.Typed P ∧
    (r.progress ≠ .uninitialized → (read (r, v)).2.2.All P) := by
  cases hready : r.progress with
  | uninitialized =>
    rw [read_unprepared hready]
    exact ⟨hr, fun h => absurd rfl h⟩
  | exhausted =>
    rw [read_exhausted hready]
    exact ⟨hr, fun _ => Batch.all_empty⟩
  | ready =>
    by_cases hzero : r.columnValues = 0
    · rw [read_end hready hzero]
      exact ⟨⟨hr.1, hr.2, hr.3⟩, fun _ => Batch.all_empty⟩
    · rw [read_fill hready (Nat.pos_of_ne_zero hzero)]
      have hrun := (fill_all batchSize 0 (r, {}) ⟨hr, Batch.all_empty⟩).1
      exact ⟨hrun.1, fun _ => hrun.2⟩

end ColumnReader

/-! ## delta readers -/

namespace DeltaReader

/-- a reader that has anything to decode has byte arrays, which satisfy `P` -/
def Typed (P : Value → Prop) (r : DeltaReader) : Prop :=
  r.page ≠ none → ∀ payload : Bytes, payload.length < 2 ^ 32 →
    P (.byteArray (toLE 4 payload.length ++ payload))

theorem typed_ofBuffer (buffer : Bytes) (o : Options) : (ofBuffer buffer o).Typed P :=
  fun h => absurd rfl h

theorem next_all (hP : ∀ payload : Bytes, payload.length < 2 ^ 32 →
    P (.byteArray (toLE 4 payload.length ++ payload))) : Maintains (fun _ => True) P next := by
  refine fun p _ => ⟨trivial, fun v hv => ?_⟩
  have hbytes := Plain.Decoder.byteArray_all (I := fun _ => True) (fun _ _ _ _ => trivial) hP
    p.values trivial
  unfold next at hv
  split at hv
  · rename_i w d hrun
    cases hv
    exact hbytes.2 v (by rw [hrun])
  · cases hv

theorem takeRun_all (hP : ∀ payload : Bytes, payload.length < 2 ^ 32 →
    P (.byteArray (toLE 4 payload.length ++ payload))) (room : Nat) : ∀ taken,
    Maintains (fun s => s.2.All P) Any (takeRun room taken) := by
  induction room with
  | zero => exact fun _ => maintains_pure trivial
  | succ room ih =>
    intro taken
    refine maintains_bind maintains_state fun s _ => ?_
    dsimp only
    split
    · exact maintains_pure trivial
    have hnext : Maintains (fun s : DeltaPage × Batch => s.2.All P) P next.onFst :=
      fun s hs => ⟨hs, (next_all hP s.1 trivial).2⟩
    refine maintains_bind hnext fun v hv => ?_
    split
    · exact maintains_pure trivial
    · exact maintains_bind (.of_forall fun s hs => (Batch.push_all hv s.2 hs).1) fun _ _ => ih _

/-- nothing of what a reader was bound to before is left, whether it is prepared or not -/
theorem prepare_typed (column : Nat) (schema : SchemaElement) (chunk : ColumnChunk)
    (r : DeltaReader) : (prepare column schema chunk r).2.Typed (Value.OfColumn schema) := by
  have hrest : Maintains (Typed (Value.OfColumn schema)) Any (do
      let r ← state
      let b ← bind column schema chunk r.buffer.length
      let page ← openPage b r.buffer r.options
      put { r with progress := .ready, binding := some b, page } :
        Step DeltaReader Failure Unit) := by
    refine maintains_bind maintains_state fun r _ => ?_
    refine maintains_bind (maintains_lift (P := fun b => b.Describes schema ∧ b.type = .byteArray)
      fun b hb => ?_) fun b hb => ?_
    · obtain ⟨c, hc, h⟩ := Except.bind_eq_ok.mp hb
      split at h
      · cases h
      split at h
      · cases h
      · rename_i htype _
        cases h
        exact ⟨Binding.ofChunk_describesSchema hc, not_not.mp htype⟩
    refine maintains_bind (P := Any) (maintains_ofExcept fun _ _ => trivial) fun page _ => ?_
    exact maintains_put fun _ payload hlen => hb.1.ofColumn ⟨hb.2.symm, payload, rfl, hlen⟩
  exact (maintains_within (c := .preparingDelta column) hrest _ (typed_ofBuffer _ _)).1

/-- a read puts only values that satisfy `P` into the batch, which it empties first -/
theorem read_all {r : DeltaReader} (hr : r.Typed P) (v : Batch) : (read (r, v)).2.1.Typed P ∧
    (r.progress ≠ .uninitialized → (read (r, v)).2.2.All P) := by
  cases hready : r.progress with
  | uninitialized =>
    have hread : read (r, v) = (.error (.misuse .deltaNotPrepared), (r, v)) := by
      rw [read, state_bind]
      dsimp only
      rw [if_pos hready]
      rfl
    rw [hread]
    exact ⟨hr, fun h => absurd rfl h⟩
  | exhausted =>
    rw [read_exhausted hready]
    exact ⟨hr, fun _ => Batch.all_empty⟩
  | ready =>
    cases hpage : r.page with
    | none =>
      rw [read_none hready hpage]
      exact ⟨hr, fun _ => Batch.all_empty⟩
    | some p =>
      have hP := hr (by rw [hpage]; exact Option.some_ne_none p)
      have hrest : Maintains (fun s => s.1.Typed P ∧ s.2.All P) Any (do
          let taken ← onPage p (takeRun batchSize 0)
          update settle
          pure taken : Step (DeltaReader × Batch) Failure Nat) := by
        refine maintains_bind (.of_forall fun s hs =>
          ⟨fun _ => hP, (takeRun_all hP batchSize 0 (p, s.2) hs.2).1⟩) fun taken _ => ?_
        refine maintains_bind (maintains_update fun s hs => ?_) fun _ _ => maintains_pure trivial
        unfold settle
        dsimp only
        split
        · exact ⟨hs.1, hs.2⟩
        · exact hs
      rw [read_page hready hpage]
      have hrun := (hrest (r, {}) ⟨hr, Batch.all_empty⟩).1
      exact ⟨hrun.1, fun _ => hrun.2⟩

end DeltaReader

/-! ## any calls -/

/-- the readers that calls lead to from `r₀`, whatever they are called with, and whether they fail
or not; the schema element is the one of the last preparation -/
inductive Called {ρ : Type}
    (prepare : Nat → SchemaElement → ColumnChunk → Step ρ Failure Unit)
    (read : Step (ρ × Batch) Failure Nat) (r₀ : ρ) : Option SchemaElement → ρ → Prop where
  | new : Called prepare read r₀ none r₀
  | prepared {last : Option SchemaElement} {r : ρ} (h : Called prepare read r₀ last r)
      (column : Nat) (schema : SchemaElement) (chunk : ColumnChunk) :
      Called prepare read r₀ (some schema) (prepare column schema chunk r).2
  | read {last : Option SchemaElement} {r : ρ} (h : Called prepare read r₀ last r) (v : Batch) :
      Called prepare read r₀ last (read (r, v)).2.1

/-- what a preparation brings about and a read keeps is so after any calls -/
theorem Called.typed {ρ : Type} {prepare : Nat → SchemaElement → ColumnChunk → Step ρ Failure Unit}
    {read : Step (ρ × Batch) Failure Nat} {r₀ r : ρ} {last : Option SchemaElement}
    (Typed : (Value → Prop) → ρ → Prop) (h : Called prepare read r₀ last r)
    (hnew : Typed (fun _ => False) r₀)
    (hprepare : ∀ column schema chunk r,
      Typed (Value.OfColumn schema) (prepare column schema chunk r).2)
    (hread : ∀ P r v, Typed P r → Typed P (read (r, v)).2.1) :
    ∃ P, Typed P r ∧ ∀ v, P v → ∃ schema ∈ last, v.OfColumn schema := by
  induction h with
  | new => exact ⟨_, hnew, fun _ h => h.elim⟩
  | prepared _ column schema chunk _ =>
    exact ⟨_, hprepare column schema chunk _, fun _ h => ⟨schema, rfl, h⟩⟩
  | read _ v ih =>
    obtain ⟨P, hP, hcolumn⟩ := ih
    exact ⟨P, hread P _ v hP, hcolumn⟩

/-- `x` is in the dictionary, or among the values that a read leaves in a batch, whether it succeeds
or fails.  Without a preparation that succeeded, the reader must not be read -/
def ColumnReader.HandsOut (r : ColumnReader) (x : Value) : Prop :=
  x ∈ r.dictionary ∨
    r.progress ≠ .uninitialized ∧ ∃ v, x ∈ (ColumnReader.read (r, v)).2.2.values

def DeltaReader.HandsOut (r : DeltaReader) (x : Value) : Prop :=
  r.progress ≠ .uninitialized ∧ ∃ v, x ∈ (DeltaReader.read (r, v)).2.2.values

/-- Over any buffer, and after any calls with any schemas, chunks and batches, a reader hands out
only values of the column that it was bound to last, of the size that the type has there, and the
reader of their type is not misused on them. -/
theorem handsOut_ofColumn (buffer : Bytes) (o : Options) (last : Option SchemaElement) (x : Value) :
    (∀ r, Called ColumnReader.prepare ColumnReader.read (.ofBuffer buffer o) last r →
      r.HandsOut x → ∃ schema ∈ last, x.OfColumn schema ∧ ∃ d, x.Gives d ∧ x.datum = .ok d) ∧
    ∀ r, Called DeltaReader.prepare DeltaReader.read (.ofBuffer buffer o) last r →
      r.HandsOut x → ∃ schema ∈ last, x.OfColumn schema ∧ ∃ d, x.Gives d ∧ x.datum = .ok d := by
  constructor
  · intro r hcalled hout
    obtain ⟨P, hr, hcolumn⟩ := hcalled.typed ColumnReader.Typed
      (ColumnReader.typed_ofBuffer buffer o) ColumnReader.prepare_typed
      fun P r v h => (ColumnReader.read_all h v).1
    have hx : P x := by
      rcases hout with hx | ⟨hprepared, v, hx⟩
      · exact hr.dictionary x hx
      · exact (ColumnReader.read_all hr v).2 hprepared x hx
    obtain ⟨schema, hlast, hof⟩ := hcolumn x hx
    exact ⟨schema, hlast, hof, hof.gives⟩
  · intro r hcalled hout
    obtain ⟨P, hr, hcolumn⟩ := hcalled.typed DeltaReader.Typed
      (DeltaReader.typed_ofBuffer buffer o) DeltaReader.prepare_typed
      fun P r v h => (DeltaReader.read_all h v).1
    obtain ⟨hprepared, v, hx⟩ := hout
    obtain ⟨schema, hlast, hof⟩ := hcolumn x ((DeltaReader.read_all hr v).2 hprepared x hx)
    exact ⟨schema, hlast, hof, hof.gives⟩

/-- one buffer as a column of numbers, of which a read fails behind a first value, and then as one
of floating-point numbers, whose dictionary has the same bytes; and a delta column, of which a read
fails behind a first value as well -/
theorem handsOut_ofColumn_rebound :
    let buffer : Bytes := [21, 4, 21, 8, 21, 8, 76, 21, 2, 21, 0, 0, 0, 7, 0, 0, 0,
      21, 0, 21, 22, 21, 22, 44, 21, 4, 21, 16, 21, 6, 21, 6, 0, 0,
      2, 0, 0, 0, 4, 1, 1, 2, 0, 2, 1]
    let page : Bytes := [21, 4, 21, 18, 21, 18, 76, 21, 2, 21, 0, 0, 0,
      1, 0, 0, 0, 97, 255, 0, 0, 0]
    let first := ColumnReader.prepare 0 (.optional "n" .int32)
      (soleChunk "n" .int32 2 45 17 (some 0)) (.ofBuffer buffer {})
    let failed := ColumnReader.read (first.2, {})
    let second := ColumnReader.prepare 1 (.optional "x" .float)
      (soleChunk "x" .float 2 45 17 (some 0)) failed.2.1
    let delta := DeltaReader.prepare 0 (.optional "d" .byteArray)
      (soleChunk "d" .byteArray 1 22 0 (some 0)) (.ofBuffer page {})
    let torn := DeltaReader.read (delta.2, {})
    (failed.1 = .error (.error ⟨.indexOutOfRange 1 1, [.decodingColumn 0]⟩) ∧
      failed.2.2.values = [.int32 [7, 0, 0, 0]] ∧
      (Value.int32 [7, 0, 0, 0]).OfColumn (.optional "n" .int32)) ∧
    (second.2.dictionary = [.float [7, 0, 0, 0]] ∧
      (Value.float [7, 0, 0, 0]).OfColumn (.optional "x" .float)) ∧
    (torn.1 = .error (.error ⟨.readPastEnd 255 9 9, [.decodingDelta 9, .byteArrayAt 255 5]⟩) ∧
      torn.2.2.values = [.byteArray [1, 0, 0, 0, 97]] ∧
      (Value.byteArray [1, 0, 0, 0, 97]).OfColumn (.optional "d" .byteArray)) := by
  intro buffer page first failed second delta torn
  have hfailed : failed.1 = .error (.error ⟨.indexOutOfRange 1 1, [.decodingColumn 0]⟩) ∧
      failed.2.2.values = [.int32 [7, 0, 0, 0]] := by decide +kernel +zetaReduce
  have hready : first.2.progress ≠ .uninitialized := by decide +kernel +zetaReduce
  have hsecond : second.2.dictionary = [.float [7, 0, 0, 0]] := by decide +kernel +zetaReduce
  have htorn : torn.1 =
        .error (.error ⟨.readPastEnd 255 9 9, [.decodingDelta 9, .byteArrayAt 255 5]⟩) ∧
      torn.2.2.values = [.byteArray [1, 0, 0, 0, 97]] := by decide +kernel +zetaReduce
  have hdelta : delta.2.progress ≠ .uninitialized := by decide +kernel +zetaReduce
  have hfirst : ColumnReader.prepare 0 _ _ _ = first := rfl
  have hread : ColumnReader.read (first.2, {}) = failed := rfl
  have hrebound : ColumnReader.prepare 1 _ _ failed.2.1 = second := rfl
  have hprepared : DeltaReader.prepare 0 _ _ _ = delta := rfl
  have hread' : DeltaReader.read (delta.2, {}) = torn := rfl
  clear_value first failed second delta torn
  have hnew : Called ColumnReader.prepare ColumnReader.read (.ofBuffer buffer {}) none _ := .new
  have hcalled := hnew.prepared 0 (.optional "n" .int32) (soleChunk "n" .int32 2 45 17 (some 0))
  rw [hfirst] at hcalled
  have hagain := hcalled.read {}
  rw [hread] at hagain
  replace hagain := hagain.prepared 1 (.optional "x" .float)
    (soleChunk "x" .float 2 45 17 (some 0))
  rw [hrebound] at hagain
  have hnew' : Called DeltaReader.prepare DeltaReader.read (.ofBuffer page {}) none _ := .new
  have hcalled' := hnew'.prepared 0 (.optional "d" .byteArray)
    (soleChunk "d" .byteArray 1 22 0 (some 0))
  rw [hprepared] at hcalled'
  have hx : Value.int32 [7, 0, 0, 0] ∈ failed.2.2.values := by simp [hfailed.2]
  have hy : Value.float [7, 0, 0, 0] ∈ second.2.dictionary := by simp [hsecond]
  have hz : Value.byteArray [1, 0, 0, 0, 97] ∈ torn.2.2.values := by simp [htorn.2]
  obtain ⟨_, ⟨⟩, hint, -⟩ := (handsOut_ofColumn buffer {} _ _).1 _ hcalled
    (.inr ⟨hready, {}, hread ▸ hx⟩)
  obtain ⟨_, ⟨⟩, hfloat, -⟩ := (handsOut_ofColumn buffer {} _ _).1 _ hagain (.inl hy)
  obtain ⟨_, ⟨⟩, harray, -⟩ := (handsOut_ofColumn page {} _ _).2 _ hcalled'
    ⟨hdelta, {}, hread' ▸ hz⟩
  exact ⟨⟨hfailed.1, hfailed.2, hint⟩, ⟨hsecond, hfloat⟩, htorn.1, htorn.2, harray⟩

end Columnar
