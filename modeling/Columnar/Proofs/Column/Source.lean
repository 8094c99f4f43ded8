import Columnar.Column.Delta
import Columnar.Column.Reader
import Columnar.Proofs.Step

/-!
# Readers keep what they read from

Whatever is done with a reader, and whether it fails or not, the buffer and the options stay.

* `ColumnReader.Over buffer o r`, `DeltaReader.Over buffer o r`   `r` reads `buffer` under `o`.
-/

namespace Columnar

open Step

theorem Step.maintains_onFst {σ τ ε α : Type} {I : σ → Prop} {x : Step σ ε α}
    (hx : Maintains I Any x) : Maintains (fun s : σ × τ => I s.1) Any x.onFst :=
  fun s hs => ⟨(hx s.1 hs).1, fun _ _ => trivial⟩

namespace ColumnReader

variable {buffer : Bytes} {o : Options}

structure Over (buffer : Bytes) (o : Options) (r : ColumnReader) : Prop where
  buffer : r.buffer = buffer
  options : r.options = o

/-- to ask for the binding changes nothing -/
theorem bound_maintains {I : ColumnReader → Prop} : Maintains I Any bound := by
  apply maintains_bind (P := Any) (.of_forall fun _ h => h)
  intro r _
  split
  · exact maintains_pure trivial
  · exact maintains_fail _

theorem onChunk_over {α : Type} (x : Step Cursor Failure α) :
    Maintains (Over buffer o) Any (onChunk x) := maintains_on fun _ _ h => ⟨h.1, h.2⟩

theorem subtract_maintains {I : ColumnReader → Prop} (m n : Nat) :
    Maintains I Any (liftM (subtract m n) : Step ColumnReader Failure Nat) :=
  maintains_ofExcept fun _ _ => trivial

/-- to tell the size of a page changes nothing -/
theorem passed_maintains {I : ColumnReader → Prop} (start : Nat) :
    Maintains I Any (passed start) := by
  apply maintains_bind (P := Any) (.of_forall fun _ h => h)
  intro r _
  apply maintains_bind (subtract_maintains _ _)
  intro n _
  split
  · exact maintains_fail _
  · exact maintains_pure trivial

theorem loadDictionary_over : Maintains (Over buffer o) Any loadDictionary := by
  apply maintains_bind bound_maintains
  intro b _
  apply maintains_bind maintains_state
  intro r _
  split
  · split
    · exact maintains_fail _
    · apply maintains_bind (onChunk_over _)
      intro page _
      apply maintains_bind (P := Any) (maintains_lift fun _ _ => trivial)
      intro vs _
      exact maintains_bind (passed_maintains _) fun n _ => maintains_update fun _ h => ⟨h.1, h.2⟩
  · exact maintains_pure trivial

theorem enterPage_over (page : DataPage) (size : Nat) :
    Maintains (Over buffer o) Any (enterPage page size) := by
  apply maintains_bind maintains_state
  intro r hr
  split
  · exact maintains_fail _
  · split
    · exact maintains_fail _
    · apply maintains_bind bound_maintains
      intro b _
      apply maintains_bind (P := Any) (maintains_lift fun _ _ => trivial)
      intro opened _
      apply maintains_bind (subtract_maintains _ _)
      intro header _
      apply maintains_bind (subtract_maintains _ _)
      intro columnBytes _
      apply maintains_bind (subtract_maintains _ _)
      intro pageBytes _
      exact maintains_bind (maintains_put ⟨hr.1, hr.2⟩) fun _ _ => maintains_pure trivial

theorem openPage_over : Maintains (Over buffer o) Any openPage := by
  apply maintains_bind maintains_state
  intro r hr
  apply maintains_bind (subtract_maintains _ _)
  intro columnBytes _
  refine maintains_bind (maintains_put ⟨hr.1, hr.2⟩) fun _ _ => ?_
  apply maintains_bind (onChunk_over _)
  intro page _
  exact maintains_bind (passed_maintains _) fun n _ => enterPage_over page n.1

/-- preparing keeps the buffer and the options -/
theorem prepare_over (column : Nat) (schema : SchemaElement) (chunk : ColumnChunk) :
    Maintains (Over buffer o) Any (prepare column schema chunk) := by
  apply maintains_within
  refine maintains_bind (maintains_update fun _ h => ⟨h.1, h.2⟩) fun _ _ => ?_
  apply maintains_bind maintains_state
  intro r hr
  apply maintains_bind (P := Any) (maintains_lift fun _ _ => trivial)
  intro b _
  split
  · exact maintains_put ⟨hr.1, hr.2⟩
  · refine maintains_bind (maintains_put ⟨hr.1, hr.2⟩) fun _ _ => ?_
    apply maintains_bind loadDictionary_over
    intro _ _
    exact maintains_bind openPage_over fun _ _ => maintains_update fun _ h => ⟨h.1, h.2⟩

theorem takeBatch_over (count : Nat) :
    Maintains (fun s => Over buffer o s.1) Any (takeBatch count) := by
  apply Maintains.of_forall
  intro s hs
  unfold takeBatch
  split
  · exact hs
  · exact ⟨hs.1, hs.2⟩

theorem turnPage_over (b : Binding) : Maintains (Over buffer o) Any (turnPage b) := by
  apply maintains_bind maintains_state
  intro r _
  split
  · exact maintains_within openPage_over
  · exact maintains_pure trivial

theorem takePage_over (b : Binding) :
    Maintains (fun s => Over buffer o s.1) Any (takePage b) := by
  apply maintains_bind maintains_state
  intro s hs
  apply maintains_bind (maintains_within (takeBatch_over _))
  intro bytes _
  split
  · exact maintains_fail _
  · apply maintains_bind (P := Any) (maintains_ofExcept fun _ _ => trivial)
    intro _ _
    apply maintains_bind (P := Any) (maintains_ofExcept fun _ _ => trivial)
    intro _ _
    apply maintains_bind (P := Any) (maintains_ofExcept fun _ _ => trivial)
    intro _ _
    refine maintains_bind (maintains_update fun _ h => ⟨h.1, h.2⟩) fun _ _ => ?_
    exact maintains_pure trivial

theorem fill_over (fuel : Nat) : ∀ taken,
    Maintains (fun s => Over buffer o s.1) Any (fill fuel taken) := by
  induction fuel with
  | zero => exact fun _ => maintains_pure trivial
  | succ fuel ih =>
    intro taken
    apply maintains_bind maintains_state
    intro s _
    dsimp only
    split
    · apply maintains_bind (maintains_onFst bound_maintains)
      intro b _
      apply maintains_bind (maintains_onFst (turnPage_over b))
      intro upfront _
      exact maintains_bind (takePage_over b) fun bytes _ => ih _
    · exact maintains_pure trivial

/-- reading keeps the buffer and the options -/
theorem read_over : Maintains (fun s => Over buffer o s.1) Any read := by
  apply maintains_bind maintains_state
  intro s hs
  dsimp only
  split
  · exact maintains_fail _
  · refine maintains_bind (maintains_put hs) fun _ _ => ?_
    split
    · exact maintains_pure trivial
    · split
      · exact maintains_bind (maintains_put ⟨hs.1, hs.2⟩) fun _ _ => maintains_pure trivial
      · exact fill_over _ _

end ColumnReader

namespace DeltaReader

variable {buffer : Bytes} {o : Options}

structure Over (buffer : Bytes) (o : Options) (r : DeltaReader) : Prop where
  buffer : r.buffer = buffer
  options : r.options = o

theorem prepare_over (column : Nat) (schema : SchemaElement) (chunk : ColumnChunk) :
    Maintains (Over buffer o) Any (prepare column schema chunk) := by
  apply maintains_within
  refine maintains_bind (maintains_update fun _ h => ⟨h.1, h.2⟩) fun _ _ => ?_
  apply maintains_bind maintains_state
  intro r hr
  apply maintains_bind (P := Any) (maintains_lift fun _ _ => trivial)
  intro b _
  apply maintains_bind (P := Any) (maintains_ofExcept fun _ _ => trivial)
  intro page _
  exact maintains_put ⟨hr.1, hr.2⟩

theorem settle_over (s : DeltaReader × Batch) (h : Over buffer o s.1) :
    Over buffer o (settle s).1 := by
  unfold settle
  dsimp only
  split
  · exact ⟨h.1, h.2⟩
  · exact h

theorem read_over : Maintains (fun s => Over buffer o s.1) Any read := by
  apply maintains_bind maintains_state
  intro s hs
  dsimp only
  split
  · exact maintains_fail _
  · refine maintains_bind (maintains_put hs) fun _ _ => ?_
    split
    · exact maintains_pure trivial
    · exact maintains_bind (maintains_put ⟨hs.1, hs.2⟩) fun _ _ => maintains_pure trivial
    · refine maintains_bind (maintains_on fun _ _ h => ⟨h.1, h.2⟩) fun taken _ => ?_
      exact maintains_bind (maintains_update settle_over) fun _ _ => maintains_pure trivial

end DeltaReader

end Columnar
