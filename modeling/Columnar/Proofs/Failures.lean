import Columnar.Proofs.Step
import Columnar.Varint

/-!
# How readers fail

Most faults are faults of the bytes.  Two are not: a page that is longer than its chunk has left,
and a batch that is longer than its page has left, would be faults of the counting.

* `Fault.Overrun f`     `f` is one of these two;
* `Failure.Regular e`   an error of another fault, and no misuse.
-/

namespace Columnar

open Step

/-- more was taken than was counted -/
def Fault.Overrun : Fault → Prop
  | pagePastChunk .. | batchPastPage .. => True
  | _ => False

def Error.Regular (e : Error) : Prop := ¬ e.fault.Overrun

def Failure.Regular : Failure → Prop
  | error e => e.Regular
  | misuse _ => False

theorem Failure.Regular.within {e : Failure} (h : e.Regular) (c : Context) :
    (Contextual.within c e : Failure).Regular := by
  cases e with
  | error e => exact h
  | misuse m => exact h

theorem Failure.Regular.ne_misuse {e : Failure} (h : e.Regular) (m : Misuse) : e ≠ .misuse m := by
  rintro rfl
  exact h

variable {σ α : Type} {I : σ → Prop}

/-- a step that fails with errors, among steps that fail with failures -/
theorem Step.fails_lift {x : Step σ Error α} (h : Fails I Error.Regular x) :
    Fails I Failure.Regular (x : Step σ Failure α) := fails_mapError h fun _ he => he

theorem Step.fails_liftExcept {r : Except Error α} (h : ∀ e, r = .error e → e.Regular) :
    Fails I Failure.Regular (liftM r : Step σ Failure α) := by
  cases r with
  | error e => exact fails_fail (h e rfl)
  | ok a => exact fails_pure a

/-! ## bytes and numbers -/

namespace Cursor

variable {I : Cursor → Prop}

theorem view_fails (n : Nat) : Fails I Error.Regular (view n) := by
  intro c _ e he
  rw [view_eq] at he
  split at he
  · cases he
  · cases he
    exact fun h => h

theorem byte_fails : Fails I Error.Regular byte := by
  intro c _ e he
  unfold byte at he
  split at he
  · cases he
  · cases he
    exact fun h => h

end Cursor

theorem Varint.readGroups_fails (budget : Nat) :
    Fails (fun _ => True) Error.Regular (readGroups budget) := by
  induction budget with
  | zero =>
    exact fails_bind (maintains_any _) (fails_look _) fun _ _ => fails_fail fun h => h
  | succ budget ih =>
    refine fails_bind (maintains_any _) Cursor.byte_fails fun b _ => ?_
    split
    · exact fails_pure _
    · exact fails_bind (maintains_any _) ih fun _ _ => fails_pure _

theorem Varint.read_fails : Fails (fun _ => True) Error.Regular read :=
  fails_bind (maintains_any _) (readGroups_fails _) fun _ _ => fails_pure _

end Columnar
