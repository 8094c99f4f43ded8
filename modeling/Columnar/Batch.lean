import Columnar.Step
import Columnar.Value

/-!
# Batches

A batch is what one read of a column yields: up to sixteen slots, each with a value or empty.
The values stand one behind the other, and a mask says which slots are empty: bit `i` is set
when slot `i` is.

* `Batch.push`       one more value;
* `Batch.pushEach`   more values, each read before it is put in;
* `Batch.cover`      more slots, by the mask of the empty ones among them;
* `Batch.slots`      the slots in order, `none` for an empty one.
-/

namespace Columnar

/-- the most slots of a batch -/
def batchSize : Nat := 16

structure Batch where
  values : List Value := []
  /-- the number of slots -/
  total : Nat := 0
  /-- the mask of the empty slots -/
  nulls : Nat := 0
deriving DecidableEq

namespace Batch

/-- one more value, of which a batch holds no more than slots -/
def push (v : Value) : Step Batch Failure Unit := do
  let b ← Step.state
  if b.values.length < batchSize then
    Step.put { b with values := b.values ++ [v] }
  else
    Step.fail Misuse.vectorFull

/-- `n` values more, each read and put into the batch before the next -/
def pushEach {σ : Type} (x : Step σ Failure Value) : Nat → Step (σ × Batch) Failure Unit
  | 0 => pure ()
  | n + 1 => do
    let v ← x.onFst
    (push v).onSnd
    pushEach x n

/-- `count` more slots behind those there are -/
def cover (count nulls : Nat) (b : Batch) : Batch :=
  { b with total := b.total + count, nulls := b.nulls ||| (nulls <<< b.total) }

/-- whether a slot is empty -/
def isNull (b : Batch) (slot : Nat) : Except Misuse Bool :=
  if slot < b.total then .ok (b.nulls.testBit slot) else .error (.slotOutside slot b.total)

/-- the slots from `slot` on, given the values that are left -/
def slotsFrom (nulls : Nat) : Nat → Nat → List Value → List (Option Value)
  | 0, _, _ => []
  | n + 1, slot, vs =>
    if nulls.testBit slot then none :: slotsFrom nulls n (slot + 1) vs
    else vs.head? :: slotsFrom nulls n (slot + 1) vs.tail

/-- the slots in order -/
def slots (b : Batch) : List (Option Value) := slotsFrom b.nulls b.total 0 b.values

end Batch

end Columnar
