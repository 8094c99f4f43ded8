import Columnar.Hybrid.Encoder

/-!
# Definition levels

The slots of a page begin with one level each: 1 for a slot that holds a value, 0 for an empty
one.  Levels are a hybrid stream of one-bit values behind its length in four bytes.
-/

namespace Columnar

/-- the levels of slots -/
def encodeLevels (defined : List Bool) : Except Error Bytes := do
  let bs ← Hybrid.encode 1 (defined.map Bool.toNat)
  pure (toLE 4 bs.length ++ bs)

/-- the levels at the front of a page, and the values behind them -/
def splitLevels (page : Bytes) : Except Error (Bytes × Bytes) :=
  match splitFirst? 4 page with
  | none => .error (Fault.noLevels page.length)
  | some (len, rest) =>
    match splitFirst? (fromLE len) rest with
    | some split => .ok split
    | none => .error (Fault.levelsPastEnd (fromLE len) page.length)

end Columnar
