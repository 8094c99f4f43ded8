import Columnar.Hybrid.Bits

/-!
# Dictionaries

A dictionary lists the values of a column once each, in the order in which they are first met.
A slot is then the place of its value in that list.
-/

namespace Columnar

/-- the entries of a dictionary, by their bytes -/
structure Dictionary where
  entries : List Bytes
deriving DecidableEq

namespace Dictionary

/-- the values of slots, each once -/
def ofSlots (slots : List (Option Bytes)) : Dictionary := ⟨(slots.filterMap id).eraseDups⟩

/-- the place of each slot's value -/
def indices (d : Dictionary) (slots : List (Option Bytes)) : List (Option Nat) :=
  slots.map fun slot => slot.map d.entries.idxOf

/-- the bits of an index; the number of entries is taken in 32 bits -/
def bitWidth (d : Dictionary) : Nat := Hybrid.bitWidth ((d.entries.length - 1) % 2 ^ 32)

end Dictionary

end Columnar
