import Columnar.Step

/-!
# Pools

Row groups, column chunks and their metadata are bounded in number.  Each of the three kinds has
a pool of numbered slots, and a record is only kept while it holds a slot.

* `Limits`          how many files, row groups and columns there may be;
* `Pools.acquire`   takes the slot that was given back last, and at first the lowest;
* `Pools.release`   gives a slot back.
-/

namespace Columnar

structure Limits where
  maxFiles : Nat := 4
  maxRowGroups : Nat := 64
  maxColumns : Nat := 64
deriving DecidableEq

namespace Limits

/-- a product that has to fit 64 bits -/
def product (a b : Nat) : Except Misuse Nat :=
  if a * b < 2 ^ 64 then .ok (a * b) else .error .multiplyOverflow

def rowGroups (l : Limits) : Except Misuse Nat := product l.maxFiles l.maxRowGroups

def columnChunks (l : Limits) : Except Misuse Nat := do
  let n ← l.rowGroups
  product n l.maxColumns

end Limits

/-- a slot that is held -/
structure Slot where
  kind : RecordKind
  index : Nat
deriving DecidableEq

def Slot.text (s : Slot) : String := s!"PoolSlot({s.kind.name}#{s.index})"

structure Pool where
  capacity : Nat
  /-- the slots that nobody holds, the next one first -/
  free : List Nat
deriving DecidableEq

namespace Pool

/-- a pool of which nothing is held; slots are numbered with 32 bits, and the last number is
never used -/
def ofCapacity (n : Nat) : Pool :=
  let capacity := min n (2 ^ 32 - 1)
  { capacity, free := List.range capacity }

def available (p : Pool) : Nat := p.free.length

def used (p : Pool) : Nat := p.capacity - p.available

end Pool

structure Pools where
  rowGroups : Pool
  columnChunks : Pool
  columnMetaData : Pool
deriving DecidableEq

namespace Pools

def ofLimits (l : Limits) : Except Misuse Pools := do
  let groups ← l.rowGroups
  let chunks ← l.columnChunks
  pure ⟨.ofCapacity groups, .ofCapacity chunks, .ofCapacity chunks⟩

/-- the kinds that are bounded -/
def kinds : List RecordKind := [.rowGroup, .columnChunk, .columnMetaData]

def pool? (p : Pools) : RecordKind → Option Pool
  | .rowGroup => some p.rowGroups
  | .columnChunk => some p.columnChunks
  | .columnMetaData => some p.columnMetaData
  | _ => none

def setPool (p : Pools) (kind : RecordKind) (q : Pool) : Pools :=
  match kind with
  | .rowGroup => { p with rowGroups := q }
  | .columnChunk => { p with columnChunks := q }
  | .columnMetaData => { p with columnMetaData := q }
  | _ => p

/-- the number of slots of a kind, none for a kind that is not bounded -/
def capacity (p : Pools) (kind : RecordKind) : Nat := ((p.pool? kind).map Pool.capacity).getD 0

/-- the number of slots of a kind that nobody holds -/
def available (p : Pools) (kind : RecordKind) : Nat := ((p.pool? kind).map Pool.available).getD 0

/-- a slot for a record -/
def acquire (kind : RecordKind) : Step Pools Error Slot := do
  let p ← Step.state
  match p.pool? kind with
  | none => Step.fail (Fault.notPooled kind)
  | some q =>
    match q.free with
    | [] => Step.fail (Fault.poolExhausted kind q.capacity)
    | i :: free =>
      Step.put (p.setPool kind { q with free })
      pure ⟨kind, i⟩

/-- the pools with a slot given back -/
def release (p : Pools) (s : Slot) : Pools :=
  match p.pool? s.kind with
  | none => p
  | some q => p.setPool s.kind { q with free := s.index :: q.free }

/-- the pools with slots given back, one after the other -/
def releaseAll (p : Pools) (slots : List Slot) : Pools := slots.foldl release p

/-- a slot for each of several records, or none at all: those that were taken before one is
missing are given back -/
def acquireAll : List RecordKind → List Slot → Step Pools Error (List Slot)
  | [], held, p => (.ok held.reverse, p)
  | kind :: kinds, held, p =>
    match acquire kind p with
    | (.ok s, p) => acquireAll kinds (s :: held) p
    | (.error e, p) => (.error e, p.releaseAll held.reverse)

/-- the pools with their kinds, how many slots are held, and how many there are -/
def text (p : Pools) : String :=
  let entry (kind : RecordKind) (q : Pool) := s!"{kind.name}: ({q.used}, {q.capacity})"
  "\x7b" ++ ", ".intercalate [entry .rowGroup p.rowGroups, entry .columnChunk p.columnChunks,
    entry .columnMetaData p.columnMetaData] ++ "\x7d"

end Pools

end Columnar
