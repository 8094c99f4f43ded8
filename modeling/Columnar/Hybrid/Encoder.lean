import Columnar.Hybrid.Bits
import Columnar.Varint

/-!
# Writing the hybrid stream

The values of a batch are cut where they change.  A value that stands eight times or more in a
row becomes a repeated run, after as many of its repetitions as complete the group of packed
values before it; all else is packed, the last group filled with zeros.

* `runs`             the values of a batch with their repetitions;
* `Piece`            what a batch becomes: repeated and packed runs;
* `Encoder.encode`   a batch at the end of a stream; a value that does not fit leaves the stream
                     as it is.
-/

namespace Columnar.Hybrid

/-- the fewest repetitions that become a run of their own -/
def minRepeats : Nat := 8

/-- a list as values and how often each stands in a row -/
def runs : List Nat → List (Nat × Nat)
  | [] => []
  | v :: vs =>
    match runs vs with
    | (u, n) :: rest => if u = v then (v, n + 1) :: rest else (v, 1) :: (u, n) :: rest
    | [] => [(v, 1)]

/-- a run as it is written -/
inductive Piece where
  | repeated (value count : Nat)
  /-- packed values, to be filled up to a whole number of groups -/
  | packed (values : List Nat)
deriving DecidableEq

/-- packed values as a run; no values make no run -/
def literals (vs : List Nat) : List Piece := if vs = [] then [] else [.packed vs]

/-- the pieces of a batch, given the values that wait to be packed -/
def pieces (waiting : List Nat) : List (Nat × Nat) → List Piece
  | [] => literals waiting
  | (v, n) :: rest =>
    if n < minRepeats then
      pieces (waiting ++ List.replicate n v) rest
    else
      let fill := (groupSize - waiting.length % groupSize) % groupSize
      let before := literals (waiting ++ List.replicate fill v)
      if n - fill < minRepeats then
        before ++ pieces (List.replicate (n - fill) v) rest
      else
        before ++ .repeated v (n - fill) :: pieces [] rest

/-- the bytes of a piece of values of `w` bits -/
def Piece.bytes (w : Nat) : Piece → Bytes
  | repeated v n => Varint.encode (2 * n) ++ toLE ((w + 7) / 8) v
  | packed vs =>
    let groups := (vs.length + 7) / 8
    Varint.encode (2 * groups + 1) ++ packGroups w groups vs

structure Encoder where
  width : Nat
  bytes : Bytes := []
deriving DecidableEq

namespace Encoder

def ofWidth (width : Nat) : Except Error Encoder :=
  if width ≤ maxWidth then .ok { width } else .error (Fault.writtenWidthTooLarge width)

/-- the stream with a batch behind it -/
def encode (e : Encoder) (vs : List Nat) : Except Error Encoder :=
  match vs.find? fun v => e.width < bitWidth v with
  | some v => .error (Fault.valueTooWide v e.width)
  | none => .ok { e with bytes := e.bytes ++ (pieces [] (runs vs)).flatMap (Piece.bytes e.width) }

end Encoder

/-- the bytes of one batch -/
def encode (width : Nat) (vs : List Nat) : Except Error Bytes := do
  let e ← Encoder.ofWidth width
  let e ← e.encode vs
  pure e.bytes

end Columnar.Hybrid
