import Columnar.Hybrid.Bits
import Columnar.Varint

/-!
# Reading the hybrid stream

A hybrid stream is a sequence of runs.  The header of a run is a variable-length number: when
it is even, its half counts the repetitions of one value, which follows in as many bytes as its
bits fill; when it is odd, its half counts groups of eight values, which follow packed.

* `Decoder.next`       the next value;
* `Decoder.nullMask`   up to sixteen levels of one bit at once, as the mask of the zeros.

Runs without values are passed over.  A stream has no length of its own: it is read as long as
its user wants values.
-/

namespace Columnar.Hybrid

/-- the values of a run that are still to come -/
inductive Run where
  | repeated (value left : Nat)
  /-- `left` values of a packed string, of which `index` were taken -/
  | packed (bytes : Bytes) (index left : Nat)
deriving DecidableEq

namespace Run

def left : Run → Nat
  | repeated _ n => n
  | packed _ _ n => n

/-- the first value, of `w` bits -/
def head (w : Nat) : Run → Nat
  | repeated v _ => v
  | packed bs i _ => unpack w bs i

/-- the run behind its first `n` values -/
def drop (n : Nat) : Run → Run
  | repeated v left => repeated v (left - n)
  | packed bs i left => packed bs (i + n) (left - n)

/-- the first `n` values of a run of levels, as the mask of the zeros -/
def zeros (n : Nat) : Run → Nat
  | repeated v _ => if v = 0 then 2 ^ n - 1 else 0
  | packed bs i _ => (2 ^ n - 1) ^^^ extract n bs i

end Run

structure Decoder where
  stream : Cursor
  /-- the bits of a value -/
  width : Nat
  run : Run := .repeated 0 0
deriving DecidableEq

namespace Decoder

def ofBytes (bs : Bytes) (width : Nat) : Except Error Decoder :=
  if width ≤ maxWidth then .ok { stream := .ofBytes bs, width }
  else .error (Fault.readWidthTooLarge width)

/-- the bytes that were read; a run is read as soon as its header is -/
def consumed (d : Decoder) : Nat := d.stream.pos

/-- the header of the next run; a header that cannot be read is not passed -/
def header : Step Decoder Error Nat := fun d =>
  if d.stream.rest.isEmpty then
    (.error (Fault.outOfRuns d.stream.size), d)
  else
    match Varint.read (.ofBytes d.stream.rest) with
    | (.ok n, c) =>
      (.ok n, { d with stream := ⟨c.before ++ d.stream.before, c.rest⟩ })
    | (.error e, _) => (.error e, d)

/-- the next `n` bytes of the stream -/
def body (n : Nat) : Step Decoder Error Bytes := fun d =>
  match Cursor.view n d.stream with
  | (.ok bs, c) => (.ok bs, { d with stream := c })
  | (.error _, c) => (.error (Fault.runPastEnd n c.pos c.size), { d with stream := c })

/-- the next run, with or without values; its size has to fit 64 bits -/
def readRun : Step Decoder Error Run := do
  let h ← header
  let width ← Step.look Decoder.width
  let count := h / 2
  if h % 2 = 1 then
    if count * width < 2 ^ 64 ∧ count * groupSize < 2 ^ 64 then
      let bs ← body (count * width)
      pure (.packed bs 0 (count * groupSize))
    else
      Step.fail (Fault.tooManyGroups count)
  else
    let bs ← body ((width + 7) / 8)
    pure (.repeated (fromLE bs) count)

/-- the next run with values, among the next `fuel` runs -/
def advance : Nat → Step Decoder Error Unit
  | 0 => pure ()
  | fuel + 1 => do
    let run ← readRun
    Step.update fun d => { d with run }
    if run.left = 0 then
      advance fuel

/-- stand in front of a value; every run takes a byte at least, so that the bytes left bound the
number of runs -/
def ready : Step Decoder Error Unit := do
  let d ← Step.state
  if d.run.left = 0 then
    advance (d.stream.remaining + 1)

def next : Step Decoder Error Nat := do
  ready
  let d ← Step.state
  Step.put { d with run := d.run.drop 1 }
  pure (d.run.head d.width)

/-- the number of bits set among the lowest sixteen -/
def popCount (mask : Nat) : Nat := (List.range 16).countP mask.testBit

/-- the most levels that one mask covers -/
def maskSize : Nat := 16

/-- the mask of the zeros among the next `count` levels, behind `filled` levels that are in
`mask` already; a run covers one level at least, so that `fuel` of them suffice for `fuel`
levels -/
def fillMask (count : Nat) : Nat → Nat → Nat → Step Decoder Error Nat
  | 0, _, mask => pure mask
  | fuel + 1, filled, mask => do
    if filled < count then
      ready
      let d ← Step.state
      let take := min d.run.left (count - filled)
      Step.put { d with run := d.run.drop take }
      fillMask count fuel (filled + take) (mask ||| (d.run.zeros take <<< filled))
    else
      pure mask

/-- the next `count` levels, at most sixteen: the mask of the zeros, and how many are not zero -/
def nullMask (count : Nat) : Step Decoder Failure (Nat × Nat) := do
  if maskSize < count then
    Step.fail (Misuse.maskTooLong count)
  else
    let mask ← (fillMask count count 0 0 : Step Decoder Error Nat)
    pure (mask, count - popCount mask)

end Decoder

end Columnar.Hybrid
