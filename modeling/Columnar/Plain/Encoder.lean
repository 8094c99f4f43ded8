import Columnar.Sink

/-!
# Writing plain values

The other direction of `Columnar.Plain.Decoder`.  Two things wait before they reach the sink:

* a span of a source, which grows as long as the next span continues it, so that neighbouring
  spans are one call;
* the bits of booleans, until they fill a byte or something else is written.

Whatever is written next is preceded by what waits.  A span that the sink refuses is lost; bits
that it refuses keep waiting.
-/

namespace Columnar.Plain

/-- a buffer that spans are taken from; two sources are told apart by `id`, not by their bytes -/
structure Source where
  id : Nat
  bytes : Bytes
deriving DecidableEq

/-- the bytes of a source from `start` up to `stop` -/
structure Span where
  source : Source
  start : Nat
  stop : Nat
deriving DecidableEq

namespace Span

def bytes (s : Span) : Bytes := (s.source.bytes.drop s.start).take (s.stop - s.start)

def length (s : Span) : Nat := s.stop - s.start

/-- whether `t` goes on where `s` ends -/
def ContinuedBy (s t : Span) : Prop := s.source.id = t.source.id ∧ s.stop = t.start

instance (s t : Span) : Decidable (s.ContinuedBy t) := inferInstanceAs (Decidable (_ ∧ _))

end Span

structure Encoder where
  sink : Sink
  /-- a span that the sink was not called for yet -/
  pending : Option Span := none
  /-- the booleans that do not fill a byte yet -/
  bits : UInt8 := 0
  bitCount : Nat := 0
  /-- the bytes that the sink took -/
  flushed : Nat := 0

namespace Encoder

/-- the bytes written so far, with those that wait; a started byte of booleans counts as one -/
def encodedLen (e : Encoder) : Nat :=
  e.flushed + (e.pending.map Span.length).getD 0 + if e.bitCount = 0 then 0 else 1

/-- one call to the sink, counted when it is taken -/
def call (bs : Bytes) : Step Encoder Error Unit := do
  (Sink.write bs).on Encoder.sink fun e s => { e with sink := s }
  Step.update fun e => { e with flushed := e.flushed + bs.length }

/-- write the waiting span; it no longer waits, whether it is taken or not -/
def flushPending : Step Encoder Error Unit := do
  let e ← Step.state
  match e.pending with
  | none => pure ()
  | some s =>
    Step.put { e with pending := none }
    call s.bytes

/-- write the waiting bits as a byte -/
def flushBits : Step Encoder Error Unit := do
  let e ← Step.state
  if e.bitCount ≠ 0 then
    call [e.bits]
    Step.update fun e => { e with bits := 0, bitCount := 0 }

/-- write `bs` behind what waits -/
def direct (bs : Bytes) : Step Encoder Error Unit := do
  flushPending
  flushBits
  call bs

/-- a span of values that are plain already -/
def span (s : Span) : Step Encoder Error Unit := do
  if s.stop < s.start ∨ s.source.bytes.length < s.stop then
    Step.fail (Fault.spanOutside s.start s.stop s.source.bytes.length)
  else
    flushBits
    let e ← Step.state
    match e.pending with
    | some p =>
      if p.ContinuedBy s then
        Step.put { e with pending := some { p with stop := s.stop } }
      else
        flushPending
        Step.update fun e => { e with pending := some s }
    | none => Step.put { e with pending := some s }

/-- a number in `width` bytes -/
def scalar (width n : Nat) : Step Encoder Error Unit := direct (toLE width n)

/-- a byte array behind its length, in two calls -/
def byteArray (bs : Bytes) : Step Encoder Error Unit := do
  if 2 ^ 32 ≤ bs.length then
    Step.fail (Fault.byteArrayTooLong bs.length)
  else
    direct (toLE 4 bs.length)
    direct bs

/-- a byte array of fixed length -/
def fixed (bs : Bytes) : Step Encoder Error Unit := direct bs

/-- a boolean; eight of them are a byte.  A byte that the sink refused leaves no room for a
ninth bit -/
def bool (b : Bool) : Step Encoder Failure Unit := do
  flushPending
  let e ← Step.state
  if 8 ≤ e.bitCount then
    Step.fail Misuse.shiftOverflow
  else
    Step.put { e with
      bits := e.bits ||| (b.toUInt8 <<< UInt8.ofNat e.bitCount)
      bitCount := e.bitCount + 1 }
    if e.bitCount + 1 = 8 then
      flushBits

/-- write all that waits -/
def finish : Step Encoder Error Unit := do
  flushPending
  flushBits

end Encoder

end Columnar.Plain
