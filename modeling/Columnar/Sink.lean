import Columnar.Step

/-!
# Sinks

A sink takes byte strings, each in one call, and takes or refuses a call as a whole.  What it
does with a call may depend on all calls before it.

* `Sink.unbounded`     takes every call;
* `Sink.holding bs`    takes every call behind `bs`;
* `Sink.ofCapacity n`  takes a call as long as no more than `n` bytes are taken in all;
* `Sink.write`         one call; nothing is called for an empty string.
-/

namespace Columnar

structure Sink where
  /-- whether a call is taken, given the calls before it and their fate, the latest first -/
  admits : List (Bytes × Bool) → Bytes → Bool
  log : List (Bytes × Bool) := []

namespace Sink

/-- the calls of a log that were taken, in order -/
def takenOf (log : List (Bytes × Bool)) : List Bytes :=
  (log.filter Prod.snd).reverse.map Prod.fst

/-- the calls that were taken, in order -/
def taken (s : Sink) : List Bytes := takenOf s.log

/-- the bytes that were taken -/
def bytes (s : Sink) : Bytes := s.taken.flatten

def unbounded : Sink := { admits := fun _ _ => true }

/-- a sink that takes every call, and holds `bs` already -/
def holding (bs : Bytes) : Sink := { unbounded with log := [(bs, true)] }

def ofCapacity (n : Nat) : Sink :=
  { admits := fun log bs => (takenOf log).flatten.length + bs.length ≤ n }

/-- the refusal of a call -/
def refusal : Fault := .io "sink full"

/-- one call with all of `bs` -/
def write (bs : Bytes) : Step Sink Error Unit := fun s =>
  if bs.isEmpty then (.ok (), s)
  else if s.admits s.log bs then (.ok (), { s with log := (bs, true) :: s.log })
  else (.error refusal, { s with log := (bs, false) :: s.log })

theorem bytes_write_ok {bs : Bytes} {s s' : Sink} (h : write bs s = (.ok (), s')) :
    s'.bytes = s.bytes ++ bs := by
  unfold write at h
  split at h
  · rename_i he
    cases h
    simp [List.isEmpty_iff.mp he]
  · split at h
    · cases h
      simp [bytes, taken, takenOf]
    · cases h

theorem bytes_write_error {bs : Bytes} {s s' : Sink} {e : Error} (h : write bs s = (.error e, s')) :
    s'.bytes = s.bytes := by
  unfold write at h
  split at h
  · cases h
  · split at h
    · cases h
    · cases h
      simp [bytes, taken, takenOf]

end Sink

end Columnar
