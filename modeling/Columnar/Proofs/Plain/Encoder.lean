import Columnar.Plain.Encoder
import Columnar.Plain.Layout
import Columnar.Proofs.Step

/-!
# Calls to an encoder of plain values

An encoder is called in any order, over any sink, and called on when a call failed.  Of the two
things that may wait, a span and the bits of booleans, only one does at a time, so that whatever
has to be written first is one call to the sink.

* `Sink.Refuses s bs`       the sink does not take a call with `bs`;
* `Op`                      a call to an encoder;
* `Encoder.run e ops`       the encoder after calls, answered or not;
* `Encoder.accepted e ops`  the calls among them that were answered;
* `Encoder.waits e`         the bytes that wait;
* `Encoder.Apart e`         only one thing waits.

`finish_ends` says what becomes of the bytes that wait, and every other call is reduced to it: it
adds to what waits (`span_joined`, `bool_next`), has it written first (`span_apart`, `direct_eq`,
`bool_first`), or both (`bool_last`).  `bool_full` is the call that can do neither.
-/

namespace Columnar

/-! ## calls to a sink -/

namespace Sink

variable {s s' : Sink} {bs : Bytes}

/-- the calls for a byte string: none when it is empty -/
def calls (bs : Bytes) : List Bytes := if bs = [] then [] else [bs]

/-- a call with `bs` is made and not taken -/
def Refuses (s : Sink) (bs : Bytes) : Prop := bs ≠ [] ∧ s.admits s.log bs = false

theorem calls_nil : calls [] = [] := rfl

theorem calls_of_ne (h : bs ≠ []) : calls bs = [bs] := if_neg h

theorem flatten_calls (bs : Bytes) : (calls bs).flatten = bs := by
  by_cases h : bs = []
  · rw [h]
    rfl
  · rw [calls_of_ne h, List.flatten_singleton]

/-- what a call does to a sink -/
theorem write_ends (bs : Bytes) (s : Sink) : Step.Ends
    (fun _ z => ¬ s.Refuses bs ∧ z.taken = s.taken ++ calls bs ∧ z.admits = s.admits)
    (fun _ z => s.Refuses bs ∧ z.taken = s.taken ∧ z.admits = s.admits) (write bs s) := by
  unfold write
  by_cases hnil : bs = []
  · rw [hnil]
    exact ⟨fun h => h.1 rfl, (List.append_nil _).symm, rfl⟩
  · rw [if_neg fun h => hnil (List.isEmpty_iff.mp h)]
    by_cases hadmits : s.admits s.log bs = true
    · rw [if_pos hadmits]
      refine ⟨fun h => Bool.noConfusion (h.2.symm.trans hadmits), ?_, rfl⟩
      rw [calls_of_ne hnil]
      simp [taken, takenOf]
    · rw [if_neg hadmits]
      exact ⟨⟨hnil, eq_false_of_ne_true hadmits⟩, by simp [taken, takenOf], rfl⟩

end Sink

namespace Plain

/-! ## calls to an encoder -/

/-- a call to an encoder; a source is given by its number -/
inductive Op where
  | span (source start stop : Nat)
  | scalar (width n : Nat)
  | byteArray (bs : Bytes)
  | fixed (bs : Bytes)
  | bool (b : Bool)
deriving DecidableEq

section
variable (buffers : Nat → Bytes)

/-- a part of the source with a number -/
def part (source start stop : Nat) : Span := ⟨⟨source, buffers source⟩, start, stop⟩

/-- neighbouring parts -/
theorem bytes_part_append (source : Nat) {start mid stop : Nat} (h : start ≤ mid)
    (h' : mid ≤ stop) :
    (part buffers source start mid).bytes ++ (part buffers source mid stop).bytes =
      (part buffers source start stop).bytes := by
  have hlen : stop - start = (mid - start) + (stop - mid) := by omega
  have hdrop : start + (mid - start) = mid := by omega
  simp only [part, Span.bytes]
  rw [hlen, List.take_add, List.drop_drop, hdrop]

namespace Op

/-- a span lies in its source, and the length of a byte array fits its four bytes -/
def Valid : Op → Prop
  | span source start stop => start ≤ stop ∧ stop ≤ (buffers source).length
  | byteArray bs => bs.length < 2 ^ 32
  | _ => True

instance (op : Op) : Decidable (op.Valid buffers) := by
  cases op <;> unfold Valid <;> infer_instance

/-- its own bytes; a boolean shares its byte with others -/
def bytes : Op → Bytes
  | span source start stop => (part buffers source start stop).bytes
  | scalar width n => toLE width n
  | byteArray bs => Plain.byteArray bs
  | fixed bs => bs
  | bool _ => []

def step : Op → Step Encoder Failure Unit
  | span source start stop => (Encoder.span (part buffers source start stop)).mapError .error
  | scalar width n => (Encoder.scalar width n).mapError .error
  | byteArray bs => (Encoder.byteArray bs).mapError .error
  | fixed bs => (Encoder.fixed bs).mapError .error
  | bool b => Encoder.bool b

end Op

namespace Encoder

/-- the encoder after calls, answered or not -/
def run (e : Encoder) (ops : List Op) : Encoder := ops.foldl (fun e op => (op.step buffers e).2) e

/-- the encoder that writes to `z`, after calls -/
def after (z : Sink) (ops : List Op) : Encoder := run buffers { sink := z } ops

/-- the calls that were answered -/
def accepted (e : Encoder) : List Op → List Op
  | [] => []
  | op :: ops =>
    match op.step buffers e with
    | (.ok _, e') => op :: accepted e' ops
    | (.error _, e') => accepted e' ops

end Encoder

end

namespace Encoder

variable {buffers : Nat → Bytes} {e e' : Encoder} {op : Op} {ops : List Op}

theorem run_append (e : Encoder) (ops ops' : List Op) :
    e.run buffers (ops ++ ops') = (e.run buffers ops).run buffers ops' := List.foldl_append

theorem run_concat (e : Encoder) (ops : List Op) (op : Op) :
    e.run buffers (ops ++ [op]) = (op.step buffers (e.run buffers ops)).2 := run_append e ops [op]

theorem accepted_append (e : Encoder) (ops ops' : List Op) :
    e.accepted buffers (ops ++ ops') =
      e.accepted buffers ops ++ (e.run buffers ops).accepted buffers ops' := by
  induction ops generalizing e with
  | nil => rfl
  | cons op ops ih =>
    rw [List.cons_append, accepted, accepted]
    rcases h : op.step buffers e with ⟨x | _, e'⟩
    · dsimp only
      rw [ih, run, run, List.foldl_cons, h]
    · dsimp only
      rw [ih, run, run, List.foldl_cons, h, List.cons_append]

theorem accepted_ok (h : op.step buffers e = (.ok (), e')) : e.accepted buffers [op] = [op] := by
  rw [accepted, h]
  rfl

theorem accepted_error {x : Failure} (h : op.step buffers e = (.error x, e')) :
    e.accepted buffers [op] = [] := by
  rw [accepted, h]
  rfl

/-! ## what waits -/

/-- the bytes that wait -/
def waits (e : Encoder) : Bytes :=
  (e.pending.map Span.bytes).getD [] ++ if e.bitCount = 0 then [] else [e.bits]

/-- a span waits or bits do, not both -/
structure Apart (e : Encoder) : Prop where
  apart : e.pending = none ∨ e.bitCount = 0
  bits : e.bitCount = 0 → e.bits = 0

/-- a span that waits is a part of a source -/
def Sourced (buffers : Nat → Bytes) (e : Encoder) : Prop :=
  ∀ p ∈ e.pending, ∃ i start stop,
    p = part buffers i start stop ∧ (Op.span i start stop).Valid buffers

theorem sourced_none (h : e.pending = none) : e.Sourced buffers := by
  intro p hp
  rw [h] at hp
  exact nomatch hp

theorem Apart.zero (h : e.Apart) {p : Span} (hp : e.pending = some p) : e.bitCount = 0 :=
  h.apart.resolve_left fun hn => nomatch hn.symm.trans hp

theorem Apart.none (h : e.Apart) (hb : e.bitCount ≠ 0) : e.pending = none :=
  h.apart.resolve_right hb

theorem apart_start (z : Sink) : ({ sink := z } : Encoder).Apart := ⟨.inl rfl, fun _ => rfl⟩

theorem waits_span {p : Span} (hp : e.pending = some p) (hb : e.bitCount = 0) :
    e.waits = p.bytes := by
  rw [waits, hp, if_pos hb]
  exact List.append_nil _

theorem waits_pending (hb : e.bitCount = 0) (p : Span) :
    ({ e with pending := some p } : Encoder).waits = p.bytes :=
  waits_span (e := { e with pending := some p }) rfl hb

theorem waits_bits (hp : e.pending = none) (hb : e.bitCount ≠ 0) : e.waits = [e.bits] := by
  rw [waits, hp, if_neg hb]
  rfl

theorem waits_nil (hp : e.pending = none) (hb : e.bitCount = 0) : e.waits = [] := by
  rw [waits, hp, if_pos hb]
  rfl

/-! ## what becomes of it -/

/-- `e'` is `e` behind a call with `bs` that was taken -/
structure Took (e : Encoder) (bs : Bytes) (e' : Encoder) : Prop where
  takes : ¬ e.sink.Refuses bs
  taken : e'.sink.taken = e.sink.taken ++ Sink.calls bs
  admits : e'.sink.admits = e.sink.admits
  flushed : e'.flushed = e.flushed + bs.length

/-- `e'` is `e` behind a call with `bs` that was refused -/
structure Missed (e : Encoder) (bs : Bytes) (e' : Encoder) : Prop where
  refuses : e.sink.Refuses bs
  taken : e'.sink.taken = e.sink.taken
  admits : e'.sink.admits = e.sink.admits
  flushed : e'.flushed = e.flushed

theorem Took.bytes {bs : Bytes} (h : e.Took bs e') : e'.sink.bytes = e.sink.bytes ++ bs := by
  rw [Sink.bytes, h.taken, List.flatten_append, Sink.flatten_calls]
  rfl

theorem Missed.bytes {bs : Bytes} (h : e.Missed bs e') : e'.sink.bytes = e.sink.bytes :=
  congrArg List.flatten h.taken

theorem took_nil (e : Encoder) : e.Took [] e :=
  ⟨fun h => h.1 rfl, (List.append_nil _).symm, rfl, rfl⟩

/-- a call to the sink changes nothing that waits -/
theorem call_ends (bs : Bytes) (e : Encoder) : Step.Ends
    (fun _ e' => e.Took bs e' ∧
      e'.pending = e.pending ∧ e'.bits = e.bits ∧ e'.bitCount = e.bitCount)
    (fun _ e' => e.Missed bs e' ∧
      e'.pending = e.pending ∧ e'.bits = e.bits ∧ e'.bitCount = e.bitCount) (call bs e) := by
  have h := Sink.write_ends bs e.sink
  rcases hw : Sink.write bs e.sink with ⟨x | _, z⟩
  · rw [hw] at h
    have hon : (Sink.write bs).on sink (fun e s => { e with sink := s }) e =
        (.error x, { e with sink := z }) := by rw [Step.on_apply, hw]
    rw [call, Step.bind_error hon]
    exact ⟨⟨h.1, h.2.1, h.2.2, rfl⟩, rfl, rfl, rfl⟩
  · rw [hw] at h
    have hon : (Sink.write bs).on sink (fun e s => { e with sink := s }) e =
        (.ok (), { e with sink := z }) := by rw [Step.on_apply, hw]
    rw [call, Step.bind_ok hon]
    exact ⟨⟨h.1, h.2.1, h.2.2, rfl⟩, rfl, rfl, rfl⟩

theorem flushPending_none (h : e.pending = none) : flushPending e = (.ok (), e) := by
  rw [flushPending, Step.state_bind, h]
  rfl

theorem flushPending_some {p : Span} (h : e.pending = some p) :
    flushPending e = call p.bytes { e with pending := none } := by
  rw [flushPending, Step.state_bind, h]
  rfl

theorem flushBits_zero (h : e.bitCount = 0) : flushBits e = (.ok (), e) := by
  rw [flushBits, Step.state_bind, if_neg (not_not_intro h)]
  rfl

theorem flushBits_ne (h : e.bitCount ≠ 0) : flushBits e =
    (do call [e.bits]; Step.update fun e => { e with bits := 0, bitCount := 0 }) e := by
  rw [flushBits, Step.state_bind, if_pos h]

theorem call_keeps (bs : Bytes) (e : Encoder) : (call bs e).2.pending = e.pending ∧
    (call bs e).2.bits = e.bits ∧ (call bs e).2.bitCount = e.bitCount :=
  ((call_ends bs e).mono (fun _ _ h => h.2) fun _ _ h => h.2).snd

/-- bits that are refused wait on -/
theorem flushBits_ends (h : e.bitCount ≠ 0) : Step.Ends
    (fun _ e' => e.Took [e.bits] e' ∧ e'.pending = e.pending ∧ e'.bitCount = 0 ∧ e'.bits = 0)
    (fun _ e' => e.Missed [e.bits] e' ∧
      e'.pending = e.pending ∧ e'.bits = e.bits ∧ e'.bitCount = e.bitCount) (flushBits e) := by
  rw [flushBits_ne h]
  refine Step.ends_bind (call_ends [e.bits] e) ?_
  rintro _ e' ⟨ht, hp, -, -⟩
  exact ⟨⟨ht.takes, ht.taken, ht.admits, ht.flushed⟩, hp, rfl, rfl⟩

theorem flushBits_keeps (e : Encoder) : (flushBits e).2.pending = e.pending := by
  by_cases hb : e.bitCount = 0
  · rw [flushBits_zero hb]
  · exact ((flushBits_ends hb).mono (fun _ _ h => h.2.1) fun _ _ h => h.2.1).snd

theorem flushPending_keeps (e : Encoder) : (flushPending e).2.bitCount = e.bitCount := by
  rcases hp : e.pending with _ | p
  · rw [flushPending_none hp]
  · rw [flushPending_some hp]
    exact (call_keeps p.bytes { e with pending := none }).2.2

theorem finish_of_none (h : e.pending = none) : finish e = flushBits e :=
  Step.bind_ok (flushPending_none h) _

theorem finish_of_zero (h : e.bitCount = 0) : finish e = flushPending e := by
  have hkeeps := (flushPending_keeps e).trans h
  rcases hflush : flushPending e with ⟨x | _, e'⟩
  · exact Step.bind_error hflush _
  · rw [hflush] at hkeeps
    exact (Step.bind_ok hflush _).trans (flushBits_zero hkeeps)

/-- what waits is one call, and waits no longer when it is taken; when it is refused, bits wait on
and a span does not -/
theorem finish_ends (h : e.Apart) : Step.Ends
    (fun _ e' => e.Took e.waits e' ∧ e'.pending = none ∧ e'.bitCount = 0 ∧ e'.bits = 0)
    (fun _ e' => e.Missed e.waits e' ∧
      e'.pending = none ∧ e'.bits = e.bits ∧ e'.bitCount = e.bitCount) (finish e) := by
  rcases hp : e.pending with _ | p
  · rw [finish_of_none hp]
    by_cases hb : e.bitCount = 0
    · rw [flushBits_zero hb, waits_nil hp hb]
      exact ⟨took_nil e, hp, hb, h.bits hb⟩
    · have hends := flushBits_ends hb
      rw [hp] at hends
      rwa [waits_bits hp hb]
  · have hb := h.zero hp
    rw [finish_of_zero hb, flushPending_some hp, waits_span hp hb]
    refine (call_ends p.bytes { e with pending := none }).mono ?_ ?_
    · rintro _ e' ⟨ht, hp', hz, hc⟩
      exact ⟨⟨ht.takes, ht.taken, ht.admits, ht.flushed⟩, hp', hc.trans hb, hz.trans (h.bits hb)⟩
    · rintro _ e' ⟨hm, hrest⟩
      exact ⟨⟨hm.refuses, hm.taken, hm.admits, hm.flushed⟩, hrest⟩

/-! ## every call by what waits -/

theorem direct_eq (bs : Bytes) (e : Encoder) : direct bs e = (do finish; call bs) e := by
  rw [direct, finish]
  simp only [Step.bind_apply]
  rcases flushPending e with ⟨x | _, e'⟩
  · rfl
  · rfl

section
variable {i start stop : Nat}

theorem valid_iff : (Op.span i start stop).Valid buffers ↔
    ¬ ((part buffers i start stop).stop < (part buffers i start stop).start ∨
      (part buffers i start stop).source.bytes.length < (part buffers i start stop).stop) := by
  simp only [Op.Valid, part]
  omega

/-- a span outside its source is refused, and nothing changes -/
theorem span_outside (h : ¬ (Op.span i start stop).Valid buffers) (e : Encoder) :
    span (part buffers i start stop) e =
      (.error (Fault.spanOutside start stop (buffers i).length), e) := by
  rw [span, if_pos (Decidable.not_not.mp (mt valid_iff.mpr h))]
  rfl

/-- the next part of the span that waits is added to it -/
theorem span_joined (hvalid : (Op.span i start stop).Valid buffers) {p : Span}
    (hp : e.pending = some p) (hb : e.bitCount = 0)
    (h : p.ContinuedBy (part buffers i start stop)) :
    span (part buffers i start stop) e = (.ok (), { e with pending := some { p with stop } }) := by
  rw [span, if_neg (valid_iff.mp hvalid), Step.bind_ok (flushBits_zero hb), Step.state_bind, hp]
  exact congrFun (if_pos h) e

/-- any other span waits behind what waited before -/
theorem span_apart (hvalid : (Op.span i start stop).Valid buffers) (h : e.Apart)
    (hp : ∀ p ∈ e.pending, ¬ p.ContinuedBy (part buffers i start stop)) :
    span (part buffers i start stop) e =
      (do
        finish
        Step.update fun e => { e with pending := some (part buffers i start stop) }) e := by
  rw [span, if_neg (valid_iff.mp hvalid)]
  rcases hpending : e.pending with _ | p
  · have hkeeps := (flushBits_keeps e).trans hpending
    rw [← finish_of_none hpending] at hkeeps
    have hfinish := finish_of_none hpending
    rcases hflush : finish e with ⟨x | _, e'⟩
    · rw [Step.bind_error (hfinish.symm.trans hflush), Step.bind_error hflush]
    · rw [hflush] at hkeeps
      dsimp only at hkeeps
      rw [Step.bind_ok (hfinish.symm.trans hflush), Step.bind_ok hflush, Step.state_bind, hkeeps]
      rfl
  · have hb := h.zero hpending
    rw [Step.bind_ok (flushBits_zero hb), Step.state_bind, hpending]
    dsimp only
    rw [if_neg (hp p hpending), Step.bind_apply, Step.bind_apply, finish_of_zero hb]

end

/-- the encoder with one more bit waiting -/
def withBit (e : Encoder) (b : Bool) : Encoder :=
  { e with bits := e.bits ||| (b.toUInt8 <<< UInt8.ofNat e.bitCount), bitCount := e.bitCount + 1 }

theorem apart_withBit (hp : e.pending = none) (b : Bool) : (e.withBit b).Apart :=
  ⟨.inl hp, fun h => absurd h (Nat.succ_ne_zero _)⟩

theorem bool_of_none (hp : e.pending = none) (b : Bool) : bool b e =
    (if 8 ≤ e.bitCount then Step.fail Misuse.shiftOverflow else do
      Step.put (e.withBit b)
      if e.bitCount + 1 = 8 then flushBits : Step Encoder Failure Unit) e := by
  rw [bool, Step.bind_ok (Step.lift_ok (flushPending_none hp)), Step.state_bind]
  rfl

/-- there is no room for a ninth bit -/
theorem bool_full (hp : e.pending = none) (h : 8 ≤ e.bitCount) (b : Bool) :
    bool b e = (.error (.misuse .shiftOverflow), e) := by
  rw [bool_of_none hp, if_pos h]
  rfl

/-- a boolean waits with those before it -/
theorem bool_next (hp : e.pending = none) (h : e.bitCount < 7) (b : Bool) :
    bool b e = (.ok (), e.withBit b) := by
  rw [bool_of_none hp, if_neg (by omega), if_neg (by omega)]
  rfl

/-- the eighth boolean has the byte written -/
theorem bool_last (hp : e.pending = none) (h : e.bitCount = 7) (b : Bool) :
    bool b e = (finish.mapError Failure.error) (e.withBit b) := by
  rw [bool_of_none hp, if_neg (by omega), if_pos (by omega), Step.put_bind, Step.mapError,
    finish_of_none (e := e.withBit b) hp]
  rfl

/-- the first boolean waits behind what waited before -/
theorem bool_first (hb : e.bitCount = 0) (b : Bool) : bool b e =
    ((do finish; Step.update fun e => e.withBit b).mapError Failure.error) e := by
  have hkeeps := (flushPending_keeps e).trans hb
  have hfinish := finish_of_zero hb
  rw [bool, Step.mapError]
  rcases hflush : flushPending e with ⟨x | _, e'⟩
  · rw [Step.bind_error (hfinish.trans hflush), Step.bind_error (Step.lift_error hflush)]
  · rw [hflush] at hkeeps
    dsimp only at hkeeps
    rw [Step.bind_ok (hfinish.trans hflush), Step.bind_ok (Step.lift_ok hflush), Step.state_bind,
      hkeeps, if_neg (by decide), Step.put_bind, if_neg (by decide)]
    show _ = (Except.ok (), e'.withBit b)
    rw [withBit, hkeeps]
    rfl

end Encoder

end Plain

end Columnar
