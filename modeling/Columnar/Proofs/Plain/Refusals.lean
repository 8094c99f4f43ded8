import Columnar.Proofs.Plain.Encoder
import Mathlib.Data.List.Flatten
import Mathlib.Data.List.Induction

/-!
# What a sink keeps when it refuses calls

An encoder answers for a span before it is written.  When it is to be written and the sink refuses
it, the call that has it written fails, and the span is gone: calls that were answered are lost,
and an encoder that is finished rightly does not tell.

* `Op.Single op`               a call that writes at most once itself;
* `Encoder.Drops e op`         a call that has the span that waits written, which is refused;
* `Encoder.Lossless z ops`     none of the calls does;
* `Encoder.Stores z e as bs`   the sink holds the bytes of `as`, and those of `bs` wait;
* `Encoder.finish_stores`      what the sink holds when all is written.
-/

namespace Columnar.Plain

open Step

variable {buffers : Nat → Bytes} {e e' : Encoder} {op : Op} {ops : List Op} {z : Sink}

namespace Op

/-- a call that writes at most once itself -/
def Single : Op → Prop
  | byteArray _ | bool _ => False
  | _ => True

instance : (op : Op) → Decidable op.Single
  | span .. | scalar .. | fixed _ => inferInstanceAs (Decidable True)
  | byteArray _ | bool _ => inferInstanceAs (Decidable False)

/-- the call is for a span that goes on where the one that waits ends -/
def Continues (buffers : Nat → Bytes) (e : Encoder) (op : Op) : Prop :=
  ∃ p i start stop, e.pending = some p ∧ op = span i start stop ∧
    p.ContinuedBy (part buffers i start stop)

end Op

namespace Encoder

/-- the call has the span that waits written, which is refused -/
def Drops (buffers : Nat → Bytes) (e : Encoder) (op : Op) : Prop :=
  op.Valid buffers ∧ ¬ op.Continues buffers e ∧ ∃ p, e.pending = some p ∧ e.sink.Refuses p.bytes

/-- no call loses a span -/
def Lossless (buffers : Nat → Bytes) (z : Sink) (ops : List Op) : Prop :=
  ∀ front op, front ++ [op] <+: ops → ¬ (after buffers z front).Drops buffers op

theorem lossless_concat :
    Lossless buffers z (ops ++ [op]) ↔
      Lossless buffers z ops ∧ ¬ (after buffers z ops).Drops buffers op := by
  constructor
  · intro h
    exact ⟨fun front op' hfront => h front op' (hfront.trans (List.prefix_append ops [op])),
      h ops op List.prefix_rfl⟩
  · rintro ⟨h, hlast⟩ front op' hfront
    rcases List.prefix_concat_iff.mp hfront with heq | hfront
    · obtain ⟨rfl, hop⟩ := List.append_inj' heq rfl
      obtain rfl := List.singleton_inj.mp hop
      exact hlast
    · exact h front op' hfront

/-! ## one call -/

/-- the sink holds the bytes of some calls behind what `z` held, and those of other calls wait -/
structure Stores (buffers : Nat → Bytes) (z : Sink) (e : Encoder) (safe waiting : List Op) :
    Prop where
  zero : e.bitCount = 0
  bits : e.bits = 0
  sourced : e.Sourced buffers
  bytes : e.sink.bytes = z.bytes ++ safe.flatMap (Op.bytes buffers)
  waits : e.waits = waiting.flatMap (Op.bytes buffers)

variable {safe waiting : List Op}

theorem Stores.apart (h : Stores buffers z e safe waiting) : e.Apart :=
  ⟨.inr h.zero, fun _ => h.bits⟩

theorem stores_start (z : Sink) : Stores buffers z { sink := z } [] [] :=
  ⟨rfl, rfl, sourced_none rfl, (List.append_nil _).symm, rfl⟩

/-- nothing waits -/
theorem stores_none (hp : e.pending = none) (hc : e.bitCount = 0) (hz : e.bits = 0)
    (hbytes : e.sink.bytes = z.bytes ++ safe.flatMap (Op.bytes buffers)) :
    Stores buffers z e safe [] := ⟨hc, hz, sourced_none hp, hbytes, waits_nil hp hc⟩

/-- a call that does not go on where the waiting span ends loses it when what waits is refused -/
theorem Stores.drops_iff (h : Stores buffers z e safe waiting) (hvalid : op.Valid buffers)
    (hcont : ¬ op.Continues buffers e) : e.Drops buffers op ↔ e.sink.Refuses e.waits := by
  constructor
  · rintro ⟨-, -, p, hp, hrefuses⟩
    rwa [waits_span hp h.zero]
  · intro hrefuses
    refine ⟨hvalid, hcont, ?_⟩
    rcases hp : e.pending with _ | p
    · rw [waits_nil hp h.zero] at hrefuses
      exact absurd rfl hrefuses.1
    · rw [waits_span hp h.zero] at hrefuses
      exact ⟨p, rfl, hrefuses⟩

theorem Stores.finish (h : Stores buffers z e safe waiting) :
    Ends (fun _ e' => ¬ e.sink.Refuses e.waits ∧ e'.pending = none ∧
        Stores buffers z e' (safe ++ waiting) [])
      (fun _ e' => e.sink.Refuses e.waits ∧ Stores buffers z e' safe []) (finish e) := by
  refine (finish_ends h.apart).mono ?_ ?_
  · rintro _ e' ⟨ht, hp, hc, hz⟩
    refine ⟨ht.takes, hp, stores_none hp hc hz ?_⟩
    rw [ht.bytes, h.bytes, h.waits, List.flatMap_append, List.append_assoc]
  · rintro _ e' ⟨hm, hp, hz, hc⟩
    exact ⟨hm.refuses, stores_none hp (hc.trans h.zero) (hz.trans h.bits) (hm.bytes.trans h.bytes)⟩

/-- a call to the sink, with nothing waiting -/
theorem Stores.call (h : Stores buffers z e safe []) (hp : e.pending = none) (op : Op) :
    Ends (fun _ e' => Stores buffers z e' (safe ++ [op]) [])
      (fun _ e' => Stores buffers z e' safe []) (call (op.bytes buffers) e) := by
  refine (call_ends _ e).mono ?_ ?_
  · rintro _ e' ⟨ht, hp', hz, hc⟩
    refine stores_none (hp'.trans hp) (hc.trans h.zero) (hz.trans h.bits) ?_
    rw [ht.bytes, h.bytes, List.flatMap_append, List.flatMap_singleton, List.append_assoc]
  · rintro _ e' ⟨hm, hp', hz, hc⟩
    exact stores_none (hp'.trans hp) (hc.trans h.zero) (hz.trans h.bits) (hm.bytes.trans h.bytes)

/-- a span waits, with nothing waiting before it -/
theorem Stores.wait (h : Stores buffers z e safe []) {i start stop : Nat}
    (hvalid : (Op.span i start stop).Valid buffers) : Stores buffers z
      { e with pending := some (part buffers i start stop) } safe [.span i start stop] := by
  refine ⟨h.zero, h.bits, ?_, h.bytes, ?_⟩
  · rintro p ⟨⟩
    exact ⟨i, start, stop, rfl, hvalid⟩
  · rw [waits_pending h.zero, List.flatMap_singleton]
    rfl

/-- the span that waits grows -/
theorem Stores.join (h : Stores buffers z e safe waiting) {p : Span} {i start stop : Nat}
    (hvalid : (Op.span i start stop).Valid buffers) (hp : e.pending = some p)
    (hcont : p.ContinuedBy (part buffers i start stop)) :
    Stores buffers z { e with pending := some { p with stop } } safe
      (waiting ++ [.span i start stop]) := by
  obtain ⟨i', start', stop', rfl, hvalid'⟩ := h.sourced p hp
  obtain ⟨hid, hstop⟩ := hcont
  obtain rfl : i' = i := hid
  obtain rfl : stop' = start := hstop
  have hle : start' ≤ stop := Nat.le_trans hvalid'.1 hvalid.1
  refine ⟨h.zero, h.bits, ?_, h.bytes, ?_⟩
  · rintro p ⟨⟩
    exact ⟨i', start', stop, rfl, hle, hvalid.2⟩
  · have hwaits := h.waits
    rw [waits_span hp h.zero] at hwaits
    rw [waits_pending h.zero, List.flatMap_append, ← hwaits, List.flatMap_singleton]
    exact (bytes_part_append buffers i' hvalid'.1 hvalid.1).symm

/-- a call loses what waits, or all that was stored is stored on, and its own bytes if it is
answered -/
def Accounts (buffers : Nat → Bytes) (z : Sink) (e : Encoder) (op : Op) (safe waiting : List Op)
    (e' : Encoder) (news : List Op) : Prop :=
  (e.Drops buffers op ∧ news = [] ∧ Stores buffers z e' safe []) ∨
    (¬ e.Drops buffers op ∧ ∃ safe' waiting', safe' ++ waiting' = safe ++ waiting ++ news ∧
      Stores buffers z e' safe' waiting')

theorem direct_accounts (h : Stores buffers z e safe waiting) (hvalid : op.Valid buffers)
    (hop : ∀ i start stop, op ≠ .span i start stop) :
    Ends (fun _ e' => Accounts buffers z e op safe waiting e' [op])
      (fun _ e' => Accounts buffers z e op safe waiting e' []) (direct (op.bytes buffers) e) := by
  have hapart : ¬ op.Continues buffers e := by
    rintro ⟨_, i, start, stop, -, hspan, -⟩
    exact hop i start stop hspan
  have hdrops := h.drops_iff hvalid hapart
  rw [direct_eq]
  refine ends_bind (h.finish.mono (fun _ _ => id) ?_) ?_
  · rintro _ e' ⟨hrefuses, hstores⟩
    exact .inl ⟨hdrops.mpr hrefuses, rfl, hstores⟩
  · rintro _ e' ⟨htakes, hp, hstores⟩
    refine (hstores.call hp op).mono ?_ ?_
    · intro _ e'' hstores'
      exact .inr ⟨fun hd => htakes (hdrops.mp hd), _, [], List.append_nil _, hstores'⟩
    · intro _ e'' hstores'
      exact .inr ⟨fun hd => htakes (hdrops.mp hd), _, [], rfl, hstores'⟩

theorem span_accounts (h : Stores buffers z e safe waiting) (i start stop : Nat) :
    Ends
      (fun _ e' =>
        Accounts buffers z e (.span i start stop) safe waiting e' [.span i start stop])
      (fun _ e' => Accounts buffers z e (.span i start stop) safe waiting e' [])
      (span (part buffers i start stop) e) := by
  by_cases hvalid : (Op.span i start stop).Valid buffers
  · by_cases hcont : (Op.span i start stop).Continues buffers e
    · have hdrops : ¬ e.Drops buffers (.span i start stop) := fun hd => hd.2.1 hcont
      obtain ⟨p, i, start, stop, hp, ⟨⟩, hcont⟩ := hcont
      rw [span_joined hvalid hp h.zero hcont]
      exact .inr ⟨hdrops, safe, _, (List.append_assoc ..).symm, h.join hvalid hp hcont⟩
    · have hdrops := h.drops_iff hvalid hcont
      rw [span_apart hvalid h.apart fun p hp hcont' => hcont ⟨p, i, start, stop, hp, rfl, hcont'⟩]
      refine ends_bind (h.finish.mono (fun _ _ => id) ?_) ?_
      · rintro _ e' ⟨hrefuses, hstores⟩
        exact .inl ⟨hdrops.mpr hrefuses, rfl, hstores⟩
      · rintro _ e' ⟨htakes, -, hstores⟩
        exact .inr ⟨fun hd => htakes (hdrops.mp hd), _, _, rfl, hstores.wait hvalid⟩
  · rw [span_outside hvalid]
    exact .inr ⟨fun hd => hvalid hd.1, safe, waiting, (List.append_nil _).symm, h⟩

theorem step_accounts (h : Stores buffers z e safe waiting) (hop : op.Single) :
    Accounts buffers z e op safe waiting (op.step buffers e).2 (accepted buffers e [op]) := by
  have hends {x : Step Encoder Error Unit} (hstep : op.step buffers = x.mapError .error)
      (hx : Ends (fun _ e' => Accounts buffers z e op safe waiting e' [op])
        (fun _ e' => Accounts buffers z e op safe waiting e' []) (x e)) :
      Accounts buffers z e op safe waiting (op.step buffers e).2 (accepted buffers e [op]) := by
    rcases hrun : x e with ⟨y | _, e'⟩
    · have hstep : op.step buffers e = (.error (.error y), e') := by rw [hstep, mapError, hrun]
      rw [hrun] at hx
      rw [accepted_error hstep, hstep]
      exact hx
    · have hstep : op.step buffers e = (.ok (), e') := by rw [hstep, mapError, hrun]
      rw [hrun] at hx
      rw [accepted_ok hstep, hstep]
      exact hx
  cases op with
  | span i start stop => exact hends rfl (span_accounts h i start stop)
  | scalar width n => exact hends rfl (direct_accounts h trivial fun _ _ _ => by simp)
  | fixed bs => exact hends rfl (direct_accounts h trivial fun _ _ _ => by simp)
  | byteArray bs => exact hop.elim
  | bool b => exact hop.elim

/-! ## any calls -/

/-- Calls that were answered are stored in order, and the only ones missing are those whose span
was lost. -/
theorem run_stores (buffers : Nat → Bytes) (z : Sink) (hops : ∀ op ∈ ops, op.Single) :
    ∃ safe waiting, Stores buffers z (after buffers z ops) safe waiting ∧
      (safe ++ waiting).Sublist (accepted buffers { sink := z } ops) ∧
      (Lossless buffers z ops → safe ++ waiting = accepted buffers { sink := z } ops) ∧
      (¬ Lossless buffers z ops → ((safe ++ waiting).flatMap (Op.bytes buffers)).length <
        ((accepted buffers { sink := z } ops).flatMap (Op.bytes buffers)).length) := by
  induction ops using List.reverseRecOn with
  | nil =>
    refine ⟨[], [], stores_start z, .slnil, fun _ => rfl, fun h => absurd ?_ h⟩
    exact fun front op hfront => absurd (List.prefix_nil.mp hfront) (by simp)
  | append_singleton ops op ih =>
    obtain ⟨safe, waiting, hstores, hsub, hall, hless⟩ :=
      ih fun op' hop' => hops op' (List.mem_append_left [op] hop')
    have hop : op.Single := hops op (List.mem_append_right ops (List.mem_singleton_self op))
    have hrun : after buffers z (ops ++ [op]) = (op.step buffers (after buffers z ops)).2 :=
      run_concat { sink := z } ops op
    have haccepted : accepted buffers { sink := z } (ops ++ [op]) =
        accepted buffers { sink := z } ops ++ accepted buffers (after buffers z ops) [op] :=
      accepted_append { sink := z } ops [op]
    rw [hrun, haccepted, lossless_concat]
    have hlen (as news : List Op) : ((as ++ news).flatMap (Op.bytes buffers)).length =
        (as.flatMap (Op.bytes buffers)).length + (news.flatMap (Op.bytes buffers)).length := by
      rw [List.flatMap_append, List.length_append]
    rcases step_accounts hstores hop with ⟨hdrops, hnews, h⟩ | ⟨hdrops, safe', waiting', heq, h⟩
    · refine ⟨safe, [], h, ?_, fun hlossless => absurd hdrops hlossless.2, fun _ => ?_⟩
      · rw [List.append_nil, hnews, List.append_nil]
        exact (List.sublist_append_left safe waiting).trans hsub
      · obtain ⟨-, -, p, hp, hne, -⟩ := hdrops
        have hwaits := congrArg List.length (hstores.waits.symm.trans (waits_span hp hstores.zero))
        have hpos := List.length_pos_iff.mpr hne
        have hle := (hsub.flatMap (Op.bytes buffers)).length_le
        rw [hlen] at hle ⊢
        rw [hnews, List.append_nil]
        simp only [List.flatMap_nil, List.length_nil]
        omega
    · refine ⟨safe', waiting', h, ?_, ?_, ?_⟩
      · rw [heq]
        exact hsub.append_right _
      · rintro ⟨hlossless, -⟩
        rw [heq, hall hlossless]
      · intro hlost
        rw [heq, hlen _ (accepted buffers _ [op]), hlen _ (accepted buffers _ [op])]
        exact Nat.add_lt_add_right (hless fun hlossless => hlost ⟨hlossless, hdrops⟩) _

/-- The sink holds calls that were answered, in order, when all is written; it holds all of them
exactly when no call had a span written that was refused. -/
theorem finish_stores (buffers : Nat → Bytes) (z : Sink) (hops : ∀ op ∈ ops, op.Single)
    (hfinish : finish (after buffers z ops) = (.ok (), e')) :
    (∃ kept : List Op, kept.Sublist (accepted buffers { sink := z } ops) ∧
      e'.sink.bytes = z.bytes ++ kept.flatMap (Op.bytes buffers)) ∧
    (e'.sink.bytes =
        z.bytes ++ (accepted buffers { sink := z } ops).flatMap (Op.bytes buffers) ↔
      Lossless buffers z ops) := by
  obtain ⟨safe, waiting, hstores, hsub, hall, hless⟩ := run_stores buffers z hops
  have hends := hstores.finish
  rw [hfinish] at hends
  have hbytes := hends.2.2.bytes
  refine ⟨⟨_, hsub, hbytes⟩, fun h => ?_, fun hlossless => ?_⟩
  · by_contra hlost
    rw [hbytes] at h
    exact Nat.ne_of_lt (hless hlost) (congrArg List.length (List.append_cancel_left h))
  · rw [hbytes, hall hlossless]

/-- eight bytes of a source in two neighbouring spans; two numbers do not fit behind them, and
a span that ends behind its source is not stored either -/
theorem finish_stores_refused :
    let buffers : Nat → Bytes := fun _ => [1, 2, 3, 4, 5, 6, 7, 8]
    let ops : List Op := [.span 0 0 2, .span 0 2 8, .scalar 4 7, .scalar 4 8, .span 0 4 9]
    let e := after buffers (.ofCapacity 11) ops
    accepted buffers { sink := .ofCapacity 11 } ops = [.span 0 0 2, .span 0 2 8] ∧
      ∃ e', finish e = (.ok (), e') ∧ e'.sink.bytes = [1, 2, 3, 4, 5, 6, 7, 8] ∧
        Lossless buffers (.ofCapacity 11) ops := by
  intro buffers ops e
  have haccepted : accepted buffers { sink := .ofCapacity 11 } ops =
      [.span 0 0 2, .span 0 2 8] := by decide +kernel +zetaReduce
  have hok : (finish e).1 = .ok () := by decide +kernel +zetaReduce
  have hbytes : (finish e).2.sink.bytes = [1, 2, 3, 4, 5, 6, 7, 8] := by decide +kernel +zetaReduce
  have hsingle : ∀ op ∈ ops, op.Single := by decide
  have hfinish : finish e = (.ok (), (finish e).2) := by rw [← hok]
  have hall : (finish e).2.sink.bytes = (Sink.ofCapacity 11).bytes ++
      (accepted buffers { sink := .ofCapacity 11 } ops).flatMap (Op.bytes buffers) := by
    rw [hbytes, haccepted]
    decide +kernel +zetaReduce
  have hlossless := (finish_stores buffers (.ofCapacity 11) hsingle hfinish).2.mp hall
  exact ⟨haccepted, (finish e).2, hfinish, hbytes, hlossless⟩

/-- eight bytes of a source, and then a number twice, for a sink with room for four bytes: the
first number is refused with what waits before it, the second one is all that is stored, and no
failure is left to be told -/
theorem not_stored_refusedSpan :
    let buffers : Nat → Bytes := fun _ => [1, 2, 3, 4, 5, 6, 7, 8]
    let ops : List Op := [.span 0 0 8, .scalar 4 7, .scalar 4 7]
    let t := finish (after buffers (.ofCapacity 4) ops)
    accepted buffers { sink := .ofCapacity 4 } ops = [.span 0 0 8, .scalar 4 7] ∧
      t.1 = .ok () ∧ t.2.sink.bytes = [7, 0, 0, 0] ∧
      ((Op.scalar 4 7).step buffers (after buffers (.ofCapacity 4) [.span 0 0 8])).1 =
        .error (.error ⟨Sink.refusal, []⟩) := by
  decide +kernel +zetaReduce

end Encoder

end Columnar.Plain
