import Columnar.Proofs.Compact.Carried
import Columnar.Proofs.Plain.Naive

/-!
# What an encoder writes

A sink that takes every call is called once for every run of spans that go on where the ones
before them end, and has, when all is written, the bytes that the calls to the encoder stand for.

* `Written z e calls`        the sink took `calls` behind what `z` took;
* `HoldsBits`, `HoldsSpan`   what waits: booleans behind others of their run, or neighbouring
                             spans;
* `Tracks z e as`            `as` are the calls that were answered: the sink took what the first of
                             them stand for, and what the last of them stand for waits;
* `step_tracks`              a call that is not refused is answered, and tracked on;
* `finish_naive`             what any calls come to.
-/

namespace Columnar.Plain.Encoder

open Step

variable {buffers : Nat → Bytes} {z : Sink} {e e' : Encoder} {as : List Op} {op : Op}
  {calls : List Bytes}

/-! ## a sink that takes every call -/

theorem not_refuses {s : Sink} (h : s.Open) (bs : Bytes) : ¬ s.Refuses bs :=
  fun hr => nomatch hr.2.symm.trans (h s.log bs)

/-- the sink took calls behind what `z` took, and takes every other one -/
structure Written (z : Sink) (e : Encoder) (calls : List Bytes) : Prop where
  isOpen : e.sink.Open
  taken : e.sink.taken = z.taken ++ calls
  flushed : e.flushed = calls.flatten.length

theorem Written.took {bs : Bytes} (h : Written z e calls) (ht : e.Took bs e') :
    Written z e' (calls ++ Sink.calls bs) := by
  refine ⟨?_, ?_, ?_⟩
  · intro log bs
    rw [ht.admits]
    exact h.isOpen log bs
  · rw [ht.taken, h.taken, List.append_assoc]
  · rw [ht.flushed, h.flushed, List.flatten_append, Sink.flatten_calls, List.length_append]

/-- what the sink took does not depend on what waits -/
theorem Written.congr (h : Written z e calls) (hsink : e'.sink = e.sink)
    (hflushed : e'.flushed = e.flushed) : Written z e' calls := by
  refine ⟨?_, ?_, hflushed.trans h.flushed⟩
  · rw [hsink]
    exact h.isOpen
  · rw [hsink]
    exact h.taken

/-- nothing waits -/
structure Idle (e : Encoder) : Prop where
  pending : e.pending = none
  count : e.bitCount = 0
  bits : e.bits = 0

theorem Idle.apart (h : e.Idle) : e.Apart := ⟨.inl h.pending, fun _ => h.bits⟩

theorem Idle.waits (h : e.Idle) : e.waits = [] := waits_nil h.pending h.count

theorem Written.call (h : Written z e calls) (hidle : e.Idle) (bs : Bytes) :
    ∃ e', call bs e = (.ok (), e') ∧ Written z e' (calls ++ Sink.calls bs) ∧ e'.Idle := by
  have hends := call_ends bs e
  rcases hcall : Encoder.call bs e with ⟨x | _, e'⟩
  · rw [hcall] at hends
    exact absurd hends.1.refuses (not_refuses h.isOpen bs)
  · rw [hcall] at hends
    obtain ⟨ht, hp, hz, hc⟩ := hends
    exact ⟨e', rfl, h.took ht, hp.trans hidle.pending, hc.trans hidle.count, hz.trans hidle.bits⟩

theorem Written.finish (h : Written z e calls) (hapart : e.Apart) :
    ∃ e', finish e = (.ok (), e') ∧ Written z e' (calls ++ Sink.calls e.waits) ∧ e'.Idle := by
  have hends := finish_ends hapart
  rcases hfinish : Encoder.finish e with ⟨x | _, e'⟩
  · rw [hfinish] at hends
    exact absurd hends.1.refuses (not_refuses h.isOpen e.waits)
  · rw [hfinish] at hends
    obtain ⟨ht, hp, hc, hz⟩ := hends
    exact ⟨e', rfl, h.took ht, hp, hc, hz⟩

/-- bytes that are written behind what waits -/
theorem Written.direct (h : Written z e calls) (hapart : e.Apart) (bs : Bytes) :
    ∃ e', direct bs e = (.ok (), e') ∧
      Written z e' (calls ++ Sink.calls e.waits ++ Sink.calls bs) ∧ e'.Idle := by
  obtain ⟨e₁, hfinish, h₁, hidle⟩ := h.finish hapart
  obtain ⟨e₂, hcall, h₂, hidle'⟩ := h₁.call hidle bs
  refine ⟨e₂, ?_, h₂, hidle'⟩
  rw [direct_eq, bind_ok hfinish, hcall]

/-! ## the calls that were answered -/

/-- booleans that do not fill a byte yet wait, behind others of their run that fill bytes -/
structure HoldsBits (buffers : Nat → Bytes) (z : Sink) (e : Encoder) (front : List Op)
    (whole w : List Bool) : Prop where
  written : Written z e (sinkCalls buffers (front ++ whole.map Op.bool))
  pending : e.pending = none
  count : e.bitCount = w.length
  bits : e.bits = UInt8.ofNat (boolByte w)
  dvd : 8 ∣ whole.length
  lt : w.length < 8
  front_last : ∀ op ∈ front.getLast?, op.isBool = false
  last : ∀ op ∈ (front ++ (whole ++ w).map Op.bool).getLast?, op.isSpan = false

/-- a span waits, and `run` are the spans it was put together of -/
structure HoldsSpan (buffers : Nat → Bytes) (z : Sink) (e : Encoder) (front run : List Op)
    (i start mid stop : Nat) : Prop where
  written : Written z e (sinkCalls buffers front)
  pending : e.pending = some (part buffers i start stop)
  count : e.bitCount = 0
  bits : e.bits = 0
  valid : (Op.span i start stop).Valid buffers
  bytes : run.flatMap (Op.bytes buffers) = (part buffers i start stop).bytes
  last : run.getLast? = some (.span i mid stop)
  spans : ∀ op ∈ run, op.isSpan = true
  chain : run.IsChain fun a b => a.joins b
  front_last : ∀ a ∈ front.getLast?, ∀ b ∈ run.head?, a.joins b = false

theorem HoldsSpan.ne_nil {front run : List Op} {i start mid stop : Nat}
    (h : HoldsSpan buffers z e front run i start mid stop) : run ≠ [] := by
  rintro rfl
  exact nomatch h.last

/-- the sink took what the first of the calls stand for, and what the last of them stand for
waits -/
inductive Tracks (buffers : Nat → Bytes) (z : Sink) (e : Encoder) : List Op → Prop where
  | bits {front : List Op} {whole w : List Bool} (h : HoldsBits buffers z e front whole w) :
    Tracks buffers z e (front ++ (whole ++ w).map Op.bool)
  | span {front run : List Op} {i start mid stop : Nat}
    (h : HoldsSpan buffers z e front run i start mid stop) : Tracks buffers z e (front ++ run)

theorem tracks_idle (h : Written z e (sinkCalls buffers as)) (hidle : e.Idle)
    (hlast : ∀ op ∈ as.getLast?, op.isBool = false ∧ op.isSpan = false) :
    Tracks buffers z e as := by
  have hnone : as ++ ([] ++ [] : List Bool).map Op.bool = as := List.append_nil as
  have hbits : HoldsBits buffers z e as [] [] := by
    refine ⟨?_, hidle.pending, hidle.count, hidle.bits, by decide, by decide,
      fun op hop => (hlast op hop).1, ?_⟩
    · rwa [List.map_nil, List.append_nil]
    · rw [hnone]
      exact fun op hop => (hlast op hop).2
  have htracks := Tracks.bits hbits
  rwa [hnone] at htracks

theorem Tracks.apart (h : Tracks buffers z e as) : e.Apart := by
  cases h with
  | bits h =>
    refine ⟨.inl h.pending, fun hzero => ?_⟩
    rw [h.bits, List.length_eq_zero_iff.mp (h.count.symm.trans hzero)]
    rfl
  | span h => exact ⟨.inr h.count, fun _ => h.bits⟩

/-- one call is left for what waits -/
theorem Tracks.waits (h : Tracks buffers z e as) :
    ∃ calls, Written z e calls ∧ sinkCalls buffers as = calls ++ Sink.calls e.waits := by
  cases h with
  | @bits front whole w h =>
    refine ⟨_, h.written, ?_⟩
    rw [sinkCalls_append_bits h.front_last, sinkCalls_append_bits h.front_last,
      packBools_append h.dvd, List.map_append, List.append_assoc]
    by_cases hnil : w = []
    · have hzero : e.bitCount = 0 := by rw [h.count, hnil, List.length_nil]
      rw [waits_nil h.pending hzero, hnil, packBools_nil]
      rfl
    · have hpos : e.bitCount ≠ 0 := by rwa [h.count, Ne, List.length_eq_zero_iff]
      rw [waits_bits h.pending hpos, packBools_byte hnil (Nat.le_of_lt h.lt), h.bits]
      rfl
  | span h =>
    refine ⟨_, h.written, ?_⟩
    rw [sinkCalls_append_run h.ne_nil h.chain h.front_last, runCalls_spans h.spans, h.bytes,
      waits_span h.pending h.count]

/-- what waits is written -/
theorem Tracks.finish (h : Tracks buffers z e as) :
    ∃ e', finish e = (.ok (), e') ∧ Written z e' (sinkCalls buffers as) ∧ e'.Idle := by
  obtain ⟨calls, hwritten, hcalls⟩ := h.waits
  rw [hcalls]
  exact hwritten.finish h.apart

/-- how long the naive bytes are -/
theorem Tracks.encodedLen (h : Tracks buffers z e as) :
    e.encodedLen = (naive buffers as).length := by
  have hlen : e.waits.length =
      (e.pending.map Span.length).getD 0 + if e.bitCount = 0 then 0 else 1 := by
    cases h with
    | bits h =>
      by_cases hzero : e.bitCount = 0
      · rw [waits_nil h.pending hzero, h.pending, if_pos hzero]
        rfl
      · rw [waits_bits h.pending hzero, h.pending, if_neg hzero]
        rfl
    | @span _ _ i start _ stop h =>
      obtain ⟨-, hvalid⟩ := h.valid
      rw [waits_span h.pending h.count, h.pending, if_pos h.count]
      show (((buffers i).drop start).take (stop - start)).length = stop - start
      rw [List.length_take, List.length_drop]
      omega
  obtain ⟨calls, hwritten, hcalls⟩ := h.waits
  rw [Encoder.encodedLen, hwritten.flushed, Nat.add_assoc, ← hlen, ← flatten_sinkCalls, hcalls,
    List.flatten_append, Sink.flatten_calls, List.length_append]

/-! ## one more call -/

/-- a call that is not joined to any other -/
theorem direct_tracks (h : Tracks buffers z e as) (hbool : op.isBool = false)
    (hspan : op.isSpan = false) {bs : Bytes} (hop : runCalls buffers [op] = Sink.calls bs) :
    ∃ e', direct bs e = (.ok (), e') ∧ Tracks buffers z e' (as ++ [op]) := by
  obtain ⟨calls, hwritten, hcalls⟩ := h.waits
  obtain ⟨e', hdirect, hwritten', hidle⟩ := hwritten.direct h.apart bs
  refine ⟨e', hdirect, tracks_idle ?_ hidle ?_⟩
  · rwa [sinkCalls_concat as hbool hspan, hcalls, hop]
  · rw [List.getLast?_concat]
    rintro op ⟨⟩
    exact ⟨hbool, hspan⟩

theorem byteArray_tracks (h : Tracks buffers z e as) {bs : Bytes} (hlen : bs.length < 2 ^ 32) :
    ∃ e', byteArray bs e = (.ok (), e') ∧ Tracks buffers z e' (as ++ [.byteArray bs]) := by
  obtain ⟨calls, hwritten, hcalls⟩ := h.waits
  obtain ⟨e₁, hdirect, h₁, hidle⟩ := hwritten.direct h.apart (toLE 4 bs.length)
  obtain ⟨e₂, hdirect', h₂, hidle'⟩ := h₁.direct hidle.apart bs
  refine ⟨e₂, ?_, tracks_idle ?_ hidle' ?_⟩
  · rw [byteArray, if_neg (Nat.not_le.mpr hlen), bind_ok hdirect, hdirect']
  · rw [hidle.waits, Sink.calls_nil, List.append_nil, ← hcalls] at h₂
    rw [sinkCalls_concat as rfl rfl]
    have hhead : Sink.calls (toLE 4 bs.length) = [toLE 4 bs.length] := Sink.calls_of_ne nofun
    rw [hhead, List.append_assoc] at h₂
    exact h₂
  · rw [List.getLast?_concat]
    rintro op ⟨⟩
    exact ⟨rfl, rfl⟩

/-- the bits that wait, with one more of them -/
theorem HoldsBits.bits_withBit {front : List Op} {whole w : List Bool}
    (h : HoldsBits buffers z e front whole w) (b : Bool) :
    (e.withBit b).bits = UInt8.ofNat (boolByte (w ++ [b])) := by
  rw [← boolByte_concat h.lt, ← h.bits, ← h.count]
  rfl

/-- calls that end in a boolean do not end in a span -/
theorem isSpan_last (front : List Op) (whole w : List Bool) (b : Bool) :
    ∀ op ∈ (front ++ (whole ++ (w ++ [b])).map Op.bool).getLast?, op.isSpan = false := by
  rw [← List.append_assoc whole, List.map_append, List.map_singleton, ← List.append_assoc,
    List.getLast?_concat]
  rintro op ⟨⟩
  rfl

/-- a boolean that does not fill a byte -/
theorem HoldsBits.next {front : List Op} {whole w : List Bool}
    (h : HoldsBits buffers z e front whole w) (hroom : w.length < 7) (b : Bool) :
    HoldsBits buffers z (e.withBit b) front whole (w ++ [b]) where
  written := h.written.congr rfl rfl
  pending := h.pending
  count := by
    rw [List.length_append, ← h.count]
    rfl
  bits := h.bits_withBit b
  dvd := h.dvd
  lt := by
    rw [List.length_append]
    exact Nat.succ_lt_succ hroom
  front_last := h.front_last
  last := isSpan_last front whole w b

/-- a boolean that fills a byte -/
theorem HoldsBits.fill {front : List Op} {whole w : List Bool}
    (h : HoldsBits buffers z e front whole w) (hseven : w.length = 7) (b : Bool) :
    ∃ e', bool b e = (.ok (), e') ∧ HoldsBits buffers z e' front (whole ++ (w ++ [b])) [] := by
  have hbyte : packBools (w ++ [b]) = [(e.withBit b).bits] := by
    rw [packBools_byte (List.concat_ne_nil b w) (by simp [hseven]), h.bits_withBit b]
  have hwritten : Written z (e.withBit b) (sinkCalls buffers (front ++ whole.map .bool)) :=
    h.written.congr rfl rfl
  obtain ⟨e', hfinish, hwritten', hidle⟩ := hwritten.finish (apart_withBit h.pending b)
  refine ⟨e', ?_, ?_, hidle.pending, hidle.count, hidle.bits, ?_, by decide, h.front_last, ?_⟩
  · rw [bool_last h.pending (h.count.trans hseven), mapError, hfinish]
  · rw [waits_bits (e := e.withBit b) h.pending (Nat.succ_ne_zero _),
      sinkCalls_append_bits h.front_last, Sink.calls_of_ne (List.cons_ne_nil _ _)] at hwritten'
    rw [sinkCalls_append_bits h.front_last, packBools_append h.dvd, hbyte, List.map_append,
      ← List.append_assoc]
    exact hwritten'
  · rw [List.length_append, List.length_append, hseven]
    exact Nat.dvd_add h.dvd (Nat.dvd_refl 8)
  · rw [List.append_nil]
    exact isSpan_last front whole w b

/-- a boolean behind a span that waits -/
theorem HoldsSpan.bool {front run : List Op} {i start mid stop : Nat}
    (h : HoldsSpan buffers z e front run i start mid stop) (b : Bool) :
    ∃ e', bool b e = (.ok (), e') ∧ HoldsBits buffers z e' (front ++ run) [] [b] := by
  obtain ⟨e', hfinish, hwritten, hidle⟩ := (Tracks.span h).finish
  refine ⟨e'.withBit b, ?_, ?_, hidle.pending, congrArg (· + 1) hidle.count, ?_, by decide,
    Nat.one_lt_succ_succ 6, ?_, isSpan_last _ [] [] b⟩
  · rw [bool_first h.count, mapError, bind_ok hfinish]
    rfl
  · rw [List.map_nil, List.append_nil]
    exact hwritten.congr rfl rfl
  · show e'.bits ||| (b.toUInt8 <<< UInt8.ofNat e'.bitCount) = _
    rw [hidle.bits, hidle.count]
    exact @boolByte_concat [] (by decide) b
  · rw [List.getLast?_append, h.last]
    rintro op ⟨⟩
    rfl

theorem bool_tracks (h : Tracks buffers z e as) (b : Bool) :
    ∃ e', bool b e = (.ok (), e') ∧ Tracks buffers z e' (as ++ [.bool b]) := by
  cases h with
  | @bits front whole w h =>
    have hlist : front ++ (whole ++ w).map Op.bool ++ [.bool b] =
        front ++ (whole ++ (w ++ [b])).map Op.bool := by
      simp only [List.map_append, List.append_assoc, List.map_cons, List.map_nil]
    rw [hlist]
    by_cases hroom : w.length < 7
    · exact ⟨_, bool_next h.pending (h.count ▸ hroom) b, .bits (h.next hroom b)⟩
    · have hseven : w.length = 7 := by
        have hlt := h.lt
        omega
      obtain ⟨e', hbool, hbits⟩ := h.fill hseven b
      rw [← List.append_nil (whole ++ (w ++ [b]))]
      exact ⟨e', hbool, .bits hbits⟩
  | span h =>
    obtain ⟨e', hbool, hbits⟩ := h.bool b
    exact ⟨e', hbool, .bits hbits⟩

/-- a span that does not go on from the one that waits is not joined to it -/
theorem Tracks.not_joins (h : Tracks buffers z e as) {i start stop : Nat}
    (hcont : ∀ p, e.pending = some p → ¬ p.ContinuedBy (part buffers i start stop)) :
    ∀ a ∈ as.getLast?, a.joins (.span i start stop) = false := by
  intro a ha
  refine Bool.eq_false_iff.mpr fun hjoins => ?_
  cases h with
  | bits h => exact nomatch (h.last a ha).symm.trans (Op.isSpan_of_joins hjoins)
  | span h =>
    rw [List.getLast?_append, h.last] at ha
    cases ha
    exact hcont _ h.pending (of_decide_eq_true hjoins)

/-- the next part of a source, behind the parts that wait -/
theorem HoldsSpan.join {front run : List Op} {i start mid stop stop' : Nat}
    (h : HoldsSpan buffers z e front run i start mid stop)
    (hvalid : (Op.span i stop stop').Valid buffers) :
    HoldsSpan buffers z { e with pending := some (part buffers i start stop') } front
      (run ++ [.span i stop stop']) i start stop stop' where
  written := h.written.congr rfl rfl
  pending := rfl
  count := h.count
  bits := h.bits
  valid := ⟨Nat.le_trans h.valid.1 hvalid.1, hvalid.2⟩
  bytes := by
    rw [List.flatMap_append, h.bytes, List.flatMap_singleton]
    exact bytes_part_append buffers i h.valid.1 hvalid.1
  last := List.getLast?_concat
  spans := List.forall_mem_append.mpr ⟨h.spans, List.forall_mem_singleton.mpr rfl⟩
  chain := by
    refine List.isChain_append.mpr ⟨h.chain, List.isChain_singleton _, ?_⟩
    rintro a ha b ⟨⟩
    rw [h.last] at ha
    cases ha
    exact decide_eq_true ⟨rfl, rfl⟩
  front_last := by
    rw [List.head?_append_of_ne_nil _ h.ne_nil]
    exact h.front_last

/-- a span with nothing waiting before it -/
theorem Idle.wait (hidle : e.Idle) (h : Written z e (sinkCalls buffers as)) {i start stop : Nat}
    (hvalid : (Op.span i start stop).Valid buffers)
    (hjoins : ∀ a ∈ as.getLast?, a.joins (.span i start stop) = false) :
    HoldsSpan buffers z { e with pending := some (part buffers i start stop) } as
      [.span i start stop] i start start stop where
  written := h.congr rfl rfl
  pending := rfl
  count := hidle.count
  bits := hidle.bits
  valid := hvalid
  bytes := List.flatMap_singleton _ _
  last := rfl
  spans := List.forall_mem_singleton.mpr rfl
  chain := List.isChain_singleton _
  front_last := by
    rintro a ha b ⟨⟩
    exact hjoins a ha

theorem span_tracks (h : Tracks buffers z e as) {i start stop : Nat}
    (hvalid : (Op.span i start stop).Valid buffers) :
    ∃ e', span (part buffers i start stop) e = (.ok (), e') ∧
      Tracks buffers z e' (as ++ [.span i start stop]) := by
  by_cases hcont : ∃ p, e.pending = some p ∧ p.ContinuedBy (part buffers i start stop)
  · obtain ⟨p, hp, hcont⟩ := hcont
    have hspan := span_joined hvalid hp (h.apart.zero hp) hcont
    refine ⟨{ e with pending := some { p with stop } }, hspan, ?_⟩
    cases h with
    | bits h => exact nomatch h.pending.symm.trans hp
    | @span _ _ i' _ _ stop' h =>
      cases h.pending.symm.trans hp
      obtain ⟨rfl, rfl⟩ : i' = i ∧ stop' = start := hcont
      rw [List.append_assoc]
      exact .span (h.join hvalid)
  · have hapart : ∀ p, e.pending = some p → ¬ p.ContinuedBy (part buffers i start stop) :=
      fun p hp hp' => hcont ⟨p, hp, hp'⟩
    obtain ⟨e', hfinish, hwritten, hidle⟩ := h.finish
    refine ⟨_, ?_, .span (hidle.wait hwritten hvalid (h.not_joins hapart))⟩
    rw [span_apart hvalid h.apart hapart, bind_ok hfinish]
    rfl

theorem step_tracks (h : Tracks buffers z e as) (hvalid : op.Valid buffers) :
    ∃ e', op.step buffers e = (.ok (), e') ∧ Tracks buffers z e' (as ++ [op]) := by
  have hstep {x : Step Encoder Error Unit} {as' : List Op}
      (hop : op.step buffers = x.mapError .error)
      (hx : ∃ e', x e = (.ok (), e') ∧ Tracks buffers z e' as') :
      ∃ e', op.step buffers e = (.ok (), e') ∧ Tracks buffers z e' as' := by
    obtain ⟨e', hrun, htracks⟩ := hx
    exact ⟨e', by rw [hop, mapError, hrun], htracks⟩
  cases op with
  | span i start stop => exact hstep rfl (span_tracks h hvalid)
  | scalar width n =>
    exact hstep rfl (direct_tracks h rfl rfl (congrArg Sink.calls (List.flatMap_singleton _ _)))
  | byteArray bs => exact hstep rfl (byteArray_tracks h hvalid)
  | fixed bs =>
    exact hstep rfl (direct_tracks h rfl rfl (congrArg Sink.calls (List.flatMap_singleton _ _)))
  | bool b => exact bool_tracks h b

theorem span_refused {i start stop : Nat} (h : ¬ (Op.span i start stop).Valid buffers)
    (e : Encoder) : (Op.span i start stop).step buffers e =
      (.error (Fault.spanOutside start stop (buffers i).length : Error), e) := by
  rw [Op.step, mapError, span_outside h]

/-- a call that is refused changes nothing -/
theorem step_refused (h : ¬ op.Valid buffers) (e : Encoder) :
    ∃ x, op.step buffers e = (.error x, e) := by
  cases op with
  | span i start stop => exact ⟨_, span_refused h e⟩
  | byteArray bs =>
    have hbytes : byteArray bs e = (.error (Fault.byteArrayTooLong bs.length), e) :=
      congrFun (if_pos (Nat.not_lt.mp h)) e
    exact ⟨_, by rw [Op.step, mapError, hbytes]⟩
  | _ => exact absurd trivial h

/-! ## any calls -/

theorem run_tracks (buffers : Nat → Bytes) (hz : z.Open) (ops : List Op) :
    accepted buffers { sink := z } ops = ops.filter (fun op => op.Valid buffers) ∧
      Tracks buffers z (after buffers z ops) (ops.filter fun op => op.Valid buffers) := by
  induction ops using List.reverseRecOn with
  | nil =>
    refine ⟨rfl, tracks_idle ⟨hz, (List.append_nil _).symm, rfl⟩ ⟨rfl, rfl, rfl⟩ nofun⟩
  | append_singleton ops op ih =>
    obtain ⟨haccepted, htracks⟩ := ih
    have hrun : after buffers z (ops ++ [op]) = (op.step buffers (after buffers z ops)).2 :=
      run_concat { sink := z } ops op
    have hboth : accepted buffers { sink := z } (ops ++ [op]) =
        accepted buffers { sink := z } ops ++ accepted buffers (after buffers z ops) [op] :=
      accepted_append { sink := z } ops [op]
    rw [hrun, hboth, haccepted, List.filter_append]
    by_cases hvalid : op.Valid buffers
    · obtain ⟨e', hstep, htracks'⟩ := step_tracks htracks hvalid
      have hlast : [op].filter (fun op => op.Valid buffers) = [op] := by simp [hvalid]
      rw [accepted_ok hstep, hstep, hlast]
      exact ⟨rfl, htracks'⟩
    · obtain ⟨x, hstep⟩ := step_refused hvalid (after buffers z ops)
      have hlast : [op].filter (fun op => op.Valid buffers) = [] := by simp [hvalid]
      rw [accepted_error hstep, hstep, hlast, List.append_nil]
      exact ⟨rfl, htracks⟩

/-- Behind any calls, over a sink that takes every call: the calls with a span outside its source,
or a byte array that is too long, were refused and changed nothing, and all others were answered.
`encodedLen` is the length of the naive bytes of these, and when all is written, the sink has just
these bytes, in one call for every run of spans that go on where the ones before them end; such
spans are in one call wherever they stand. -/
theorem finish_naive (buffers : Nat → Bytes) (hz : z.Open) (ops : List Op) :
    let e := after buffers z ops
    let as := ops.filter fun op => op.Valid buffers
    let t := finish e
    accepted buffers { sink := z } ops = as ∧
      e.encodedLen = (naive buffers as).length ∧
      t.1 = .ok () ∧ t.2.sink.bytes = z.bytes ++ naive buffers as ∧
      t.2.sink.taken = z.taken ++ sinkCalls buffers as ∧
      (∀ i start stop, ¬ (Op.span i start stop).Valid buffers →
        (Op.span i start stop).step buffers e =
          (.error (Fault.spanOutside start stop (buffers i).length : Error), e)) ∧
      ∀ front chain back, as = front ++ chain ++ back → chain ≠ [] →
        (∀ op ∈ chain, op.isSpan = true) → (chain.IsChain fun a b => a.joins b) →
        ∃ before behind left right,
          t.2.sink.taken = before ++
            Sink.calls (left ++ chain.flatMap (Op.bytes buffers) ++ right) ++ behind ∧
          before.flatten ++ left = z.bytes ++ naive buffers front := by
  intro e as t
  obtain ⟨haccepted, htracks⟩ := run_tracks buffers hz ops
  obtain ⟨e', hfinish, hwritten, -⟩ := htracks.finish
  have ht : t = (.ok (), e') := hfinish
  have htaken : t.2.sink.taken = z.taken ++ sinkCalls buffers as := by
    rw [ht]
    exact hwritten.taken
  refine ⟨haccepted, htracks.encodedLen, by rw [ht], ?_, htaken, ?_, ?_⟩
  · rw [Sink.bytes, htaken, List.flatten_append, flatten_sinkCalls]
    rfl
  · exact fun i start stop hvalid => span_refused hvalid e
  · intro front chain back has hne hspans hchain
    obtain ⟨before, behind, left, right, hcalls, hbytes⟩ :=
      sinkCalls_infix buffers front back hne hspans hchain
    refine ⟨z.taken ++ before, behind, left, right, ?_, ?_⟩
    · rw [htaken, has, hcalls]
      simp only [List.append_assoc]
    · rw [List.flatten_append, List.append_assoc, hbytes]
      rfl

/-- two sources: their spans, one of them empty, one outside its source and one that goes on behind
it; nine booleans with a span outside its source between them; two more behind an empty array of
fixed length, which ends their run; a byte array, and a number -/
theorem finish_naive_mixed :
    let buffers : Nat → Bytes := fun i => if i = 0 then [1, 2, 3, 4, 5, 6] else [7, 8]
    let bools : List Op := .replicate 4 (.bool true)
    let ops : List Op := [.span 0 0 2, .span 0 2 2, .span 0 5 7, .span 0 2 4, .span 1 0 2,
      .bool false] ++ bools ++ [.span 1 2 1] ++ bools ++ [.fixed [], .bool true, .bool false,
      .byteArray [9], .scalar 2 258, .span 0 4 5, .span 0 5 6]
    let as := ops.filter fun op => op.Valid buffers
    Sink.unbounded.Open ∧
      accepted buffers { sink := .unbounded } ops = as ∧ as.length = 20 ∧
      (after buffers .unbounded ops).encodedLen = 18 ∧ (naive buffers as).length = 18 ∧
      sinkCalls buffers as =
        [[1, 2, 3, 4], [7, 8], [254], [1], [1], [1, 0, 0, 0], [9], [2, 1], [5, 6]] := by
  intro buffers bools ops as
  have hopen : Sink.unbounded.Open := fun _ _ => rfl
  obtain ⟨haccepted, hlen, -, -, htaken, -, -⟩ := finish_naive buffers hopen ops
  have hcount : as.length = 20 := by decide +kernel +zetaReduce
  have hencoded : (after buffers .unbounded ops).encodedLen = 18 := by decide +kernel +zetaReduce
  have hcalls : (finish (after buffers .unbounded ops)).2.sink.taken =
      [[1, 2, 3, 4], [7, 8], [254], [1], [1], [1, 0, 0, 0], [9], [2, 1], [5, 6]] := by
    decide +kernel +zetaReduce
  have hnone : Sink.unbounded.taken = [] := rfl
  rw [hencoded] at hlen
  rw [hcalls, hnone, List.nil_append] at htaken
  exact ⟨hopen, haccepted, hcount, hencoded, hlen.symm, htaken.symm⟩

end Columnar.Plain.Encoder
