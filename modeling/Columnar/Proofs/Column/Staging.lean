import Columnar.Column.Staging
import Columnar.Proofs.Column.Values
import Columnar.Proofs.Plain.Coalescing

/-!
# The bytes of staged slots

Staging through the encoder is staging by the bytes of each value: the ranges of the slots have
these bytes, and the first value that cannot be staged is refused in the same words.

* `ByteRange.Within bs r`      the range lies in `bs`;
* `Staging.Holds e bs`         `bs` are the bytes of what the encoder was called with;
* `Staging.encodeSlots_ends`   the slots of a column, one behind the other;
* `Staging.ofColumn_ends`      staging, by ranges and by bytes.
-/

namespace Columnar

/-- a range lies in a byte string -/
def ByteRange.Within (bs : Bytes) (r : ByteRange) : Prop := r.start ≤ r.stop ∧ r.stop ≤ bs.length

theorem ByteRange.Within.append {bs : Bytes} {r : ByteRange} (h : r.Within bs) (cs : Bytes) :
    r.Within (bs ++ cs) ∧ r.of (bs ++ cs) = r.of bs := by
  obtain ⟨hle, hstop⟩ := h
  refine ⟨⟨hle, ?_⟩, ?_⟩
  · rw [List.length_append]
    omega
  · have hstart : r.start ≤ bs.length := Nat.le_trans hle hstop
    have hlen : r.stop - r.start ≤ (bs.drop r.start).length := by
      rw [List.length_drop]
      omega
    rw [ByteRange.of, ByteRange.of, List.drop_append_of_le_length hstart,
      List.take_append_of_le_length hlen]

/-- the range of what is written last -/
theorem ByteRange.of_last (bs cs : Bytes) :
    (⟨bs.length, bs.length + cs.length⟩ : ByteRange).Within (bs ++ cs) ∧
      (⟨bs.length, bs.length + cs.length⟩ : ByteRange).of (bs ++ cs) = cs := by
  refine ⟨⟨Nat.le_add_right _ _, Nat.le_of_eq List.length_append.symm⟩, ?_⟩
  rw [ByteRange.of, List.drop_left, Nat.add_sub_cancel_left, List.take_length]

namespace Staging

open Step Plain.Encoder

variable {spec : ColumnSpec} {length : Int} {buffers : Nat → Bytes} {e e' : Plain.Encoder}
  {bs : Bytes}

/-! ## the encoder -/

/-- an encoder over a sink of its own was called without a boolean, and `bs` are the bytes of the
calls -/
def Holds (buffers : Nat → Bytes) (e : Plain.Encoder) (bs : Bytes) : Prop :=
  ∃ ops, Tracks buffers .unbounded e ops ∧ (∀ op ∈ ops, op.isBool = false) ∧
    ops.flatMap (Plain.Op.bytes buffers) = bs

theorem holds_new (buffers : Nat → Bytes) : Holds buffers { sink := .unbounded } [] :=
  ⟨[], (run_tracks buffers (fun _ _ => rfl) []).2, nofun, rfl⟩

theorem Holds.concat {ops : List Plain.Op} {op : Plain.Op}
    (h : Tracks buffers .unbounded e (ops ++ [op])) (hops : ∀ op ∈ ops, op.isBool = false)
    (hop : op.isBool = false) :
    Holds buffers e (ops.flatMap (Plain.Op.bytes buffers) ++ op.bytes buffers) := by
  refine ⟨ops ++ [op], h, ?_, ?_⟩
  · exact List.forall_mem_append.mpr ⟨hops, List.forall_mem_singleton.mpr hop⟩
  · rw [List.flatMap_append, List.flatMap_singleton]

theorem Holds.encodedLen (h : Holds buffers e bs) : e.encodedLen = bs.length := by
  obtain ⟨ops, htracks, hops, rfl⟩ := h
  have hnaive : Plain.naive buffers ([] ++ ops) = _ := Plain.naive_append_others [] hops
  rw [htracks.encodedLen, ← List.nil_append ops, hnaive]
  rfl

theorem Holds.finish (h : Holds buffers e bs) :
    ∃ e', finish e = (.ok (), e') ∧ e'.sink.bytes = bs := by
  obtain ⟨ops, htracks, hops, rfl⟩ := h
  have hnaive : Plain.naive buffers ([] ++ ops) = _ := Plain.naive_append_others [] hops
  obtain ⟨e', hfinish, hwritten, -⟩ := htracks.finish
  refine ⟨e', hfinish, ?_⟩
  rw [Sink.bytes, hwritten.taken, List.flatten_append, Plain.flatten_sinkCalls,
    ← List.nil_append ops, hnaive]
  rfl

theorem Holds.scalar (h : Holds buffers e bs) (width n : Nat) :
    ∃ e', scalar width n e = (.ok (), e') ∧ Holds buffers e' (bs ++ toLE width n) := by
  obtain ⟨ops, htracks, hops, rfl⟩ := h
  have hcalls : Plain.runCalls buffers [.scalar width n] = Sink.calls (toLE width n) :=
    congrArg Sink.calls (List.flatMap_singleton _ _)
  obtain ⟨e', hdirect, htracks'⟩ := direct_tracks htracks rfl rfl hcalls
  exact ⟨e', hdirect, .concat htracks' hops rfl⟩

theorem Holds.fixed (h : Holds buffers e bs) (cs : Bytes) :
    ∃ e', fixed cs e = (.ok (), e') ∧ Holds buffers e' (bs ++ cs) := by
  obtain ⟨ops, htracks, hops, rfl⟩ := h
  have hcalls : Plain.runCalls buffers [.fixed cs] = Sink.calls cs :=
    congrArg Sink.calls (List.flatMap_singleton _ _)
  obtain ⟨e', hdirect, htracks'⟩ := direct_tracks htracks rfl rfl hcalls
  exact ⟨e', hdirect, .concat htracks' hops rfl⟩

theorem Holds.byteArray (h : Holds buffers e bs) {payload : Bytes}
    (hlen : payload.length < 2 ^ 32) :
    ∃ e', byteArray payload e = (.ok (), e') ∧
      Holds buffers e' (bs ++ Plain.byteArray payload) := by
  obtain ⟨ops, htracks, hops, rfl⟩ := h
  obtain ⟨e', hcall, htracks'⟩ := byteArray_tracks htracks hlen
  exact ⟨e', hcall, .concat htracks' hops rfl⟩

theorem Holds.span (h : Holds buffers e bs) (source : Nat) {r : ByteRange}
    (hr : r.Within (buffers source)) :
    ∃ e', span ⟨⟨source, buffers source⟩, r.start, r.stop⟩ e = (.ok (), e') ∧
      Holds buffers e' (bs ++ r.of (buffers source)) := by
  obtain ⟨ops, htracks, hops, rfl⟩ := h
  obtain ⟨e', hcall, htracks'⟩ := span_tracks htracks hr
  exact ⟨e', hcall, .concat htracks' hops rfl⟩

/-! ## values -/

/-- a value is written as its bytes, or refused as it is when it is staged by these -/
theorem encodeDatum_ends (h : Holds buffers e bs) (d : Datum) :
    (∀ cs, ColumnValues.stageDatum spec length d = .ok cs →
      ∃ e', encodeDatum spec length d e = (.ok (), e') ∧ Holds buffers e' (bs ++ cs)) ∧
    ∀ x, ColumnValues.stageDatum spec length d = .error x →
      (encodeDatum spec length d e).1 = .error x := by
  cases d with
  | boolean b =>
    refine ⟨?_, fun _ hx => absurd hx Except.ok_ne_error⟩
    rintro cs ⟨⟩
    have hbyte : (Datum.boolean b).plain = toLE 1 b.toUInt8.toNat := by cases b <;> rfl
    rw [hbyte]
    exact h.scalar 1 _
  | int32 _ | float _ =>
    refine ⟨?_, fun _ hx => absurd hx Except.ok_ne_error⟩
    rintro cs ⟨⟩
    exact h.scalar 4 _
  | int64 _ | double _ =>
    refine ⟨?_, fun _ hx => absurd hx Except.ok_ne_error⟩
    rintro cs ⟨⟩
    exact h.scalar 8 _
  | byteArray payload =>
    by_cases hlen : 2 ^ 32 ≤ payload.length
    · have hstage : ColumnValues.stageDatum spec length (.byteArray payload) =
          .error (Fault.byteArrayTooLong payload.length) := if_pos hlen
      rw [hstage]
      refine ⟨fun _ hc => absurd hc.symm Except.ok_ne_error, ?_⟩
      rintro x ⟨⟩
      rw [encodeDatum, Plain.Encoder.byteArray, if_pos hlen]
      rfl
    · have hstage : ColumnValues.stageDatum spec length (.byteArray payload) =
          .ok (Plain.byteArray payload) := if_neg hlen
      rw [hstage]
      refine ⟨?_, fun _ hx => absurd hx Except.ok_ne_error⟩
      rintro cs ⟨⟩
      exact h.byteArray (Nat.lt_of_not_le hlen)
  | fixedLenByteArray payload =>
    by_cases hlen : (payload.length : Int) ≠ length
    · have hstage : ColumnValues.stageDatum spec length (.fixedLenByteArray payload) =
          .error (Fault.wrongFixedLength payload.length spec.name length) := if_pos hlen
      rw [hstage]
      refine ⟨fun _ hc => absurd hc.symm Except.ok_ne_error, ?_⟩
      rintro x ⟨⟩
      rw [encodeDatum, if_pos hlen]
      rfl
    · have hstage : ColumnValues.stageDatum spec length (.fixedLenByteArray payload) =
          .ok payload := if_neg hlen
      rw [hstage]
      refine ⟨?_, fun _ hx => absurd hx Except.ok_ne_error⟩
      rintro cs ⟨⟩
      rw [encodeDatum, if_neg hlen]
      exact h.fixed payload

/-- the bytes of slots, one behind the other -/
def slotsFlatten (slots : List (Option Bytes)) : Bytes := (slots.filterMap id).flatten

theorem slotsFlatten_cons (slot : Option Bytes) (slots : List (Option Bytes)) :
    slotsFlatten (slot :: slots) = slot.getD [] ++ slotsFlatten slots := by
  cases slot <;> rfl

/-- a value takes the range behind what was written before it -/
theorem encodeSlot_ends (spec : ColumnSpec) (length : Int) (h : Holds buffers e bs)
    (slot : Option Datum) :
    (∀ c, slot.mapM (ColumnValues.stageDatum spec length) = .ok c →
      ∃ r e', encodeSlot spec length slot e = (.ok r, e') ∧ Holds buffers e' (bs ++ c.getD []) ∧
        (∀ x ∈ r, x.Within (bs ++ c.getD [])) ∧ r.map (ByteRange.of (bs ++ c.getD [])) = c) ∧
    ∀ x, slot.mapM (ColumnValues.stageDatum spec length) = .error x →
      (encodeSlot spec length slot e).1 = .error x := by
  cases slot with
  | none =>
    refine ⟨?_, fun _ hx => absurd hx Except.ok_ne_error⟩
    rintro c ⟨⟩
    refine ⟨none, e, rfl, ?_, nofun, rfl⟩
    rwa [Option.getD_none, List.append_nil]
  | some d =>
    obtain ⟨hok, herror⟩ := encodeDatum_ends h d
    refine ⟨fun c hc => ?_, fun x hx => ?_⟩
    · obtain ⟨cs, hcs, hc⟩ := Except.bind_eq_ok.mp hc
      cases hc
      obtain ⟨e', hcall, h'⟩ := hok cs hcs
      obtain ⟨hwithin, hof⟩ := ByteRange.of_last bs cs
      refine ⟨some ⟨bs.length, bs.length + cs.length⟩, e', ?_, h', ?_, congrArg some hof⟩
      · rw [encodeSlot, bind_ok (look_apply _ e), bind_ok hcall, bind_ok (look_apply _ e'),
          h.encodedLen, h'.encodedLen, List.length_append]
        rfl
      · rintro x ⟨⟩
        exact hwithin
    · have hd : ColumnValues.stageDatum spec length d = .error x := Except.error_of_pure hx
      rw [encodeSlot, bind_ok (look_apply _ e)]
      exact bind_fst_error (herror x hd) _

/-! ## slots -/

/-- slots are written one behind the other, or refused as they are when they are staged by their
bytes; the induction is on the slots, and what was written before them stays in front -/
theorem encodeSlots_ends (spec : ColumnSpec) (length : Int) (slots : List (Option Datum)) :
    ∀ {e : Plain.Encoder} {bs : Bytes}, Holds buffers e bs →
    (∀ staged,
      slots.mapM (fun slot => slot.mapM (ColumnValues.stageDatum spec length)) = .ok staged →
      ∃ rs e', encodeSlots spec length slots e = (.ok rs, e') ∧
        Holds buffers e' (bs ++ slotsFlatten staged) ∧
        (∀ r, some r ∈ rs → r.Within (bs ++ slotsFlatten staged)) ∧
        rs.map (·.map (ByteRange.of (bs ++ slotsFlatten staged))) = staged) ∧
    ∀ x, slots.mapM (fun slot => slot.mapM (ColumnValues.stageDatum spec length)) = .error x →
      (encodeSlots spec length slots e).1 = .error x := by
  induction slots with
  | nil =>
    intro e bs h
    refine ⟨?_, fun _ hx => absurd hx Except.ok_ne_error⟩
    rintro staged ⟨⟩
    refine ⟨[], e, rfl, ?_, nofun, rfl⟩
    show Holds buffers e (bs ++ [])
    rwa [List.append_nil]
  | cons slot slots ih =>
    intro e bs h
    obtain ⟨hok, herror⟩ := encodeSlot_ends spec length h slot
    rw [List.mapM_cons]
    rcases hslot : slot.mapM (ColumnValues.stageDatum spec length) with y | c
    · refine ⟨fun _ hc => absurd hc.symm Except.ok_ne_error, ?_⟩
      rintro x ⟨⟩
      rw [encodeSlots]
      exact bind_fst_error (herror y hslot) _
    · obtain ⟨r, e₁, hrun, h₁, hwithin, hr⟩ := hok c hslot
      obtain ⟨hoks, herrors⟩ := ih h₁
      rw [Except.bind_ok rfl]
      refine ⟨fun staged hstaged => ?_, fun x hx => ?_⟩
      · obtain ⟨cs, hcs, hstaged⟩ := Except.bind_eq_ok.mp hstaged
        cases hstaged
        obtain ⟨rs, e₂, hruns, h₂, hwithins, hrs⟩ := hoks cs hcs
        rw [slotsFlatten_cons, ← List.append_assoc]
        refine ⟨r :: rs, e₂, ?_, h₂, ?_, ?_⟩
        · rw [encodeSlots, bind_ok hrun, bind_ok hruns]
          rfl
        · rintro x hx
          rcases List.mem_cons.mp hx with rfl | hx
          · exact ((hwithin x rfl).append _).1
          · exact hwithins x hx
        · have hfirst : r.map (ByteRange.of (bs ++ c.getD [] ++ slotsFlatten cs)) = c := by
            refine Eq.trans ?_ hr
            cases r with
            | none => rfl
            | some x => exact congrArg some ((hwithin x rfl).append _).2
          rw [List.map_cons, hrs, hfirst]
      · have hcs : slots.mapM (fun slot => slot.mapM (ColumnValues.stageDatum spec length)) =
            .error x := Except.error_of_pure hx
        rw [encodeSlots, bind_ok hrun]
        exact bind_fst_error (herrors x hcs) _

/-- what is collected is what the encoder holds -/
theorem collect_ok {α : Type} {x : Step Plain.Encoder Error α} {a : α}
    (hx : x { sink := .unbounded } = (.ok a, e)) (h : Holds buffers e bs) :
    collect x = .ok (a, bs) := by
  obtain ⟨e', hfinish, rfl⟩ := h.finish
  rw [collect, bind_ok hx, bind_ok hfinish]
  rfl

theorem collect_error {α : Type} {x : Step Plain.Encoder Error α} {y : Error}
    (hx : (x { sink := .unbounded }).1 = .error y) : collect x = .error y := by
  have hrun := bind_fst_error hx fun a => do
    Plain.Encoder.finish
    pure a
  unfold collect
  rcases h : (x >>= fun a => do
    Plain.Encoder.finish
    pure a : Step Plain.Encoder Error α) { sink := .unbounded } with ⟨z | a, e⟩
  · rw [h] at hrun
    cases hrun
    rfl
  · rw [h] at hrun
    cases hrun

/-- staging by ranges is staging by bytes -/
theorem ofColumn_ends (spec : ColumnSpec) (vs : ColumnValues) :
    (∀ staged, vs.staged spec = .ok staged → ∃ s, ofColumn spec vs = .ok s ∧
      (∀ r, some r ∈ s.slots → r.Within s.bytes) ∧ s.slotBytes = staged) ∧
    ∀ x, vs.staged spec = .error x → ofColumn spec vs = .error x := by
  rw [ColumnValues.staged, ofColumn]
  rcases hlength : vs.fixedLength spec with y | length
  · refine ⟨fun _ hc => absurd hc.symm Except.ok_ne_error, ?_⟩
    rintro x ⟨⟩
    rfl
  · obtain ⟨hok, herror⟩ := encodeSlots_ends spec length vs.data (holds_new fun _ => [])
    refine ⟨fun staged hstaged => ?_, fun x hx => ?_⟩
    · obtain ⟨rs, e, hrun, h, hwithin, hrs⟩ := hok staged hstaged
      exact ⟨⟨slotsFlatten staged, rs⟩, Except.bind_ok (collect_ok hrun h) _, hwithin, hrs⟩
    · rw [Except.bind_ok rfl, collect_error (herror x hx)]
      rfl

end Staging

end Columnar
