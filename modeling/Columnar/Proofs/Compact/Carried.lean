import Columnar.Compact.Reader
import Columnar.Compact.Writer
import Columnar.Proofs.Text
import Columnar.Proofs.Varint

/-!
# What the compact protocol carries

A value is carried when a reader takes what a writer emits.

* `Write.Emits d i j x bs a`    `x` writes `bs` and answers `a`; it opens `d` structs at most, and
                               takes the number of the last field from `i` to `j`;
* `Read.Takes o d i j x bs a`   the same for a reader under the limits of `o`;
* `Carried o d x y a`           what `x` emits, `y` takes, and answers `a`.

`emits_add` and `takes_bind` put the parts together.
-/

namespace Columnar

/-- a sink that takes every call -/
def Sink.Open (s : Sink) : Prop := ∀ log bs, s.admits log bs = true

/-- `s'` is an open sink that took `bs` more than `s` -/
structure Sink.Grows (s : Sink) (bs : Bytes) (s' : Sink) : Prop where
  isOpen : s'.Open
  bytes : s'.bytes = s.bytes ++ bs

theorem Sink.Grows.nil {s : Sink} (h : s.Open) : s.Grows [] s :=
  ⟨h, (List.append_nil _).symm⟩

theorem Sink.Grows.trans {s₁ s₂ s₃ : Sink} {bs cs : Bytes} (h : s₁.Grows bs s₂)
    (h' : s₂.Grows cs s₃) : s₁.Grows (bs ++ cs) s₃ :=
  ⟨h'.isOpen, by rw [h'.bytes, h.bytes, List.append_assoc]⟩

theorem Sink.write_open {s : Sink} (h : s.Open) (bs : Bytes) :
    ∃ s', Sink.write bs s = (.ok (), s') ∧ s.Grows bs s' := by
  unfold Sink.write
  by_cases he : bs.isEmpty = true
  · rw [if_pos he, List.isEmpty_iff.mp he]
    exact ⟨s, rfl, Grows.nil h⟩
  · rw [if_neg he, if_pos (h s.log bs)]
    refine ⟨_, rfl, h, ?_⟩
    simp [Sink.bytes, taken, takenOf]

namespace Compact

/-! ## writing -/

/-- a writer behind the field `last`, with no boolean held back and room for `depth` structs -/
structure Writer.At (w : Writer) (depth : Nat) (last : Int16) : Prop where
  sink : w.sink.Open
  last : w.lastField = last
  pending : w.pendingBool = none
  depth : w.enclosing.length + depth ≤ maxStructDepth

namespace Write

variable {α β : Type} {d : Nat} {i j k : Int16} {s t : Bytes}

/-- `x` writes `s` and answers `a` -/
def Emits (d : Nat) (i j : Int16) (x : Step Writer Error α) (s : Bytes) (a : α) : Prop :=
  ∀ w : Writer, w.At d i → ∃ z : Sink,
    x w = (.ok a, { w with sink := z, lastField := j }) ∧ w.sink.Grows s z

theorem emits_pure (a : α) : Emits d i i (pure a) [] a := by
  intro w hw
  refine ⟨w.sink, ?_, Sink.Grows.nil hw.sink⟩
  rw [← hw.last]
  rfl

theorem emits_bind {x : Step Writer Error α} {f : α → Step Writer Error β} {a : α} {b : β}
    (hx : Emits d i j x s a) (hf : Emits d j k (f a) t b) :
    Emits d i k (x >>= f) (s ++ t) b := by
  intro w hw
  obtain ⟨z, e, hg⟩ := hx w hw
  obtain ⟨z', e', hg'⟩ := hf { w with sink := z, lastField := j }
    ⟨hg.isOpen, rfl, hw.pending, hw.depth⟩
  refine ⟨z', ?_, hg.trans hg'⟩
  rw [Step.bind_ok e, e']

/-- a writer, and what is done with its answer without writing -/
theorem emits_bind_pure {x : Step Writer Error α} {f : α → Step Writer Error β} {a : α} {b : β}
    (hx : Emits d i j x s a) (hf : Emits d j k (f a) [] b) : Emits d i k (x >>= f) s b := by
  have h := emits_bind hx hf
  rwa [List.append_nil] at h

/-- the number of the last field is looked up first -/
theorem emits_look_bind {f : Int16 → Step Writer Error β} {b : β} (h : Emits d i j (f i) s b) :
    Emits d i j (Step.look Writer.lastField >>= f) s b := by
  intro w hw
  rw [Step.bind_ok (Step.look_apply _ _), hw.last]
  exact h w hw

theorem emits_setLast : Emits d i j (Step.update fun w => { w with lastField := j }) [] () :=
  fun w hw => ⟨w.sink, rfl, Sink.Grows.nil hw.sink⟩

theorem emits_call (s : Bytes) : Emits d i i (call s) s s.length := by
  intro w hw
  obtain ⟨z, hz, hg⟩ := Sink.write_open hw.sink s
  refine ⟨z, ?_, hg⟩
  rw [call, Step.bind_apply, Step.on_apply, hz, ← hw.last]
  rfl

/-- two writers, one after the other, and the sum of what they answer -/
theorem emits_add {x y : Write Nat} (hx : Emits d i j x s s.length)
    (hy : Emits d j k y t t.length) :
    Emits d i k (do let n ← x; let m ← y; pure (n + m)) (s ++ t) (s ++ t).length := by
  rw [List.length_append]
  exact emits_bind hx (emits_bind_pure hy (emits_pure _))

end Write

/-! ## reading -/

/-- a reader under the limits of `o` -/
structure Reader.Obeys (r : Reader) (o : Options) : Prop where
  stringLimit : r.stringLimit = o.stringLimit
  containerLimit : r.containerLimit = o.containerLimit

/-- a reader behind the field `last`, with no boolean held back and room for `depth` structs -/
structure Reader.At (r : Reader) (o : Options) (depth : Nat) (last : Int16) : Prop where
  limits : r.Obeys o
  last : r.lastField = last
  pending : r.pendingBool = none
  depth : r.enclosing.length + depth ≤ maxStructDepth

namespace Read

variable {α β : Type} {o : Options} {d : Nat} {i j k : Int16} {s t : Bytes}

/-- `x` reads `s` and answers `a` -/
def Takes (o : Options) (d : Nat) (i j : Int16) (x : Read α) (s : Bytes) (a : α) : Prop :=
  ∀ (r : Reader) (before rest : Bytes), r.At o d i → r.cursor = ⟨before, s ++ rest⟩ →
    x r = (.ok a, { r with cursor := ⟨s.reverse ++ before, rest⟩, lastField := j })

theorem takes_pure (a : α) : Takes o d i i (pure a) [] a := by
  intro r before rest hr hc
  obtain ⟨_, _, _, _, _, _⟩ := r
  cases hc
  cases hr.last
  rfl

theorem takes_bind {x : Read α} {f : α → Read β} {a : α} {b : β} (hx : Takes o d i j x s a)
    (hf : Takes o d j k (f a) t b) : Takes o d i k (x >>= f) (s ++ t) b := by
  intro r before rest hr hc
  rw [List.append_assoc] at hc
  rw [Step.bind_ok (hx r before (t ++ rest) hr hc), List.reverse_append, List.append_assoc]
  obtain ⟨hs, hl⟩ := hr.limits
  exact hf _ (s.reverse ++ before) rest ⟨⟨hs, hl⟩, rfl, hr.pending, hr.depth⟩ rfl

/-- a reader, and what is done with its answer without reading -/
theorem takes_bind_pure {x : Read α} {f : α → Read β} {a : α} {b : β} (hx : Takes o d i j x s a)
    (hf : Takes o d j k (f a) [] b) : Takes o d i k (x >>= f) s b := by
  have h := takes_bind hx hf
  rwa [List.append_nil] at h

/-- something is looked up, and then read -/
theorem takes_pure_bind {x : Read α} {f : α → Read β} {a : α} {b : β} (hx : Takes o d i j x [] a)
    (hf : Takes o d j k (f a) s b) : Takes o d i k (x >>= f) s b :=
  takes_bind hx hf

theorem ofCursor_ok {x : Step Cursor Error α} {a : α} (h : Cursor.Takes x s a) {r : Reader}
    {before rest : Bytes} (hc : r.cursor = ⟨before, s ++ rest⟩) :
    ofCursor x r = (.ok a, { r with cursor := ⟨s.reverse ++ before, rest⟩ }) := by
  have e : (x : Step Cursor Failure α) r.cursor = (.ok a, ⟨s.reverse ++ before, rest⟩) := by
    show Step.mapError Failure.error x r.cursor = _
    rw [Step.mapError, hc, h before rest]
  rw [ofCursor, Step.on_apply, e]

theorem takes_ofCursor {x : Step Cursor Error α} {a : α} (h : Cursor.Takes x s a) :
    Takes o d i i (ofCursor x) s a := by
  intro r before rest hr hc
  rw [ofCursor_ok h hc, ← hr.last]

theorem takes_look {f : Reader → α} {a : α} (h : ∀ r : Reader, r.Obeys o → f r = a) :
    Takes o d i i (Step.look f) [] a := by
  intro r before rest hr hc
  rw [Step.look_apply, h r hr.limits]
  exact takes_pure a r before rest hr hc

theorem takes_lift {e : Except Error α} {a : α} (h : e = .ok a) :
    Takes o d i i (liftM e) [] a := by
  rw [h]
  exact takes_pure a

theorem takes_byte (b : UInt8) : Takes o d i i byte [b] b := takes_ofCursor (Cursor.takes_byte b)

theorem takes_view (s : Bytes) : Takes o d i i (view s.length) s s :=
  takes_ofCursor (Cursor.takes_view s)

theorem takes_varint {n : Nat} (h : n < 2 ^ 64) :
    Takes o d i i varint (Varint.encode n) n := takes_ofCursor (Varint.read_encode h)

end Read

/-! ## both -/

/-- what `x` emits, `y` takes, and answers `a` -/
def Carried {α : Type} (o : Options) (d : Nat) (x : Write Nat) (y : Read α) (a : α) : Prop :=
  ∃ s, ∀ i, Write.Emits d i i x s s.length ∧ Read.Takes o d i i y s a

variable {α : Type} {o : Options} {d : Nat}

/-- members of a list are carried by what carries each of them -/
theorem carried_times {x : α → Write Nat} {y : Read α} {as : List α}
    (h : ∀ a ∈ as, Carried o d (x a) y a) :
    Carried o d (Write.total (as.map x)) (Step.times as.length y) as := by
  induction as with
  | nil => exact ⟨[], fun _ => ⟨Write.emits_pure 0, Read.takes_pure []⟩⟩
  | cons a as ih =>
    obtain ⟨s, hs⟩ := h a List.mem_cons_self
    obtain ⟨t, ht⟩ := ih fun b hb => h b (List.mem_cons_of_mem _ hb)
    refine ⟨s ++ t, fun i => ⟨Write.emits_add (hs i).1 (ht i).1, ?_⟩⟩
    rw [List.length_cons, Step.times_succ]
    exact Read.takes_bind (hs i).2 (Read.takes_bind_pure (ht i).2 (Read.takes_pure (a :: as)))

end Compact

end Columnar
