import Columnar.Proofs.Compact.Values
import Columnar.Proofs.Step

/-!
# What is read is within the limits

Every reader of the compact protocol keeps its limits, so that they hold of what is read last as
they do of what is read first.

* `Read.Keeps o P x`   `x` keeps the limits of `o`, and what it answers satisfies `P`.

`keeps_foldStruct` is the rule for structs: what every field keeps of a draft, the struct does.
-/

namespace Columnar.Compact.Read

open Step

variable {α β : Type} {o : Options} {P : α → Prop}

/-- `x` keeps the limits of `o`, and what it answers satisfies `P` -/
def Keeps (o : Options) (P : α → Prop) (x : Read α) : Prop :=
  Maintains (fun r : Reader => r.Obeys o) P x

theorem keeps_update {f : Reader → Reader}
    (h : ∀ r, (f r).stringLimit = r.stringLimit ∧ (f r).containerLimit = r.containerLimit) :
    Keeps o Any (Step.update f) :=
  maintains_update fun r hr => ⟨(h r).1.trans hr.1, (h r).2.trans hr.2⟩

theorem keeps_ofCursor (x : Step Cursor Error α) : Keeps o Any (ofCursor x) :=
  maintains_on fun _ _ hr => ⟨hr.1, hr.2⟩

theorem keeps_lift {e : Except Error α} (h : ∀ a, e = .ok a → P a) : Keeps o P (liftM e) :=
  maintains_lift h

/-! ## numbers -/

theorem keeps_byte : Keeps o Any byte := keeps_ofCursor _

theorem keeps_view (n : Nat) : Keeps o (fun bs => bs.length = n) (view n) := by
  intro r hr
  refine ⟨(keeps_ofCursor _ r hr).1, fun bs h => ?_⟩
  replace h : (Step.mapError Failure.error (Cursor.view n) r.cursor).1 = .ok bs := h
  rw [Step.mapError, Cursor.view_eq] at h
  split at h
  · rename_i a s e
    split at e
    · cases e
      cases h
      show (r.cursor.rest.take n).length = n
      rw [List.length_take]
      omega
    · cases e
  · cases h

theorem keeps_varint : Keeps o Any varint := keeps_ofCursor _

theorem keeps_folded (bits : Nat) : Keeps o Any (folded bits) := by
  apply maintains_bind keeps_varint
  intro raw _
  split
  · exact maintains_pure trivial
  · exact maintains_fail _

theorem keeps_i8 : Keeps o Any i8 :=
  maintains_bind keeps_byte fun _ _ => maintains_pure trivial

theorem keeps_i16 : Keeps o Any i16 :=
  maintains_bind (keeps_folded 16) fun _ _ => maintains_pure trivial

theorem keeps_i32 : Keeps o Any i32 :=
  maintains_bind (keeps_folded 32) fun _ _ => maintains_pure trivial

theorem keeps_i64 : Keeps o Any i64 :=
  maintains_bind keeps_varint fun _ _ => maintains_pure trivial

theorem keeps_double : Keeps o Any double :=
  maintains_bind (keeps_view 8) fun _ _ => maintains_pure trivial

/-! ## structs and containers -/

theorem keeps_structBegin : Keeps o Any structBegin := by
  apply maintains_bind maintains_state
  intro r hr
  split
  · exact maintains_fail _
  · exact maintains_put ⟨hr.1, hr.2⟩

theorem keeps_structEnd : Keeps o Any structEnd := by
  apply maintains_bind maintains_state
  intro r hr
  split
  · exact maintains_fail _
  · exact maintains_put ⟨hr.1, hr.2⟩

theorem keeps_wireType (code : UInt8) : Keeps o Any (wireType code) := by
  unfold wireType
  split
  · exact maintains_pure trivial
  · exact maintains_fail _

theorem keeps_fieldNumber (delta : Nat) : Keeps o Any (fieldNumber delta) := by
  apply maintains_bind (P := Any) (maintains_look fun _ _ => trivial)
  intro last _
  split
  · exact keeps_i16
  · split
    · exact maintains_pure trivial
    · exact maintains_fail _

theorem keeps_fieldBegin : Keeps o Any fieldBegin := by
  apply maintains_bind keeps_byte
  intro header _
  dsimp only
  split
  · exact maintains_pure trivial
  · apply maintains_bind (keeps_wireType _)
    intro t _
    refine maintains_bind (keeps_update fun _ => ⟨rfl, rfl⟩) fun _ _ => ?_
    apply maintains_bind (keeps_fieldNumber _)
    intro id _
    exact maintains_bind (keeps_update fun _ => ⟨rfl, rfl⟩) fun _ _ => maintains_pure trivial

theorem keeps_containerSize (raw : Nat) :
    Keeps o (fun n => n ≤ o.containerLimit) (containerSize raw) := by
  refine maintains_bind (P := (· = o.containerLimit))
    (maintains_look fun _ hr => hr.containerLimit) fun limit hlimit => ?_
  dsimp only
  split
  · exact maintains_fail _
  · split
    · exact maintains_fail _
    · apply maintains_pure
      rw [← hlimit]
      omega

/-- a list that stands in its header is short, any other within the limit -/
theorem keeps_listBegin :
    Keeps o (fun h => h.2 < 15 ∨ h.2 ≤ o.containerLimit) listBegin := by
  apply maintains_bind keeps_byte
  intro header _
  apply maintains_bind (keeps_wireType _)
  intro t _
  dsimp only
  split
  · rename_i h
    exact maintains_pure (Or.inl h)
  · apply maintains_bind keeps_varint
    intro raw _
    exact maintains_bind (keeps_containerSize raw) fun n hn => maintains_pure (Or.inr hn)

/-- memory is set aside for no more than it holds -/
theorem keeps_reserve (n room : Nat) :
    Keeps o (fun _ => n * room ≤ maxListRoom) (reserve n room) := by
  unfold reserve
  split
  · exact maintains_fail _
  · rename_i h
    exact maintains_pure (Nat.le_of_not_lt h)

theorem keeps_mapBegin : Keeps o (fun h => h.size ≤ o.containerLimit) mapBegin := by
  apply maintains_bind keeps_varint
  intro raw _
  apply maintains_bind (keeps_containerSize raw)
  intro n hn
  split
  · exact maintains_pure (Nat.zero_le _)
  · apply maintains_bind keeps_byte
    intro types _
    apply maintains_bind (keeps_wireType _)
    intro key _
    exact maintains_bind (keeps_wireType _) fun value _ => maintains_pure hn

theorem keeps_bool : Keeps o Any bool := by
  apply maintains_bind maintains_state
  intro r hr
  split
  · exact maintains_bind (maintains_put ⟨hr.1, hr.2⟩) fun _ _ => maintains_pure trivial
  · exact maintains_bind keeps_byte fun _ _ => maintains_pure trivial

theorem keeps_binary : Keeps o (fun bs => Fits o bs.length) binary := by
  apply maintains_bind keeps_varint
  intro raw _
  refine maintains_bind (P := (· = o.stringLimit))
    (maintains_look fun _ hr => hr.stringLimit) fun limit hlimit => ?_
  dsimp only
  split
  · exact maintains_fail _
  · split
    · exact maintains_fail _
    · apply (keeps_view _).mono
      intro bs hbs
      have hlt := (Int64.ofNat raw).toInt_lt
      rw [hbs, Fits, ← hlimit, maxListRoom]
      omega

theorem keeps_string : Keeps o (fun t => Fits o (Utf8.encode t).length) string := by
  apply maintains_bind keeps_binary
  intro bs hbs
  split
  · rename_i s e
    apply maintains_pure
    rwa [Utf8.encode_of_decode e]
  · exact maintains_fail _

/-! ## whole structs -/

theorem keeps_foldFields {f : β → WireType → Int16 → Read β} {P : β → Prop}
    (hf : ∀ b t id, P b → Keeps o P (f b t id)) (fuel : Nat) :
    ∀ b, P b → Keeps o P (foldFields f fuel b) := by
  induction fuel with
  | zero => exact fun b hb => maintains_pure hb
  | succ fuel ih =>
    intro b hb
    apply maintains_bind keeps_fieldBegin
    intro field _
    match field with
    | none => exact maintains_pure hb
    | some (t, id) => exact maintains_bind (hf b t id hb) fun b' hb' => ih b' hb'

/-- what every field keeps of a draft, the struct does -/
theorem keeps_foldStruct {f : β → WireType → Int16 → Read β} {P : β → Prop} {b : β} (hb : P b)
    (hf : ∀ b t id, P b → Keeps o P (f b t id)) : Keeps o P (foldStruct f b) := by
  apply maintains_bind keeps_structBegin
  intro _ _
  apply maintains_bind (P := Any) (maintains_look fun _ _ => trivial)
  intro left _
  apply maintains_bind (keeps_foldFields hf _ b hb)
  intro b' hb'
  exact maintains_bind keeps_structEnd fun _ _ => maintains_pure hb'

theorem keeps_skipWithin (depth : Nat) : ∀ t, Keeps o Any (skipWithin depth t) := by
  induction depth with
  | zero => exact fun _ => maintains_fail _
  | succ depth ih =>
    intro t
    have done {α : Type} {x : Read α} {P : α → Prop} (hx : Keeps o P x) :
        Keeps o Any (do let _ ← x) := maintains_bind hx fun _ _ => maintains_pure trivial
    have list : Keeps o Any
        (listBegin >>= fun h => Step.replicate h.2 (skipWithin depth h.1)) :=
      maintains_bind keeps_listBegin fun h _ => maintains_replicate (ih h.1) h.2
    cases t with
    | stop => exact maintains_fail _
    | bool => exact done keeps_bool
    | i8 => exact done keeps_i8
    | i16 => exact done keeps_i16
    | i32 => exact done keeps_i32
    | i64 => exact done keeps_i64
    | double => exact done keeps_double
    | binary => exact done keeps_binary
    | list => exact list
    | set => exact list
    | map =>
      apply maintains_bind keeps_mapBegin
      intro header _
      split
      · exact maintains_pure trivial
      · rename_i key value _
        exact maintains_replicate (maintains_bind (ih key) fun _ _ => ih value) _
    | struct => exact keeps_foldStruct trivial fun _ t _ _ => ih t

theorem keeps_skip (t : WireType) : Keeps o Any (skip t) := keeps_skipWithin maxSkipDepth t

end Columnar.Compact.Read
