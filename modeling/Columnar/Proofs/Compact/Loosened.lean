import Columnar.Proofs.Compact.Values
import Columnar.Proofs.Step

/-!
# Readers under looser limits

A limit is only ever held against a size, and what is within it is within a looser one.  So what a
reader answers it answers under looser limits as well, and it stops at the same place.

* `Reader.loosen o r`   `r` with the limits of `o` where these are looser;
* `Read.Endures o x`    what `x` answers, it answers from there.

`endures_bind` puts two steps together; `endures_foldStruct` is the rule for structs.
-/

namespace Columnar.Compact

/-- a reader with the limits of `o` where these are looser -/
def Reader.loosen (o : Options) (r : Reader) : Reader :=
  { r with
    stringLimit := max r.stringLimit o.stringLimit
    containerLimit := max r.containerLimit o.containerLimit }

theorem Reader.loosen_ofCursor {o o' : Options} (hstring : o.stringLimit ≤ o'.stringLimit)
    (hcontainer : o.containerLimit ≤ o'.containerLimit) (c : Cursor) :
    (Reader.ofCursor c o).loosen o' = .ofCursor c o' := by
  show Reader.mk c 0 [] none (max o.stringLimit o'.stringLimit)
    (max o.containerLimit o'.containerLimit) = _
  rw [Nat.max_eq_right hstring, Nat.max_eq_right hcontainer]
  rfl

namespace Read

variable {α β : Type} {o : Options} {x : Read α}

/-- what `x` answers, it answers under looser limits -/
def Endures (o : Options) (x : Read α) : Prop :=
  ∀ r a s, x r = (.ok a, s) → x (r.loosen o) = (.ok a, s.loosen o)

/-! ## one step and the next -/

theorem endures_pure (a : α) : Endures o (pure a : Read α) := by
  intro r b s h
  cases h
  rfl

theorem endures_fail (e : Failure) : Endures o (Step.fail e : Read α) := fun _ _ _ h => nomatch h

theorem endures_lift (e : Except Error α) : Endures o (liftM e : Read α) := by
  cases e with
  | error e => exact endures_fail (Failure.error e)
  | ok a => exact endures_pure a

theorem endures_bind {f : α → Read β} (hx : Endures o x) (hf : ∀ a, Endures o (f a)) :
    Endures o (x >>= f) := by
  intro r b t h
  obtain ⟨a, s, h₁, h₂⟩ := Step.bind_eq_ok.mp h
  rw [Step.bind_ok (hx r a s h₁)]
  exact hf a s b t h₂

theorem endures_ite {p : Prop} [Decidable p] {y : Read α} (hx : Endures o x) (hy : Endures o y) :
    Endures o (if p then x else y) := by
  split
  · exact hx
  · exact hy

/-- a look at anything but the limits -/
theorem endures_look {f : Reader → α} (h : ∀ r, f (r.loosen o) = f r) :
    Endures o (Step.look f : Read α) := by
  intro r a s hrun
  cases hrun
  rw [Step.look_apply, h]

/-- a change of anything but the limits -/
theorem endures_update {f : Reader → Reader} (h : ∀ r, f (r.loosen o) = (f r).loosen o) :
    Endures o (Step.update f : Read Unit) := by
  intro r a s hrun
  cases hrun
  rw [Step.update_apply, h]

theorem endures_ofCursor (x : Step Cursor Error α) : Endures o (ofCursor x) := by
  intro r a s h
  rw [ofCursor, Step.on_apply] at h ⊢
  obtain ⟨hanswer, rfl⟩ := Prod.mk.inj h
  rw [← hanswer]
  rfl

/-- a limit is looked up and held against a size; what is within it is within a looser one -/
theorem endures_limit {limit : Reader → Nat} (hlimit : ∀ r, limit r ≤ limit (r.loosen o))
    {negative : Prop} [Decidable negative] (e : Failure) (size : Nat) (e' : Nat → Failure)
    (hx : Endures o x) : Endures o (do
      let l ← Step.look limit
      if negative then Step.fail e else if l < size then Step.fail (e' l) else x) := by
  intro r a s h
  rw [Step.bind_ok (Step.look_apply _ _)] at h ⊢
  by_cases hnegative : negative
  · rw [if_pos hnegative] at h
    cases h
  · rw [if_neg hnegative] at h ⊢
    by_cases hlarge : limit r < size
    · rw [if_pos hlarge] at h
      cases h
    · rw [if_neg hlarge] at h
      rw [if_neg fun hlarge' => hlarge (Nat.lt_of_le_of_lt (hlimit r) hlarge')]
      exact hx r a s h

/-! ## numbers -/

theorem endures_byte : Endures o byte := endures_ofCursor _

theorem endures_view (n : Nat) : Endures o (view n) := endures_ofCursor _

theorem endures_varint : Endures o varint := endures_ofCursor _

theorem endures_folded (bits : Nat) : Endures o (folded bits) :=
  endures_bind endures_varint fun _ => endures_ite (endures_pure _) (endures_fail _)

theorem endures_i8 : Endures o i8 := endures_bind endures_byte fun _ => endures_pure _

theorem endures_i16 : Endures o i16 := endures_bind (endures_folded 16) fun _ => endures_pure _

theorem endures_i32 : Endures o i32 := endures_bind (endures_folded 32) fun _ => endures_pure _

theorem endures_i64 : Endures o i64 := endures_bind endures_varint fun _ => endures_pure _

theorem endures_double : Endures o double := endures_bind (endures_view 8) fun _ => endures_pure _

/-! ## structs and containers -/

theorem endures_structBegin : Endures o structBegin := by
  intro r a s h
  rw [structBegin, Step.state_bind] at h ⊢
  rw [show (r.loosen o).enclosing = r.enclosing from rfl]
  by_cases hdeep : r.enclosing.length = maxStructDepth
  · rw [if_pos hdeep] at h
    cases h
  · rw [if_neg hdeep] at h ⊢
    cases h
    rfl

theorem endures_structEnd : Endures o structEnd := by
  intro r a s h
  rw [structEnd, Step.state_bind] at h ⊢
  rw [show (r.loosen o).enclosing = r.enclosing from rfl]
  rcases henclosing : r.enclosing with _ | ⟨last, enclosing⟩
  · rw [henclosing] at h
    cases h
  · rw [henclosing] at h
    cases h
    rfl

theorem endures_wireType (code : UInt8) : Endures o (wireType code) := by
  unfold wireType
  split
  · exact endures_pure _
  · exact endures_fail _

theorem endures_fieldNumber (delta : Nat) : Endures o (fieldNumber delta) := by
  refine endures_bind (endures_look fun _ => rfl) fun last => ?_
  split
  · exact endures_i16
  · split
    · exact endures_pure _
    · exact endures_fail _

theorem endures_fieldBegin : Endures o fieldBegin := by
  refine endures_bind endures_byte fun header => ?_
  refine endures_ite (endures_pure none) ?_
  refine endures_bind (endures_wireType _) fun t => ?_
  refine endures_bind (endures_update fun _ => rfl) fun _ => ?_
  refine endures_bind (endures_fieldNumber _) fun id => ?_
  exact endures_bind (endures_update fun _ => rfl) fun _ => endures_pure _

theorem endures_containerSize (raw : Nat) : Endures o (containerSize raw) :=
  endures_limit (fun _ => Nat.le_max_left _ _) _ _ _ (endures_pure _)

theorem endures_listBegin : Endures o listBegin := by
  refine endures_bind endures_byte fun header => ?_
  refine endures_bind (endures_wireType _) fun t => ?_
  refine endures_ite (endures_pure _) ?_
  refine endures_bind endures_varint fun raw => ?_
  exact endures_bind (endures_containerSize raw) fun n => endures_pure _

theorem endures_reserve (n room : Nat) : Endures o (reserve n room) :=
  endures_ite (endures_fail _) (endures_pure ())

theorem endures_mapBegin : Endures o mapBegin := by
  refine endures_bind endures_varint fun raw => ?_
  refine endures_bind (endures_containerSize raw) fun n => ?_
  refine endures_ite (endures_pure _) ?_
  refine endures_bind endures_byte fun types => ?_
  refine endures_bind (endures_wireType _) fun key => ?_
  exact endures_bind (endures_wireType _) fun value => endures_pure _

theorem endures_bool : Endures o bool := by
  intro r b s h
  rw [bool, Step.state_bind] at h ⊢
  rw [show (r.loosen o).pendingBool = r.pendingBool from rfl]
  rcases hpending : r.pendingBool with _ | held
  · rw [hpending] at h
    exact endures_bind endures_byte (fun _ => endures_pure _) r b s h
  · rw [hpending] at h
    cases h
    rfl

theorem endures_binary : Endures o binary :=
  endures_bind endures_varint fun _ =>
    endures_limit (fun _ => Nat.le_max_left _ _) _ _ _ (endures_view _)

theorem endures_string : Endures o string := by
  refine endures_bind endures_binary fun bs => ?_
  split
  · exact endures_pure _
  · exact endures_fail _

/-! ## repetitions -/

theorem endures_times (hx : Endures o x) (n : Nat) : Endures o (Step.times n x) := by
  induction n with
  | zero => exact endures_pure []
  | succ n ih =>
    rw [Step.times_succ]
    exact endures_bind hx fun a => endures_bind ih fun as => endures_pure (a :: as)

theorem endures_replicate {x : Read Unit} (hx : Endures o x) (n : Nat) :
    Endures o (Step.replicate n x) := by
  induction n with
  | zero => exact endures_pure ()
  | succ n ih =>
    rw [Step.replicate_succ]
    exact endures_bind hx fun _ => ih

/-! ## whole structs -/

section
variable {f : β → WireType → Int16 → Read β} (hf : ∀ b t id, Endures o (f b t id))
include hf

theorem endures_foldFields (fuel : Nat) : ∀ b, Endures o (foldFields f fuel b) := by
  induction fuel with
  | zero => exact endures_pure
  | succ fuel ih =>
    refine fun b => endures_bind endures_fieldBegin fun field => ?_
    rcases field with _ | ⟨t, id⟩
    · exact endures_pure b
    · exact endures_bind (hf b t id) ih

theorem endures_foldStruct (b : β) : Endures o (foldStruct f b) := by
  refine endures_bind endures_structBegin fun _ => ?_
  refine endures_bind (endures_look fun _ => rfl) fun left => ?_
  refine endures_bind (endures_foldFields hf _ b) fun b' => ?_
  exact endures_bind endures_structEnd fun _ => endures_pure b'

end

theorem endures_skipWithin (depth : Nat) : ∀ t, Endures o (skipWithin depth t) := by
  induction depth with
  | zero => exact fun _ => endures_fail _
  | succ depth ih =>
    intro t
    have done {α : Type} {x : Read α} (hx : Endures o x) : Endures o (do let _ ← x) :=
      endures_bind hx fun _ => endures_pure ()
    have list : Endures o (listBegin >>= fun h => Step.replicate h.2 (skipWithin depth h.1)) :=
      endures_bind endures_listBegin fun h => endures_replicate (ih h.1) h.2
    cases t with
    | stop => exact endures_fail _
    | bool => exact done endures_bool
    | i8 => exact done endures_i8
    | i16 => exact done endures_i16
    | i32 => exact done endures_i32
    | i64 => exact done endures_i64
    | double => exact done endures_double
    | binary => exact done endures_binary
    | list => exact list
    | set => exact list
    | map =>
      refine endures_bind endures_mapBegin fun header => ?_
      split
      · exact endures_pure ()
      · rename_i key value _
        exact endures_replicate (endures_bind (ih key) fun _ => ih value) _
    | struct => exact endures_foldStruct (fun _ t _ => ih t) ()

theorem endures_skip (t : WireType) : Endures o (skip t) := endures_skipWithin maxSkipDepth t

end Read

end Columnar.Compact
