import Columnar.Proofs.Step
import Columnar.Compact.Reader

/-!
# What a header holds back is taken

The value of a boolean field is held back when its header is read, and taken when the field is
read or skipped.  Between two fields nothing is held back.

* `Read.Settled r`       nothing is held back;
* `Read.Quiet x`         where nothing is held back, `x` leaves nothing held back;
* `Read.Settles t x`     the same behind the header of a field of type `t`, which may be a boolean;
* `settles_skipWithin`   a field that is skipped leaves nothing held back.
-/

namespace Columnar.Compact.Read

open Step

variable {α β : Type} {x : Read α} {f : α → Read β} {r : Reader}

/-- nothing is held back -/
def Settled (r : Reader) : Prop := r.pendingBool = none

/-- the run ended with nothing held back, unless it failed -/
def EndsSettled (t : Except Failure α × Reader) : Prop :=
  Ends (fun _ r => Settled r) (fun _ _ => True) t

def Quiet (x : Read α) : Prop := ∀ r, Settled r → EndsSettled (x r)

/-- behind the header of a field of type `t`, `x` leaves nothing held back -/
def Settles (t : WireType) (x : Read α) : Prop :=
  ∀ r, (t = .bool ∨ Settled r) → EndsSettled (x r)

theorem Quiet.settles {t : WireType} (h : Quiet x) (ht : t ≠ .bool) : Settles t x :=
  fun r hr => h r (hr.resolve_left ht)

theorem Settles.quiet {t : WireType} (h : Settles t x) : Quiet x := fun r hr => h r (.inr hr)

/-! ## how steps are put together -/

theorem endsSettled_bind (hx : EndsSettled (x r)) (hf : ∀ a, Quiet (f a)) :
    EndsSettled ((x >>= f) r) := ends_bind hx fun a s hs => hf a s hs

theorem quiet_bind (hx : Quiet x) (hf : ∀ a, Quiet (f a)) : Quiet (x >>= f) :=
  fun r hr => endsSettled_bind (hx r hr) hf

theorem quiet_pure (a : α) : Quiet (pure a : Read α) := fun _ hr => hr

theorem quiet_fail (e : Failure) : Quiet (Step.fail e : Read α) := fun _ _ => trivial

theorem quiet_look (g : Reader → α) : Quiet (Step.look g : Read α) := fun _ hr => hr

theorem quiet_lift (e : Except Error α) : Quiet (liftM e : Read α) := by
  cases e with
  | error e => exact quiet_fail (Failure.error e)
  | ok a => exact quiet_pure a

theorem quiet_ofCursor (y : Step Cursor Error α) : Quiet (ofCursor y) := by
  intro r hr
  rw [ofCursor, on_apply]
  rcases (y : Step Cursor Failure α) r.cursor with ⟨e | a, c⟩
  · trivial
  · exact hr

theorem quiet_times (h : Quiet x) (n : Nat) : Quiet (times n x) := by
  induction n with
  | zero => exact quiet_pure []
  | succ n ih =>
    rw [times_succ]
    exact quiet_bind h fun a => quiet_bind ih fun as => quiet_pure (a :: as)

theorem quiet_replicate {x : Read Unit} (h : Quiet x) (n : Nat) : Quiet (replicate n x) := by
  induction n with
  | zero => exact quiet_pure ()
  | succ n ih =>
    rw [replicate_succ]
    exact quiet_bind h fun _ => ih

/-! ## numbers, containers and byte strings -/

theorem quiet_folded (bits : Nat) : Quiet (folded bits) := by
  refine quiet_bind (quiet_ofCursor _) fun raw => ?_
  split
  · exact quiet_pure _
  · exact quiet_fail _

theorem quiet_i16 : Quiet i16 := quiet_bind (quiet_folded 16) fun _ => quiet_pure _

theorem quiet_i32 : Quiet i32 := quiet_bind (quiet_folded 32) fun _ => quiet_pure _

theorem quiet_i64 : Quiet i64 := quiet_bind (quiet_ofCursor _) fun _ => quiet_pure _

theorem quiet_wireType (code : UInt8) : Quiet (wireType code) := by
  unfold wireType
  split
  · exact quiet_pure _
  · exact quiet_fail _

theorem quiet_containerSize (raw : Nat) : Quiet (containerSize raw) := by
  refine quiet_bind (quiet_look _) fun limit => ?_
  dsimp only
  split
  · exact quiet_fail _
  · split
    · exact quiet_fail _
    · exact quiet_pure _

theorem quiet_listBegin : Quiet listBegin := by
  refine quiet_bind (quiet_ofCursor _) fun header => quiet_bind (quiet_wireType _) fun t => ?_
  dsimp only
  split
  · exact quiet_pure _
  · refine quiet_bind (quiet_ofCursor _) fun raw => ?_
    exact quiet_bind (quiet_containerSize raw) fun _ => quiet_pure _

theorem quiet_mapBegin : Quiet mapBegin := by
  refine quiet_bind (quiet_ofCursor _) fun raw => quiet_bind (quiet_containerSize raw) fun n => ?_
  split
  · exact quiet_pure _
  · refine quiet_bind (quiet_ofCursor _) fun types => quiet_bind (quiet_wireType _) fun key => ?_
    exact quiet_bind (quiet_wireType _) fun value => quiet_pure _

theorem quiet_reserve (n room : Nat) : Quiet (reserve n room) := by
  unfold reserve
  split
  · exact quiet_fail _
  · exact quiet_pure ()

/-- a boolean is taken wherever it is -/
theorem settles_bool : Settles .bool bool := by
  intro r _
  rw [bool, state_bind]
  rcases h : r.pendingBool with _ | b
  · exact quiet_bind (quiet_ofCursor _) (fun _ => quiet_pure _) r h
  · exact (rfl : Settled { r with pendingBool := none })

theorem quiet_binary : Quiet binary := by
  refine quiet_bind (quiet_ofCursor _) fun raw => quiet_bind (quiet_look _) fun limit => ?_
  dsimp only
  split
  · exact quiet_fail _
  · split
    · exact quiet_fail _
    · exact quiet_ofCursor _

theorem quiet_string : Quiet string := by
  refine quiet_bind quiet_binary fun bs => ?_
  split
  · exact quiet_pure _
  · exact quiet_fail _

/-! ## structs -/

/-- a header holds a boolean back only for a field that is one -/
theorem fieldBegin_settled (hr : Settled r) :
    Ends (fun field s => Settled s ∨ ∃ id, field = some (.bool, id)) (fun _ _ => True)
      (fieldBegin r) := by
  refine ends_bind (quiet_ofCursor Cursor.byte r hr) fun header s hs => ?_
  by_cases hcode : header &&& 0x0F = 0
  · rw [if_pos hcode]
    exact .inl hs
  · rw [if_neg hcode]
    refine ends_bind (quiet_wireType _ s hs) fun t s hs => ?_
    rw [holdBack, update_bind]
    by_cases ht : t = .bool
    · subst ht
      refine ends_bind (A := fun _ _ => True) ?_ fun id _ _ => .inr ⟨id, rfl⟩
      rcases fieldNumber (header >>> 4).toNat _ with ⟨e | id, _⟩
      · trivial
      · trivial
    · rw [if_neg ht]
      have hnumber : Quiet (fieldNumber (header >>> 4).toNat) := by
        refine quiet_bind (quiet_look _) fun last => ?_
        split
        · exact quiet_i16
        · split
          · exact quiet_pure _
          · exact quiet_fail _
      exact ends_bind (hnumber s hs) fun id s' hs' => .inl hs'

section
variable {f : β → WireType → Int16 → Read β} (hf : ∀ b t id, Settles t (f b t id))
include hf

theorem quiet_foldFields (fuel : Nat) (b : β) : Quiet (foldFields f fuel b) := by
  induction fuel generalizing b with
  | zero => exact quiet_pure b
  | succ fuel ih =>
    intro r hr
    refine ends_bind (fieldBegin_settled hr) fun field s hs => ?_
    rcases field with _ | ⟨t, id⟩
    · rcases hs with hs | ⟨_, h⟩
      · exact hs
      · cases h
    · refine ends_bind (hf b t id s ?_) fun b' s' hs' => ih b' s' hs'
      rcases hs with hs | ⟨_, h⟩
      · exact .inr hs
      · cases h
        exact .inl rfl

theorem quiet_foldStruct (b : β) : Quiet (foldStruct f b) := by
  refine quiet_bind ?_ fun _ => quiet_bind (quiet_look _) fun left =>
    quiet_bind (quiet_foldFields hf _ b) fun b' => quiet_bind ?_ fun _ => quiet_pure b'
  · intro r hr
    rw [structBegin, state_bind]
    split
    · trivial
    · exact hr
  · intro r hr
    rw [structEnd, state_bind]
    rcases r.enclosing with _ | ⟨last, enclosing⟩
    · trivial
    · exact hr

end

theorem settles_skipWithin (depth : Nat) : ∀ t, Settles t (skipWithin depth t) := by
  induction depth with
  | zero => exact fun _ _ _ => trivial
  | succ depth ih =>
    intro t
    have done {α : Type} {x : Read α} (hx : Quiet x) : Quiet (do let _ ← x) :=
      quiet_bind hx fun _ => quiet_pure _
    have list : Quiet (listBegin >>= fun h => replicate h.2 (skipWithin depth h.1)) :=
      quiet_bind quiet_listBegin fun h => quiet_replicate (ih h.1).quiet h.2
    cases t with
    | stop => exact fun _ _ => trivial
    | bool => exact fun r hr => endsSettled_bind (settles_bool r hr) fun _ => quiet_pure ()
    | i8 => exact (done (quiet_bind (quiet_ofCursor _) fun _ => quiet_pure _)).settles nofun
    | i16 => exact (done quiet_i16).settles nofun
    | i32 => exact (done quiet_i32).settles nofun
    | i64 => exact (done quiet_i64).settles nofun
    | double => exact (done (quiet_bind (quiet_ofCursor _) fun _ => quiet_pure _)).settles nofun
    | binary => exact (done quiet_binary).settles nofun
    | list => exact list.settles nofun
    | set => exact list.settles nofun
    | map =>
      refine Quiet.settles (quiet_bind quiet_mapBegin fun header => ?_) nofun
      split
      · exact quiet_pure _
      · rename_i key value _
        exact quiet_replicate (quiet_bind (ih key).quiet fun _ => (ih value).quiet) _
    | struct => exact (quiet_foldStruct (fun _ t _ => ih t) ()).settles nofun

end Columnar.Compact.Read
