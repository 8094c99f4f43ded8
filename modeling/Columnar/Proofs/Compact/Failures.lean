import Columnar.Proofs.Compact.Limits
import Columnar.Proofs.Failures

/-!
# How the compact protocol fails

Whatever the bytes are, reading them fails with an error.  Only a list whose memory is set aside
before it is read can fail in another way, so the rules for fields and structs leave open what a
field may fail with.

* `Read.Regular o x`      under the limits of `o`, `x` fails regularly;
* `fails_foldStruct`      what every field of a struct fails with, the struct does.
-/

namespace Columnar.Compact.Read

open Step

variable {α β : Type} {o : Options}

/-- under the limits of `o`, `x` fails regularly -/
def Regular (o : Options) (x : Read α) : Prop :=
  Fails (fun r : Reader => r.Obeys o) Failure.Regular x

theorem regular_ofCursor {x : Step Cursor Error α}
    (h : Fails (fun _ => True) Error.Regular x) : Regular o (ofCursor x) :=
  fails_on (fails_lift h) fun _ _ => trivial

/-! ## numbers -/

theorem regular_byte : Regular o byte := regular_ofCursor Cursor.byte_fails

theorem regular_view (n : Nat) : Regular o (view n) := regular_ofCursor (Cursor.view_fails n)

theorem regular_varint : Regular o varint := regular_ofCursor Varint.read_fails

theorem regular_folded (bits : Nat) : Regular o (folded bits) := by
  refine fails_bind keeps_varint regular_varint fun raw _ => ?_
  split
  · exact fails_pure _
  · exact fails_fail fun h => h

theorem regular_i8 : Regular o i8 := fails_bind keeps_byte regular_byte fun _ _ => fails_pure _

theorem regular_i16 : Regular o i16 :=
  fails_bind (keeps_folded 16) (regular_folded 16) fun _ _ => fails_pure _

theorem regular_i32 : Regular o i32 :=
  fails_bind (keeps_folded 32) (regular_folded 32) fun _ _ => fails_pure _

theorem regular_i64 : Regular o i64 :=
  fails_bind keeps_varint regular_varint fun _ _ => fails_pure _

theorem regular_double : Regular o double :=
  fails_bind (keeps_view 8) (regular_view 8) fun _ _ => fails_pure _

/-! ## structs and containers -/

theorem regular_structBegin : Regular o structBegin := by
  refine fails_bind maintains_state fails_state fun r _ => ?_
  split
  · exact fails_fail fun h => h
  · exact fails_put _

theorem regular_structEnd : Regular o structEnd := by
  refine fails_bind maintains_state fails_state fun r _ => ?_
  split
  · exact fails_fail fun h => h
  · exact fails_put _

theorem regular_wireType (code : UInt8) : Regular o (wireType code) := by
  unfold wireType
  split
  · exact fails_pure _
  · exact fails_fail fun h => h

theorem regular_fieldNumber (delta : Nat) : Regular o (fieldNumber delta) := by
  refine fails_bind (P := Any) (maintains_look fun _ _ => trivial) (fails_look _) fun last _ => ?_
  split
  · exact regular_i16
  · split
    · exact fails_pure _
    · exact fails_fail fun h => h

theorem regular_fieldBegin : Regular o fieldBegin := by
  refine fails_bind keeps_byte regular_byte fun header _ => ?_
  dsimp only
  split
  · exact fails_pure _
  · refine fails_bind (keeps_wireType _) (regular_wireType _) fun t _ => ?_
    refine fails_bind (keeps_update fun _ => ⟨rfl, rfl⟩) (fails_update _) fun _ _ => ?_
    refine fails_bind (keeps_fieldNumber _) (regular_fieldNumber _) fun id _ => ?_
    exact fails_bind (keeps_update fun _ => ⟨rfl, rfl⟩) (fails_update _) fun _ _ => fails_pure _

theorem regular_containerSize (raw : Nat) : Regular o (containerSize raw) := by
  refine fails_bind (P := Any) (maintains_look fun _ _ => trivial) (fails_look _) fun limit _ => ?_
  dsimp only
  split
  · exact fails_fail fun h => h
  · split
    · exact fails_fail fun h => h
    · exact fails_pure _

theorem regular_listBegin : Regular o listBegin := by
  refine fails_bind keeps_byte regular_byte fun header _ => ?_
  refine fails_bind (keeps_wireType _) (regular_wireType _) fun t _ => ?_
  dsimp only
  split
  · exact fails_pure _
  · refine fails_bind keeps_varint regular_varint fun raw _ => ?_
    exact fails_bind (keeps_containerSize raw) (regular_containerSize raw) fun _ _ => fails_pure _

theorem regular_mapBegin : Regular o mapBegin := by
  refine fails_bind keeps_varint regular_varint fun raw _ => ?_
  refine fails_bind (keeps_containerSize raw) (regular_containerSize raw) fun n _ => ?_
  split
  · exact fails_pure _
  · refine fails_bind keeps_byte regular_byte fun types _ => ?_
    refine fails_bind (keeps_wireType _) (regular_wireType _) fun key _ => ?_
    exact fails_bind (keeps_wireType _) (regular_wireType _) fun value _ => fails_pure _

/-- memory is only refused when more is asked for than there can be -/
theorem fails_reserve {n room : Nat} {E : Failure → Prop}
    (h : maxListRoom < n * room → E (.misuse .capacityOverflow)) :
    Fails (fun r : Reader => r.Obeys o) E (reserve n room) := by
  unfold reserve
  split
  · rename_i hlt
    exact fails_fail (h hlt)
  · exact fails_pure _

theorem regular_bool : Regular o bool := by
  refine fails_bind maintains_state fails_state fun r hr => ?_
  split
  · exact fails_bind (maintains_put ⟨hr.1, hr.2⟩) (fails_put _) fun _ _ => fails_pure _
  · exact fails_bind keeps_byte regular_byte fun _ _ => fails_pure _

theorem regular_binary : Regular o binary := by
  refine fails_bind keeps_varint regular_varint fun raw _ => ?_
  refine fails_bind (P := Any) (maintains_look fun _ _ => trivial) (fails_look _) fun limit _ => ?_
  dsimp only
  split
  · exact fails_fail fun h => h
  · split
    · exact fails_fail fun h => h
    · exact regular_view _

theorem regular_string : Regular o string := by
  refine fails_bind keeps_binary regular_binary fun bs _ => ?_
  split
  · exact fails_pure _
  · exact fails_fail fun h => h

/-! ## whole structs -/

section
variable {E : Failure → Prop} (hE : ∀ e : Failure, e.Regular → E e)
include hE

theorem fails_foldFields {f : β → WireType → Int16 → Read β}
    (hk : ∀ b t id, Keeps o Any (f b t id))
    (hf : ∀ b t id, Fails (fun r : Reader => r.Obeys o) E (f b t id)) (fuel : Nat) :
    ∀ b, Fails (fun r : Reader => r.Obeys o) E (foldFields f fuel b) := by
  induction fuel with
  | zero => exact fun b => fails_pure b
  | succ fuel ih =>
    intro b
    refine fails_bind keeps_fieldBegin (regular_fieldBegin.mono hE) fun field _ => ?_
    match field with
    | none => exact fails_pure b
    | some (t, id) => exact fails_bind (hk b t id) (hf b t id) fun b' _ => ih b'

/-- what every field of a struct fails with, the struct does -/
theorem fails_foldStruct {f : β → WireType → Int16 → Read β}
    (hk : ∀ b t id, Keeps o Any (f b t id))
    (hf : ∀ b t id, Fails (fun r : Reader => r.Obeys o) E (f b t id)) (b : β) :
    Fails (fun r : Reader => r.Obeys o) E (foldStruct f b) := by
  refine fails_bind keeps_structBegin (regular_structBegin.mono hE) fun _ _ => ?_
  refine fails_bind (P := Any) (maintains_look fun _ _ => trivial) (fails_look _) fun left _ => ?_
  refine fails_bind (keeps_foldFields (fun b t id _ => hk b t id) _ b trivial)
    (fails_foldFields hE hk hf _ b) fun b' _ => ?_
  exact fails_bind keeps_structEnd (regular_structEnd.mono hE) fun _ _ => fails_pure _

end

theorem regular_skipWithin (depth : Nat) : ∀ t, Regular o (skipWithin depth t) := by
  induction depth with
  | zero => exact fun _ => fails_fail fun h => h
  | succ depth ih =>
    intro t
    have done {α : Type} {x : Read α} {P : α → Prop} (hk : Keeps o P x) (hx : Regular o x) :
        Regular o (do let _ ← x) := fails_bind hk hx fun _ _ => fails_pure _
    have list : Regular o (listBegin >>= fun h => Step.replicate h.2 (skipWithin depth h.1)) :=
      fails_bind keeps_listBegin regular_listBegin fun h _ =>
        fails_replicate (keeps_skipWithin depth h.1) (ih h.1) h.2
    cases t with
    | stop => exact fails_fail fun h => h
    | bool => exact done keeps_bool regular_bool
    | i8 => exact done keeps_i8 regular_i8
    | i16 => exact done keeps_i16 regular_i16
    | i32 => exact done keeps_i32 regular_i32
    | i64 => exact done keeps_i64 regular_i64
    | double => exact done keeps_double regular_double
    | binary => exact done keeps_binary regular_binary
    | list => exact list
    | set => exact list
    | map =>
      refine fails_bind keeps_mapBegin regular_mapBegin fun header _ => ?_
      split
      · exact fails_pure _
      · rename_i key value _
        refine fails_replicate ?_ ?_ _
        · exact maintains_bind (keeps_skipWithin depth key) fun _ _ => keeps_skipWithin depth value
        · exact fails_bind (keeps_skipWithin depth key) (ih key) fun _ _ => ih value
    | struct =>
      exact fails_foldStruct (fun _ h => h) (fun _ t _ => keeps_skipWithin depth t)
        (fun _ t _ => ih t) ()

theorem regular_skip (t : WireType) : Regular o (skip t) := regular_skipWithin maxSkipDepth t

end Columnar.Compact.Read
