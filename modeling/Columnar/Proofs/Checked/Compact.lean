import Columnar.Compact.Reader
import Columnar.Proofs.Checked.Decoders

/-!
# Reading the compact protocol with every operation checked

The readers of the compact protocol with each operation checked that could fail on a machine: the
shifts of a number, and the places of the last fields of the structs around a struct, for which
there is only so much room.  As long as no more structs are open than that, no check fails, and
no reader opens more.

* `Read.Shallow r`    no more structs are open than there is room for;
* `Read.Checks x y`   where that holds, `x` runs as `y` does, and it holds behind `y`;
* `Read.Checked`      the checked readers;
* `Read.checks_foldStruct`, `Read.checks_skip`   whole structs, and values that are passed over.

`checks_bind` puts two steps together; a step that makes no such operation checks itself.
-/

namespace Columnar.Compact.Read

open Step

variable {α β : Type} {x y : Read α} {r : Reader}

/-- no more structs are open than there is room for -/
def Shallow (r : Reader) : Prop := r.enclosing.length ≤ maxStructDepth

/-- where no more structs are open than there is room for, `x` runs as `y` does, and they are no
more behind it -/
structure Checks (x y : Read α) : Prop where
  same : ∀ r, Shallow r → x r = y r
  keeps : Maintains Shallow Any y

/-! ## how steps are put together -/

theorem checks_self (h : Maintains Shallow Any x) : Checks x x := ⟨fun _ _ => rfl, h⟩

theorem checks_pure (a : α) : Checks (pure a) (pure a) := checks_self (maintains_pure trivial)

theorem checks_fail (e : Failure) : Checks (Step.fail e : Read α) (Step.fail e) :=
  checks_self (maintains_fail e)

theorem checks_look (f : Reader → α) : Checks (Step.look f) (Step.look f) :=
  checks_self (maintains_look fun _ _ => trivial)

theorem checks_lift (e : Except Error α) : Checks (liftM e : Read α) (liftM e) :=
  checks_self (maintains_lift fun _ _ => trivial)

theorem checks_update {f : Reader → Reader} (h : ∀ r, (f r).enclosing = r.enclosing) :
    Checks (Step.update f) (Step.update f) := by
  refine checks_self (maintains_update fun r hr => ?_)
  rw [Shallow, h]
  exact hr

theorem checks_ofCursor (y : Step Cursor Error α) : Checks (ofCursor y) (ofCursor y) :=
  checks_self (maintains_on fun _ _ hr => hr)

theorem checks_bind {f g : α → Read β} (hx : Checks x y) (hf : ∀ a, Checks (f a) (g a)) :
    Checks (x >>= f) (y >>= g) where
  same := fun r hr => by
    have hkeeps := (hx.keeps r hr).1
    rw [bind_apply, bind_apply, hx.same r hr]
    rcases hrun : y r with ⟨e | a, s⟩
    · rfl
    · rw [hrun] at hkeeps
      exact (hf a).same s hkeeps
  keeps := maintains_bind hx.keeps fun a _ => (hf a).keeps

theorem checks_times (h : Checks x y) (n : Nat) : Checks (times n x) (times n y) := by
  induction n with
  | zero => exact checks_pure []
  | succ n ih =>
    rw [times_succ, times_succ]
    exact checks_bind h fun a => checks_bind ih fun as => checks_pure (a :: as)

theorem checks_replicate {x y : Read Unit} (h : Checks x y) (n : Nat) :
    Checks (replicate n x) (replicate n y) := by
  induction n with
  | zero => exact checks_pure ()
  | succ n ih =>
    rw [replicate_succ, replicate_succ]
    exact checks_bind h fun _ => ih

/-! ## numbers -/

namespace Checked

def varint : Read Nat := Varint.Checked.read.on Reader.cursor fun r c => { r with cursor := c }

/-- a folded number that has to fit `bits` bits -/
def folded (bits : Nat) : Read Int := do
  let raw ← varint
  if raw < 2 ^ bits then
    pure (Zigzag.unfold raw)
  else
    Step.fail (Fault.varintTooWide raw bits)

def i16 : Read Int16 := do
  let n ← folded 16
  pure (Int16.ofInt n)

def i32 : Read Int32 := do
  let n ← folded 32
  pure (Int32.ofInt n)

def i64 : Read Int64 := do
  let raw ← varint
  pure (Int64.ofInt (Zigzag.unfold raw))

end Checked

theorem checks_varint : Checks Checked.varint varint := by
  have hsame : Checked.varint = varint := by
    rw [Checked.varint, Varint.Checked.read_eq]
    rfl
  rw [hsame]
  exact checks_ofCursor _

theorem checks_folded (bits : Nat) : Checks (Checked.folded bits) (folded bits) := by
  refine checks_bind checks_varint fun raw => ?_
  split
  · exact checks_pure _
  · exact checks_fail _

theorem checks_i16 : Checks Checked.i16 i16 := checks_bind (checks_folded 16) fun _ => checks_pure _

theorem checks_i32 : Checks Checked.i32 i32 := checks_bind (checks_folded 32) fun _ => checks_pure _

theorem checks_i64 : Checks Checked.i64 i64 := checks_bind checks_varint fun _ => checks_pure _

theorem checks_i8 : Checks i8 i8 := checks_bind (checks_ofCursor _) fun _ => checks_pure _

theorem checks_double : Checks double double :=
  checks_bind (checks_ofCursor _) fun _ => checks_pure _

/-! ## the ends of a struct -/

namespace Checked

/-- open a struct; there is room for the last field of the one around it -/
def structBegin : Read Unit := do
  let r ← Step.state
  if r.enclosing.length = maxStructDepth then
    Step.fail (Fault.readStructTooDeep r.cursor.pos)
  else
    Step.demand (r.enclosing.length < maxStructDepth)
      (.sliceStart r.enclosing.length maxStructDepth)
    Step.put { r with enclosing := r.lastField :: r.enclosing, lastField := 0 }

/-- close a struct; the last field of the one around it is one of those there is room for -/
def structEnd : Read Unit := do
  let r ← Step.state
  match r.enclosing with
  | [] => Step.fail Fault.unmatchedStructEnd
  | last :: enclosing =>
    let depth ← subtract r.enclosing.length 1
    Step.demand (depth < maxStructDepth) (.sliceStart depth maxStructDepth)
    Step.put { r with enclosing := enclosing, lastField := last }

/-- among structs that are not too deep, one more is opened with no check failing -/
theorem structBegin_eq (h : Shallow r) : structBegin r = Read.structBegin r := by
  rw [Shallow] at h
  rw [structBegin, Read.structBegin, state_bind]
  refine Eq.trans ?_ (state_bind _ r).symm
  split
  · rfl
  · exact demand_bind (by omega) _ _ _

/-- and one of them is closed with no check failing -/
theorem structEnd_eq (h : Shallow r) : structEnd r = Read.structEnd r := by
  rw [Shallow] at h
  rw [structEnd, Read.structEnd, state_bind, state_bind]
  rcases henclosing : r.enclosing with _ | ⟨last, enclosing⟩
  · rfl
  · rw [henclosing, List.length_cons] at h
    dsimp only
    rw [List.length_cons, subtract_bind (Nat.succ_pos _)]
    exact demand_bind (show enclosing.length + 1 - 1 < maxStructDepth by omega) _ _ _

end Checked

/-- no more structs are open than there is room for, when one is opened -/
theorem structBegin_depth : Maintains Shallow Any structBegin := by
  refine maintains_bind maintains_state fun r hr => ?_
  rw [Shallow] at hr
  split
  · exact maintains_fail _
  · refine maintains_put ?_
    show r.enclosing.length + 1 ≤ maxStructDepth
    omega

theorem structEnd_depth : Maintains Shallow Any structEnd := by
  refine maintains_bind maintains_state fun r hr => ?_
  split
  · exact maintains_fail _
  · rename_i last enclosing h
    refine maintains_put ?_
    rw [Shallow, h] at hr
    exact Nat.le_of_succ_le hr

theorem checks_structBegin : Checks Checked.structBegin structBegin :=
  ⟨fun _ => Checked.structBegin_eq, structBegin_depth⟩

theorem checks_structEnd : Checks Checked.structEnd structEnd :=
  ⟨fun _ => Checked.structEnd_eq, structEnd_depth⟩

/-! ## fields, containers and byte strings -/

namespace Checked

/-- the number of the next field: `delta` behind the last one, or in the bytes that follow -/
def fieldNumber (delta : Nat) : Read Int16 := do
  let last ← Step.look Reader.lastField
  if delta = 0 then
    i16
  else
    match nextField last delta with
    | some id => pure id
    | none => Step.fail Fault.fieldIdOverflow

/-- the type and number of the next field, `none` at the end of the struct -/
def fieldBegin : Read (Option (WireType × Int16)) := do
  let header ← byte
  let code := header &&& 0x0F
  if code = 0 then
    pure none
  else
    let t ← wireType code
    holdBack t code
    let id ← fieldNumber (header >>> 4).toNat
    Step.update fun r => { r with lastField := id }
    pure (some (t, id))

/-- the element type and size of a list -/
def listBegin : Read (WireType × Nat) := do
  let header ← byte
  let t ← wireType (header &&& 0x0F)
  let short := (header >>> 4).toNat
  if short < 15 then
    pure (t, short)
  else
    let raw ← varint
    let size ← containerSize raw
    pure (t, size)

def mapBegin : Read MapHeader := do
  let raw ← varint
  let size ← containerSize raw
  if size = 0 then
    pure ⟨none, 0⟩
  else
    let types ← byte
    let key ← wireType (types >>> 4)
    let value ← wireType (types &&& 0x0F)
    pure ⟨some (key, value), size⟩

def binary : Read Bytes := do
  let raw ← varint
  let limit ← Step.look Reader.stringLimit
  let len := (Int64.ofNat raw).toInt
  if len < 0 then
    Step.fail (Fault.negativeBinaryLength len)
  else if limit < len.toNat then
    Step.fail (Fault.binaryTooLong len.toNat limit)
  else
    view len.toNat

def string : Read String := do
  let bs ← binary
  match Utf8.decode bs with
  | .ok s => pure s
  | .error f => Step.fail (Fault.badUtf8 f)

end Checked

theorem checks_wireType (code : UInt8) : Checks (wireType code) (wireType code) := by
  unfold wireType
  split
  · exact checks_pure _
  · exact checks_fail _

theorem checks_fieldNumber (delta : Nat) :
    Checks (Checked.fieldNumber delta) (fieldNumber delta) := by
  refine checks_bind (checks_look _) fun last => ?_
  split
  · exact checks_i16
  · rcases nextField last delta with _ | id
    · exact checks_fail _
    · exact checks_pure id

theorem checks_fieldBegin : Checks Checked.fieldBegin fieldBegin := by
  refine checks_bind (checks_ofCursor _) fun header => ?_
  dsimp only
  split
  · exact checks_pure _
  · refine checks_bind (checks_wireType _) fun t => ?_
    refine checks_bind (checks_update fun _ => rfl) fun _ => ?_
    refine checks_bind (checks_fieldNumber _) fun id => ?_
    exact checks_bind (checks_update fun _ => rfl) fun _ => checks_pure _

theorem checks_containerSize (raw : Nat) : Checks (containerSize raw) (containerSize raw) := by
  refine checks_bind (checks_look _) fun limit => ?_
  dsimp only
  split
  · exact checks_fail _
  · split
    · exact checks_fail _
    · exact checks_pure _

theorem checks_listBegin : Checks Checked.listBegin listBegin := by
  refine checks_bind (checks_ofCursor _) fun header => checks_bind (checks_wireType _) fun t => ?_
  dsimp only
  split
  · exact checks_pure _
  · refine checks_bind checks_varint fun raw => ?_
    exact checks_bind (checks_containerSize raw) fun _ => checks_pure _

theorem checks_mapBegin : Checks Checked.mapBegin mapBegin := by
  refine checks_bind checks_varint fun raw => checks_bind (checks_containerSize raw) fun n => ?_
  split
  · exact checks_pure _
  · refine checks_bind (checks_ofCursor _) fun types => ?_
    refine checks_bind (checks_wireType _) fun key => ?_
    exact checks_bind (checks_wireType _) fun value => checks_pure _

theorem checks_reserve (n room : Nat) : Checks (reserve n room) (reserve n room) := by
  unfold reserve
  split
  · exact checks_fail _
  · exact checks_pure ()

theorem checks_bool : Checks bool bool := by
  refine checks_self (maintains_bind maintains_state fun r hr => ?_)
  split
  · exact maintains_bind (maintains_put hr) fun _ _ => maintains_pure trivial
  · exact maintains_bind (checks_ofCursor _).keeps fun _ _ => maintains_pure trivial

theorem checks_binary : Checks Checked.binary binary := by
  refine checks_bind checks_varint fun raw => checks_bind (checks_look _) fun limit => ?_
  dsimp only
  split
  · exact checks_fail _
  · split
    · exact checks_fail _
    · exact checks_ofCursor _

theorem checks_string : Checks Checked.string string := by
  refine checks_bind checks_binary fun bs => ?_
  rcases Utf8.decode bs with f | s
  · exact checks_fail _
  · exact checks_pure s

/-! ## whole structs -/

namespace Checked

/-- the fields up to the end of a struct, `fuel` at most -/
def foldFields (f : β → WireType → Int16 → Read β) : Nat → β → Read β
  | 0, b => pure b
  | fuel + 1, b => do
    match ← fieldBegin with
    | none => pure b
    | some (t, id) =>
      let b ← f b t id
      foldFields f fuel b

/-- a struct, its fields handed on in order -/
def foldStruct (f : β → WireType → Int16 → Read β) (b : β) : Read β := do
  structBegin
  let left ← Step.look fun r => r.cursor.remaining
  let b ← foldFields f (left + 1) b
  structEnd
  pure b

/-- a value of type `t` that is at most `depth` deep -/
def skipWithin : Nat → WireType → Read Unit
  | 0, _ => Step.fail Fault.skippedTooDeep
  | depth + 1, t =>
    match t with
    | .bool => do let _ ← bool
    | .i8 => do let _ ← i8
    | .i16 => do let _ ← i16
    | .i32 => do let _ ← i32
    | .i64 => do let _ ← i64
    | .double => do let _ ← double
    | .binary => do let _ ← binary
    | .struct => foldStruct (fun _ t _ => skipWithin depth t) ()
    | .list | .set => do
      let (t, n) ← listBegin
      Step.replicate n (skipWithin depth t)
    | .map => do
      let header ← mapBegin
      match header.types with
      | none => pure ()
      | some (key, value) =>
        Step.replicate header.size do
          skipWithin depth key
          skipWithin depth value
    | .stop => Step.fail Fault.skippedStop

/-- a value of type `t`, read for its extent only -/
def skip (t : WireType) : Read Unit := skipWithin maxSkipDepth t

end Checked

section
variable {f g : β → WireType → Int16 → Read β} (hf : ∀ b t id, Checks (f b t id) (g b t id))
include hf

theorem checks_foldFields (fuel : Nat) :
    ∀ b, Checks (Checked.foldFields f fuel b) (foldFields g fuel b) := by
  induction fuel with
  | zero => exact fun b => checks_pure b
  | succ fuel ih =>
    intro b
    refine checks_bind checks_fieldBegin fun field => ?_
    rcases field with _ | ⟨t, id⟩
    · exact checks_pure b
    · exact checks_bind (hf b t id) ih

/-- a struct is opened and closed among those around it, which are no more when it is read -/
theorem checks_foldStruct (b : β) : Checks (Checked.foldStruct f b) (foldStruct g b) := by
  refine checks_bind checks_structBegin fun _ => checks_bind (checks_look _) fun left => ?_
  refine checks_bind (checks_foldFields hf _ b) fun b => ?_
  exact checks_bind checks_structEnd fun _ => checks_pure b

end

theorem checks_skipWithin (depth : Nat) :
    ∀ t, Checks (Checked.skipWithin depth t) (skipWithin depth t) := by
  induction depth with
  | zero => exact fun _ => checks_fail _
  | succ depth ih =>
    intro t
    have done {α : Type} {x y : Read α} (h : Checks x y) :
        Checks (do let _ ← x) (do let _ ← y) := checks_bind h fun _ => checks_pure _
    have list : Checks
        (Checked.listBegin >>= fun h => Step.replicate h.2 (Checked.skipWithin depth h.1))
        (listBegin >>= fun h => Step.replicate h.2 (skipWithin depth h.1)) :=
      checks_bind checks_listBegin fun h => checks_replicate (ih h.1) h.2
    cases t with
    | stop => exact checks_fail _
    | bool => exact done checks_bool
    | i8 => exact done checks_i8
    | i16 => exact done checks_i16
    | i32 => exact done checks_i32
    | i64 => exact done checks_i64
    | double => exact done checks_double
    | binary => exact done checks_binary
    | list => exact list
    | set => exact list
    | map =>
      refine checks_bind checks_mapBegin fun header => ?_
      rcases header with ⟨_ | ⟨key, value⟩, size⟩
      · exact checks_pure ()
      · exact checks_replicate (checks_bind (ih key) fun _ => ih value) size
    | struct => exact checks_foldStruct (fun _ t _ => ih t) ()

theorem checks_skip (t : WireType) : Checks (Checked.skip t) (skip t) :=
  checks_skipWithin maxSkipDepth t

end Columnar.Compact.Read
