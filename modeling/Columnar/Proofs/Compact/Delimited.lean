import Columnar.Proofs.Failures
import Columnar.Proofs.Compact.Carried

/-!
# Readers stop where a value stops

A reader that answers has taken some bytes off the front of what was left, and nothing else had a
part in it: the same bytes in front of anything else are taken in the same way, also with fewer
structs open around them, and a front of them that is not all of them is refused for being short.

* `Failure.Short e`             `e` is an error of the layout of the bytes;
* `Read.Delimits x r bs a r'`   `x` takes `bs` from `r` to `r'`, whatever stands before and behind,
                               and is short of bytes in front of less;
* `Read.DelimitedAt x r`        when `x` answers from `r`, it takes some bytes in this way;
* `Read.Delimited x`            the same from every reader.

`delimitedAt_bind` puts two steps together.  The fuel of `foldFields` depends on what is left, so
the fields are reached through `fields_eq`, the loop without fuel.  The two ends of a struct are
one step, `frame`: between them another number is the last one.
-/

namespace Columnar

/-- an error of the layout of the bytes: there are too few of them -/
def Failure.Short : Failure → Prop
  | error e => e.kind = .layout
  | misuse _ => False

theorem Failure.Short.within {e : Failure} (h : e.Short) (c : Context) : (e.within c).Short := by
  cases e with
  | error e => exact h
  | misuse m => exact h

namespace Compact

/-- a reader at another place, with other structs around it -/
def Reader.at (r : Reader) (e : List Int16) (before rest : Bytes) : Reader :=
  { r with cursor := ⟨before, rest⟩, enclosing := e }

namespace Read

variable {α β : Type} {x : Read α} {f : α → Read β} {r r' : Reader} {bs : Bytes} {a : α}

/-- the run of `x` from `r` fails, with too few bytes -/
def Starves (x : Read α) (r : Reader) : Prop := ∃ e s, x r = (.error e, s) ∧ e.Short

/-- `x` takes `bs` from `r` to `r'`, and nothing less, also among fewer structs -/
structure Delimits (x : Read α) (r : Reader) (bs : Bytes) (a : α) (r' : Reader) : Prop where
  takes : ∀ e before rest, e.length ≤ r.enclosing.length →
    x (r.at e before (bs ++ rest)) = (.ok a, r'.at e (bs.reverse ++ before) rest)
  starves : ∀ e before front back, e.length ≤ r.enclosing.length → bs = front ++ back →
    back ≠ [] → Starves x (r.at e before front)

/-- when `x` answers from `r`, it has taken some bytes and nothing else had a part in it -/
def DelimitedAt (x : Read α) (r : Reader) : Prop :=
  r.enclosing.length ≤ maxStructDepth → ∀ a r', x r = (.ok a, r') → ∃ bs,
    r.cursor.rest = bs ++ r'.cursor.rest ∧ r'.enclosing = r.enclosing ∧ Delimits x r bs a r'

def Delimited (x : Read α) : Prop := ∀ r, DelimitedAt x r

/-! ## one step and the next -/

theorem starves_bind (h : Starves x r) : Starves (x >>= f) r := by
  obtain ⟨e, s, hx, he⟩ := h
  exact ⟨e, s, Step.bind_error hx f, he⟩

theorem starves_bind_ok (hx : x r = (.ok a, r')) (h : Starves (f a) r') :
    Starves (x >>= f) r := by
  obtain ⟨e, s, hf, he⟩ := h
  exact ⟨e, s, (Step.bind_ok hx f).trans hf, he⟩

theorem Delimits.bind {r'' : Reader} {cs : Bytes} {b : β} (hx : Delimits x r bs a r')
    (hr : r'.enclosing = r.enclosing) (hf : Delimits (f a) r' cs b r'') :
    Delimits (x >>= f) r (bs ++ cs) b r'' := by
  constructor
  · intro e before rest he
    rw [List.append_assoc, Step.bind_ok (hx.takes e before (cs ++ rest) he),
      hf.takes e _ rest (hr ▸ he), List.reverse_append, List.append_assoc]
  · intro e before front back he hsplit hback
    have he' : e.length ≤ r'.enclosing.length := hr ▸ he
    -- the front ends inside what `x` takes, or behind it
    rcases List.append_eq_append_iff.mp hsplit with ⟨mid, rfl, hcs⟩ | ⟨mid, rfl, hmid⟩
    · exact starves_bind_ok (hx.takes e before mid he) (hf.starves e _ mid back he' hcs hback)
    · by_cases hm : mid = []
      · subst hm
        have hx' := hx.takes e before [] he
        rw [List.append_nil, List.append_nil] at hx'
        exact starves_bind_ok hx' (hf.starves e _ [] back he' hmid.symm hback)
      · exact starves_bind (hx.starves e before front mid he rfl hm)

theorem delimitedAt_bind (hx : DelimitedAt x r)
    (hf : ∀ a r', x r = (.ok a, r') → DelimitedAt (f a) r') : DelimitedAt (x >>= f) r := by
  intro hr b r'' h
  obtain ⟨a, r', h₁, h₂⟩ := Step.bind_eq_ok.mp h
  obtain ⟨bs, hbs, he, hd⟩ := hx hr a r' h₁
  obtain ⟨cs, hcs, he', hd'⟩ := hf a r' h₁ (he ▸ hr) b r'' h₂
  refine ⟨bs ++ cs, ?_, he'.trans he, hd.bind he hd'⟩
  rw [hbs, hcs, List.append_assoc]

theorem delimited_bind (hx : Delimited x) (hf : ∀ a, Delimited (f a)) : Delimited (x >>= f) :=
  fun r => delimitedAt_bind (hx r) fun a r' _ => hf a r'

/-- two steps that run alike wherever the reader stands -/
theorem DelimitedAt.congr (y : Read α) (h : ∀ e before rest, e.length ≤ maxStructDepth →
    x (r.at e before rest) = y (r.at e before rest)) (hy : DelimitedAt y r) :
    DelimitedAt x r := by
  intro hr a r' hx
  have hsame := h r.enclosing r.cursor.before r.cursor.rest hr
  obtain ⟨bs, hbs, he, hd⟩ := hy hr a r' (hsame.symm.trans hx)
  refine ⟨bs, hbs, he, fun e before rest hle => ?_, fun e before front back hle hsplit hback => ?_⟩
  · exact (h e _ _ (Nat.le_trans hle hr)).trans (hd.takes e before rest hle)
  · obtain ⟨f, s, hf, hs⟩ := hd.starves e before front back hle hsplit hback
    exact ⟨f, s, (h e _ _ (Nat.le_trans hle hr)).trans hf, hs⟩

/-- what a step took is no longer left -/
theorem DelimitedAt.remaining_le (h : DelimitedAt x r) (hr : r.enclosing.length ≤ maxStructDepth)
    (hx : x r = (.ok a, r')) :
    r'.cursor.remaining ≤ r.cursor.remaining ∧ r'.enclosing = r.enclosing := by
  obtain ⟨bs, hbs, he, -⟩ := h hr a r' hx
  refine ⟨?_, he⟩
  show r'.cursor.rest.length ≤ r.cursor.rest.length
  rw [hbs, List.length_append]
  exact Nat.le_add_left _ _

/-! ## steps that leave the cursor -/

/-- a step to which the place is nothing, when it answers -/
theorem delimited_still (h : ∀ r a r', x r = (.ok a, r') →
    r'.cursor = r.cursor ∧ r'.enclosing = r.enclosing ∧
      ∀ e before rest, x (r.at e before rest) = (.ok a, r'.at e before rest)) : Delimited x := by
  intro r _ a r' hx
  obtain ⟨hc, he, hx⟩ := h r a r' hx
  refine ⟨[], by rw [hc]; rfl, he, fun e before rest _ => hx e before rest, ?_⟩
  intro e before front back _ hsplit hback
  exact absurd (List.append_eq_nil_iff.mp hsplit.symm).2 hback

theorem delimited_pure (a : α) : Delimited (pure a : Read α) := by
  refine delimited_still fun r a' r' e => ?_
  cases e
  exact ⟨rfl, rfl, fun _ _ _ => rfl⟩

theorem delimited_fail (e : Failure) : Delimited (Step.fail e : Read α) :=
  fun _ _ _ _ h => nomatch h

theorem delimited_lift (e : Except Error α) : Delimited (liftM e : Read α) := by
  cases e with
  | error e => exact delimited_fail (Failure.error e)
  | ok a => exact delimited_pure a

/-- a look at anything but the place -/
theorem delimited_look {f : Reader → α} (h : ∀ r e before rest, f (r.at e before rest) = f r) :
    Delimited (Step.look f : Read α) := by
  refine delimited_still fun r a r' hx => ?_
  cases hx
  exact ⟨rfl, rfl, fun e before rest => by rw [Step.look_apply, h]⟩

/-- a change of anything but the place -/
theorem delimited_update {f : Reader → Reader} (h : ∀ r, (f r).cursor = r.cursor ∧
    (f r).enclosing = r.enclosing ∧
      ∀ e before rest, f (r.at e before rest) = (f r).at e before rest) :
    Delimited (Step.update f : Read Unit) := by
  refine delimited_still fun r a r' hx => ?_
  cases hx
  obtain ⟨hc, he, hf⟩ := h r
  exact ⟨hc, he, fun e before rest => by rw [Step.update_apply, hf]⟩

/-! ## bytes -/

section
variable {y : Step Cursor Error α} {c : Cursor}

theorem ofCursor_answer (h : y r.cursor = (.ok a, c)) :
    ofCursor y r = (.ok a, { r with cursor := c }) := by
  rw [ofCursor, Step.on_apply, Step.lift_ok h]

theorem ofCursor_error {e : Error} (h : y r.cursor = (.error e, c)) :
    ofCursor y r = (.error (.error e), { r with cursor := c }) := by
  rw [ofCursor, Step.on_apply, Step.lift_error h]

theorem ofCursor_bind (y : Step Cursor Error α) (g : α → Step Cursor Error β) :
    ofCursor (y >>= g) = ofCursor y >>= fun a => ofCursor (g a) := by
  funext r
  rcases h : y r.cursor with ⟨e | a, c⟩
  · rw [ofCursor_error (Step.bind_error h g), Step.bind_error (ofCursor_error h)]
  · rw [Step.bind_ok (ofCursor_answer h)]
    have hg : (y >>= g) r.cursor = g a c := Step.bind_ok h g
    rcases h' : g a c with ⟨e | b, c'⟩
    · rw [ofCursor_error (hg.trans h'),
        ofCursor_error (show g a ({ r with cursor := c } : Reader).cursor = _ from h')]
    · rw [ofCursor_answer (hg.trans h'),
        ofCursor_answer (show g a ({ r with cursor := c } : Reader).cursor = _ from h')]

end

theorem view_ok {n : Nat} {front : Bytes} (h : front.length = n) (r : Reader) (e : List Int16)
    (before rest : Bytes) : view n (r.at e before (front ++ rest)) =
      (.ok front, r.at e (front.reverse ++ before) rest) := by
  subst h
  exact ofCursor_answer (Cursor.view_append before front rest)

theorem view_short {n : Nat} (h : r.cursor.rest.length < n) : Starves (view n) r := by
  have e := Cursor.view_eq n r.cursor
  rw [if_neg (Nat.not_le.mpr h)] at e
  exact ⟨_, _, ofCursor_error e, show Fault.kind _ = _ from rfl⟩

theorem delimited_view (n : Nat) : Delimited (view n) := by
  intro r _ a r' hx
  by_cases h : r.cursor.rest.length < n
  · obtain ⟨_, _, hshort, _⟩ := view_short h
    cases hshort.symm.trans hx
  · have hlen : (r.cursor.rest.take n).length = n := List.length_take_of_le (Nat.le_of_not_lt h)
    have hv := view_ok hlen r r.enclosing r.cursor.before (r.cursor.rest.drop n)
    rw [List.take_append_drop] at hv
    cases hv.symm.trans hx
    refine ⟨r.cursor.rest.take n, (List.take_append_drop n _).symm, rfl, ?_, ?_⟩
    · exact fun e before rest _ => view_ok hlen r e before rest
    · intro e before front back _ hsplit hback
      have hpos := List.length_pos_iff.mpr hback
      rw [hsplit, List.length_append] at hlen
      exact view_short (show front.length < n by omega)

theorem byte_ok (r : Reader) (e : List Int16) (b : UInt8) (before rest : Bytes) :
    byte (r.at e before (b :: rest)) = (.ok b, r.at e (b :: before) rest) := rfl

/-- a byte that was read stood in front -/
theorem byte_eq_ok {b : UInt8} (h : byte r = (.ok b, r')) :
    ∃ rest, r.cursor.rest = b :: rest ∧ r' = r.at r.enclosing (b :: r.cursor.before) rest := by
  rcases hc : r.cursor.rest with _ | ⟨c, rest⟩
  · have e : Cursor.byte r.cursor =
        (.error (Fault.readPastEnd 1 r.cursor.pos r.cursor.size), r.cursor) := by
      rw [Cursor.byte, hc]
    cases (ofCursor_error e).symm.trans h
  · have e : Cursor.byte r.cursor = (.ok c, ⟨c :: r.cursor.before, rest⟩) := by
      rw [Cursor.byte, hc]
    cases (ofCursor_answer e).symm.trans h
    exact ⟨rest, rfl, rfl⟩

theorem delimited_byte : Delimited byte := by
  intro r _ b r' h
  obtain ⟨rest, hrest, rfl⟩ := byte_eq_ok h
  refine ⟨[b], hrest, rfl, fun e before rest _ => byte_ok r e b before rest, ?_⟩
  intro e before front back _ hsplit hback
  rcases front with _ | ⟨c, front⟩
  · exact ⟨_, _, rfl, show Fault.kind _ = _ from rfl⟩
  · exact absurd (List.append_eq_nil_iff.mp (List.cons.inj hsplit).2.symm).2 hback

theorem delimited_varint : Delimited varint := by
  have groups : ∀ budget, Delimited (ofCursor (Varint.readGroups budget)) := by
    intro budget
    induction budget with
    | zero => exact fun r _ a r' h => nomatch h
    | succ budget ih =>
      rw [Varint.readGroups, ofCursor_bind]
      refine delimited_bind delimited_byte fun b => ?_
      split
      · exact delimited_pure [b]
      · rw [ofCursor_bind]
        exact delimited_bind ih fun bs => delimited_pure (b :: bs)
  rw [varint, Varint.read, ofCursor_bind]
  exact delimited_bind (groups _) fun bs => delimited_pure _

/-! ## numbers -/

theorem delimited_folded (bits : Nat) : Delimited (folded bits) := by
  refine delimited_bind delimited_varint fun raw => ?_
  split
  · exact delimited_pure _
  · exact delimited_fail _

theorem delimited_i8 : Delimited i8 := delimited_bind delimited_byte fun _ => delimited_pure _

theorem delimited_i16 : Delimited i16 :=
  delimited_bind (delimited_folded 16) fun _ => delimited_pure _

theorem delimited_i32 : Delimited i32 :=
  delimited_bind (delimited_folded 32) fun _ => delimited_pure _

theorem delimited_i64 : Delimited i64 := delimited_bind delimited_varint fun _ => delimited_pure _

theorem delimited_double : Delimited double :=
  delimited_bind (delimited_view 8) fun _ => delimited_pure _

/-! ## fields and containers -/

theorem delimited_wireType (code : UInt8) : Delimited (wireType code) := by
  unfold wireType
  split
  · exact delimited_pure _
  · exact delimited_fail _

theorem delimited_fieldNumber (delta : Nat) : Delimited (fieldNumber delta) := by
  refine delimited_bind (delimited_look fun _ _ _ _ => rfl) fun last => ?_
  split
  · exact delimited_i16
  · split
    · exact delimited_pure _
    · exact delimited_fail _

/-- what follows the first byte of a field's header -/
theorem delimited_fieldHeader (header : UInt8) : Delimited (do
    if header &&& 0x0F = 0 then
      pure none
    else
      let t ← wireType (header &&& 0x0F)
      holdBack t (header &&& 0x0F)
      let id ← fieldNumber (header >>> 4).toNat
      Step.update fun r => { r with lastField := id }
      pure (some (t, id)) : Read (Option (WireType × Int16))) := by
  split
  · exact delimited_pure none
  · refine delimited_bind (delimited_wireType _) fun t => ?_
    refine delimited_bind (delimited_update fun _ => ⟨rfl, rfl, fun _ _ _ => rfl⟩) fun _ => ?_
    refine delimited_bind (delimited_fieldNumber _) fun id => ?_
    exact delimited_bind (delimited_update fun _ => ⟨rfl, rfl, fun _ _ _ => rfl⟩) fun _ =>
      delimited_pure _

theorem delimited_fieldBegin : Delimited fieldBegin :=
  delimited_bind delimited_byte delimited_fieldHeader

/-- a header takes a byte at least -/
theorem fieldBegin_remaining (hr : r.enclosing.length ≤ maxStructDepth)
    {field : Option (WireType × Int16)} (h : fieldBegin r = (.ok field, r')) :
    r'.cursor.remaining < r.cursor.remaining ∧ r'.enclosing = r.enclosing := by
  obtain ⟨b, r₁, hb, hheader⟩ := Step.bind_eq_ok.mp h
  obtain ⟨rest, hrest, rfl⟩ := byte_eq_ok hb
  obtain ⟨hle, he⟩ := (delimited_fieldHeader b (r.at r.enclosing _ rest)).remaining_le hr hheader
  refine ⟨Nat.lt_of_le_of_lt hle ?_, he⟩
  show rest.length < r.cursor.rest.length
  rw [hrest]
  exact Nat.lt_succ_self _

theorem delimited_containerSize (raw : Nat) : Delimited (containerSize raw) := by
  refine delimited_bind (delimited_look fun _ _ _ _ => rfl) fun limit => ?_
  dsimp only
  split
  · exact delimited_fail _
  · split
    · exact delimited_fail _
    · exact delimited_pure _

theorem delimited_listBegin : Delimited listBegin := by
  refine delimited_bind delimited_byte fun header => ?_
  refine delimited_bind (delimited_wireType _) fun t => ?_
  dsimp only
  split
  · exact delimited_pure _
  · refine delimited_bind delimited_varint fun raw => ?_
    exact delimited_bind (delimited_containerSize raw) fun _ => delimited_pure _

theorem delimited_mapBegin : Delimited mapBegin := by
  refine delimited_bind delimited_varint fun raw => ?_
  refine delimited_bind (delimited_containerSize raw) fun n => ?_
  split
  · exact delimited_pure _
  · refine delimited_bind delimited_byte fun types => ?_
    refine delimited_bind (delimited_wireType _) fun key => ?_
    exact delimited_bind (delimited_wireType _) fun value => delimited_pure _

theorem delimited_reserve (n room : Nat) : Delimited (reserve n room) := by
  unfold reserve
  split
  · exact delimited_fail _
  · exact delimited_pure ()

/-! ## booleans and byte strings -/

/-- a boolean that was held back is not read from the bytes -/
theorem delimited_bool : Delimited bool := by
  intro r
  rcases h : r.pendingBool with _ | b
  · refine DelimitedAt.congr (do let b ← byte; pure (b == 1)) (fun e before rest _ => ?_) ?_
    · rw [bool, Step.state_bind, show (r.at e before rest).pendingBool = none from h]
    · exact delimited_bind delimited_byte (fun _ => delimited_pure _) r
  · refine DelimitedAt.congr (do
        Step.update fun r => { r with pendingBool := none }
        pure b) (fun e before rest _ => ?_) ?_
    · rw [bool, Step.state_bind, show (r.at e before rest).pendingBool = some b from h]
      rfl
    · refine delimited_bind ?_ (fun _ => delimited_pure b) r
      exact delimited_update fun _ => ⟨rfl, rfl, fun _ _ _ => rfl⟩

theorem delimited_binary : Delimited binary := by
  refine delimited_bind delimited_varint fun raw => ?_
  refine delimited_bind (delimited_look fun _ _ _ _ => rfl) fun limit => ?_
  dsimp only
  split
  · exact delimited_fail _
  · split
    · exact delimited_fail _
    · exact delimited_view _

theorem delimited_string : Delimited string := by
  refine delimited_bind delimited_binary fun bs => ?_
  split
  · exact delimited_pure _
  · exact delimited_fail _

/-! ## repetitions -/

theorem delimited_times (h : Delimited x) (n : Nat) : Delimited (Step.times n x) := by
  induction n with
  | zero => exact delimited_pure []
  | succ n ih =>
    rw [Step.times_succ]
    exact delimited_bind h fun a => delimited_bind ih fun as => delimited_pure (a :: as)

theorem delimited_replicate {x : Read Unit} (h : Delimited x) (n : Nat) :
    Delimited (Step.replicate n x) := by
  induction n with
  | zero => exact delimited_pure ()
  | succ n ih =>
    rw [Step.replicate_succ]
    exact delimited_bind h fun _ => ih

/-! ## whole structs -/

/-- the fields up to the end of a struct -/
def fields (f : β → WireType → Int16 → Read β) (b : β) : Read β := do
  let left ← Step.look fun r => r.cursor.remaining
  foldFields f (left + 1) b

/-- what stands between the ends of a struct -/
def frame (x : Read α) : Read α := do
  structBegin
  let a ← x
  structEnd
  pure a

theorem foldStruct_eq (f : β → WireType → Int16 → Read β) (b : β) :
    foldStruct f b = frame (fields f b) := rfl

/-- the reader inside a struct -/
def inside (r : Reader) : Reader :=
  { r with enclosing := r.lastField :: r.enclosing, lastField := 0 }

/-- the reader outside again, at another place -/
def outside (r r' : Reader) : Reader :=
  { r' with enclosing := r.enclosing, lastField := r.lastField }

theorem structBegin_ok (h : r.enclosing.length < maxStructDepth) :
    structBegin r = (.ok (), inside r) := by
  rw [structBegin, Step.state_bind, if_neg (Nat.ne_of_lt h)]
  rfl

theorem structEnd_ok (h : r'.enclosing = r.lastField :: r.enclosing) :
    structEnd r' = (.ok (), outside r r') := by
  rw [structEnd, Step.state_bind, h]
  rfl

/-- the struct around is nothing to what stands inside, whatever its last field is -/
theorem Delimits.frame (h : r.enclosing.length < maxStructDepth)
    (hx : Delimits x (inside r) bs a r') (last : Int16) :
    Delimits (frame x) { r with lastField := last } bs a
      (outside { r with lastField := last } r') := by
  have hbegin : ∀ e before rest, e.length ≤ r.enclosing.length →
      structBegin (({ r with lastField := last } : Reader).at e before rest) =
        (.ok (), (inside r).at (last :: e) before rest) := fun e _ _ he =>
    structBegin_ok (Nat.lt_of_le_of_lt he h)
  constructor
  · intro e before rest he
    rw [Read.frame, Step.bind_ok (hbegin e before _ he),
      Step.bind_ok (hx.takes (last :: e) before rest (Nat.succ_le_succ he))]
    rfl
  · intro e before front back he hsplit hback
    refine starves_bind_ok (hbegin e before front he) (starves_bind ?_)
    exact hx.starves (last :: e) before front back (Nat.succ_le_succ he) hsplit hback

/-- a struct that was read, and what was read inside -/
theorem frame_eq_ok (hr : r.enclosing.length ≤ maxStructDepth) (hx : Delimited x)
    (h : frame x r = (.ok a, r')) : r.enclosing.length < maxStructDepth ∧ ∃ bs s,
      r.cursor.rest = bs ++ r'.cursor.rest ∧ r' = outside r s ∧ Delimits x (inside r) bs a s := by
  obtain ⟨u, r₁, h₁, h₂⟩ := Step.bind_eq_ok.mp h
  have hlt : r.enclosing.length < maxStructDepth := by
    rw [structBegin, Step.state_bind] at h₁
    split at h₁
    · cases h₁
    · omega
  rw [structBegin_ok hlt] at h₁
  cases h₁
  obtain ⟨a', s, h₃, h₄⟩ := Step.bind_eq_ok.mp h₂
  obtain ⟨bs, hbs, he, hd⟩ := hx (inside r) hlt a' s h₃
  rw [Step.bind_ok (structEnd_ok he)] at h₄
  cases h₄
  exact ⟨hlt, bs, s, hbs, rfl, hd⟩

theorem delimited_frame (hx : Delimited x) : Delimited (frame x) := by
  intro r hr a r' h
  obtain ⟨hlt, bs, s, hbs, rfl, hd⟩ := frame_eq_ok hr hx h
  exact ⟨bs, hbs, rfl, hd.frame hlt r.lastField⟩

section
variable {f : β → WireType → Int16 → Read β} (hf : ∀ b t id, Delimited (f b t id))
include hf

/-- fuel beyond the bytes left makes no difference -/
theorem foldFields_fuel (n m : Nat) (b : β) (r : Reader)
    (hr : r.enclosing.length ≤ maxStructDepth) (hn : r.cursor.remaining < n)
    (hm : r.cursor.remaining < m) : foldFields f n b r = foldFields f m b r := by
  induction n generalizing m b r with
  | zero => omega
  | succ n ih =>
    obtain ⟨m, rfl⟩ := Nat.exists_eq_succ_of_ne_zero (Nat.ne_of_gt (Nat.zero_lt_of_lt hm))
    unfold foldFields
    rw [Step.bind_apply, Step.bind_apply]
    rcases h : fieldBegin r with ⟨e | field, r₁⟩
    · rfl
    · obtain ⟨h₁, he₁⟩ := fieldBegin_remaining hr h
      rcases field with _ | ⟨t, id⟩
      · rfl
      · dsimp only
        rw [Step.bind_apply, Step.bind_apply]
        rcases h' : f b t id r₁ with ⟨e | b', r₂⟩
        · rfl
        · obtain ⟨h₂, he₂⟩ := (hf b t id r₁).remaining_le (he₁ ▸ hr) h'
          exact ih m b' r₂ (by rwa [he₂, he₁]) (by omega) (by omega)

/-- the loop over the fields, without its fuel -/
theorem fields_eq (b : β) (hr : r.enclosing.length ≤ maxStructDepth) : fields f b r = (do
    match ← fieldBegin with
    | none => pure b
    | some (t, id) =>
      let b ← f b t id
      fields f b : Read β) r := by
  show foldFields f (r.cursor.remaining + 1) b r = _
  unfold foldFields
  rw [Step.bind_apply, Step.bind_apply]
  rcases h : fieldBegin r with ⟨e | field, r₁⟩
  · rfl
  · obtain ⟨h₁, he₁⟩ := fieldBegin_remaining hr h
    rcases field with _ | ⟨t, id⟩
    · rfl
    · dsimp only
      rw [Step.bind_apply, Step.bind_apply]
      rcases h' : f b t id r₁ with ⟨e | b', r₂⟩
      · rfl
      · obtain ⟨h₂, he₂⟩ := (hf b t id r₁).remaining_le (he₁ ▸ hr) h'
        exact foldFields_fuel hf _ _ b' r₂ (by rwa [he₂, he₁]) (by omega) (Nat.lt_succ_self _)

/-- a field takes a byte at least, so the induction is on what is left -/
theorem delimited_fields (b : β) : Delimited (fields f b) := by
  have key : ∀ left b r, r.cursor.remaining = left → DelimitedAt (fields f b) r := by
    intro left
    induction left using Nat.strongRecOn with
    | ind left ih =>
      rintro b r rfl
      refine DelimitedAt.congr _ (fun e before rest he => fields_eq hf b he) ?_
      intro hr
      refine delimitedAt_bind (delimited_fieldBegin r) (fun field r₁ h => ?_) hr
      obtain ⟨h₁, he₁⟩ := fieldBegin_remaining hr h
      rcases field with _ | ⟨t, id⟩
      · exact delimited_pure b r₁
      · refine delimitedAt_bind (hf b t id r₁) fun b' r₂ h' => ?_
        obtain ⟨h₂, -⟩ := (hf b t id r₁).remaining_le (he₁ ▸ hr) h'
        exact ih _ (Nat.lt_of_le_of_lt h₂ h₁) b' r₂ rfl
  exact fun r => key _ b r rfl

theorem delimited_foldStruct (b : β) : Delimited (foldStruct f b) := by
  rw [foldStruct_eq]
  exact delimited_frame (delimited_fields hf b)

end

theorem delimited_skipWithin (depth : Nat) : ∀ t, Delimited (skipWithin depth t) := by
  induction depth with
  | zero => exact fun _ => delimited_fail _
  | succ depth ih =>
    intro t
    have done {α : Type} {x : Read α} (hx : Delimited x) : Delimited (do let _ ← x) :=
      delimited_bind hx fun _ => delimited_pure _
    have list : Delimited (listBegin >>= fun h => Step.replicate h.2 (skipWithin depth h.1)) :=
      delimited_bind delimited_listBegin fun h => delimited_replicate (ih h.1) h.2
    cases t with
    | stop => exact delimited_fail _
    | bool => exact done delimited_bool
    | i8 => exact done delimited_i8
    | i16 => exact done delimited_i16
    | i32 => exact done delimited_i32
    | i64 => exact done delimited_i64
    | double => exact done delimited_double
    | binary => exact done delimited_binary
    | list => exact list
    | set => exact list
    | map =>
      refine delimited_bind delimited_mapBegin fun header => ?_
      split
      · exact delimited_pure _
      · rename_i key value _
        exact delimited_replicate (delimited_bind (ih key) fun _ => ih value) _
    | struct => exact delimited_foldStruct (fun _ t _ => ih t) ()

theorem delimited_skip (t : WireType) : Delimited (skip t) := delimited_skipWithin maxSkipDepth t

end Read

end Compact

end Columnar
