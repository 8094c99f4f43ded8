import Columnar.Proofs.Hybrid.Bounds
import Columnar.Proofs.Plain.Bounds

/-!
# Decoding with every operation checked

The readers count with natural numbers and take parts of lists, which always gives something.
On a machine a count may run out of its bits, and a part may not be there.  Here the decoders are
written down once more, with each such operation checked before it is made: where the check
fails, the step fails as a misuse.  In front of bytes that were read rightly, no check fails.

* `Step.demand p m`      goes on where `p` holds, and is the misuse `m` where not;
* `Varint.Checked`, `Hybrid.Decoder.Checked`, `Plain.Decoder.Checked`   the checked decoders;
* `Varint.Checked.read_eq`, `Hybrid.Decoder.Checked.nullMask_eq`,
  `Plain.Decoder.Checked.values_eq`   they are the decoders.
-/

namespace Columnar

/-! ## checks -/

namespace Step

variable {σ τ ε α β : Type} {s : σ}

/-- go on where `p` holds -/
def demand (p : Prop) [Decidable p] (m : Misuse) : Step σ Failure Unit :=
  if p then pure () else fail m

theorem demand_bind {p : Prop} [Decidable p] (h : p) (m : Misuse)
    (f : Unit → Step σ Failure α) (s : σ) : (demand p m >>= f) s = f () s := by
  rw [demand, if_pos h]
  rfl

/-- two sequences run alike, when their first steps do and what follows does wherever the first
step can answer -/
theorem bind_same {x y : Step σ ε α} {f g : α → Step σ ε β} {A : α → σ → Prop}
    {E : ε → σ → Prop} (h : x s = y s) (hy : Ends A E (y s))
    (hf : ∀ a t, A a t → f a t = g a t) : (x >>= f) s = (y >>= g) s := by
  rw [bind_apply, bind_apply, h]
  rcases hrun : y s with ⟨e | a, t⟩
  · rfl
  · rw [hrun] at hy
    exact hf a t hy

theorem bind_same_left {x y : Step σ ε α} (f : α → Step σ ε β) (h : x s = y s) :
    (x >>= f) s = (y >>= f) s := by
  rw [bind_apply, bind_apply, h]

theorem lift_bind (x : Step σ Error α) (f : α → Step σ Error β) :
    (liftM (x >>= f) : Step σ Failure β) =
      (liftM x : Step σ Failure α) >>= fun a => (liftM (f a) : Step σ Failure β) := by
  funext s
  show mapError Failure.error (x >>= f) s =
    (mapError Failure.error x >>= fun a => mapError Failure.error (f a)) s
  rw [bind_apply, mapError, mapError, bind_apply]
  rcases x s with ⟨e | a, t⟩ <;> rfl

theorem lift_map (f : α → β) (x : Step σ Error α) :
    (liftM (f <$> x) : Step σ Failure β) = f <$> (liftM x : Step σ Failure α) :=
  lift_bind x fun a => pure (f a)

theorem lift_times (n : Nat) (x : Step σ Error α) :
    (liftM (times n x) : Step σ Failure (List α)) = times n (liftM x : Step σ Failure α) := by
  induction n with
  | zero => rfl
  | succ n ih =>
    rw [times_succ, times_succ, lift_bind, ← ih]
    congr 1
    funext a
    exact lift_bind _ _

theorem map_same (f : α → β) {x y : Step σ ε α} (h : x s = y s) : (f <$> x) s = (f <$> y) s :=
  bind_same_left _ h

/-- a step among failures answers as it does among errors -/
theorem Ends.lift {A : α → σ → Prop} {E : Error → σ → Prop} {x : Step σ Error α}
    (h : Ends A E (x s)) :
    Ends A (fun _ _ => True) ((liftM x : Step σ Failure α) s) :=
  ends_mapError h fun _ _ _ => trivial

theorem on_same {part : σ → τ} {set : σ → τ → σ} {x y : Step τ ε α} (h : x (part s) = y (part s)) :
    on part set x s = on part set y s := by
  rw [on_apply, on_apply, h]

end Step

open Step

/-- the bytes from `start` up to `stop`, which have to be there -/
def slice (bs : Bytes) (start stop : Nat) : Except Failure Bytes :=
  if start ≤ stop ∧ stop ≤ bs.length then .ok ((bs.drop start).take (stop - start))
  else .error (.misuse (.sliceStart start bs.length))

theorem slice_ok {bs : Bytes} {start stop : Nat} (h : start ≤ stop) (h' : stop ≤ bs.length) :
    slice bs start stop = .ok ((bs.drop start).take (stop - start)) := if_pos ⟨h, h'⟩

theorem slice_front {bs : Bytes} {n : Nat} (h : n ≤ bs.length) :
    slice bs 0 n = .ok (bs.take n) := slice_ok (Nat.zero_le n) h

theorem slice_rest {bs : Bytes} {start : Nat} (h : start ≤ bs.length) :
    slice bs start bs.length = .ok (bs.drop start) := by
  rw [slice_ok h (Nat.le_refl _), List.take_of_length_le (Nat.le_of_eq List.length_drop)]

/-- what a cursor passed since it stood behind `before` -/
theorem slice_passed (before bs rest : Bytes) :
    slice (Cursor.data ⟨bs.reverse ++ before, rest⟩) before.length
      (Cursor.pos ⟨bs.reverse ++ before, rest⟩) = .ok bs := by
  have hdata : Cursor.data ⟨bs.reverse ++ before, rest⟩ = before.reverse ++ (bs ++ rest) := by
    rw [Cursor.data, List.reverse_append, List.reverse_reverse, List.append_assoc]
  have hpos : Cursor.pos ⟨bs.reverse ++ before, rest⟩ = before.length + bs.length := by
    rw [Cursor.pos, List.length_append, List.length_reverse, Nat.add_comm]
  have hfront : before.length = before.reverse.length := List.length_reverse.symm
  rw [hdata, hpos, slice_ok (Nat.le_add_right ..)
    (by rw [List.length_append, List.length_append, List.length_reverse]; omega),
    Nat.add_sub_cancel_left, hfront, List.drop_left, List.take_left]

/-- values that are read alike are put into a batch alike -/
theorem Batch.pushEach_same {σ : Type} {I : σ → Prop} {x y : Step σ Failure Value}
    (h : ∀ s, I s → x s = y s) (hy : Maintains I Any y) (n : Nat) :
    ∀ (s : σ) (b : Batch), I s → pushEach x n (s, b) = pushEach y n (s, b) := by
  induction n with
  | zero => exact fun _ _ _ => rfl
  | succ n ih =>
    intro s b hs
    have hI := (hy s hs).1
    rw [pushEach, pushEach]
    rcases hrun : y s with ⟨e | v, s'⟩
    · rw [bind_error (onFst_error ((h s hs).trans hrun) b), bind_error (onFst_error hrun b)]
    · rw [hrun] at hI
      rw [bind_ok (onFst_ok ((h s hs).trans hrun) b), bind_ok (onFst_ok hrun b), bind_apply,
        bind_apply, onSnd]
      rcases push v b with ⟨e | ⟨⟩, b'⟩
      · rfl
      · exact ih s' b' hI

/-! ## numbers -/

namespace Varint.Checked

/-- the bytes of one number, of which at most `budget` are read: a group is shifted into 64 bits,
and a number that is too long began some bytes before -/
def readGroups : Nat → Step Cursor Failure Bytes
  | 0 => do
    let pos ← Step.look Cursor.pos
    let start ← subtract pos maxLen
    Step.fail (Fault.varintTooLong start)
  | budget + 1 => do
    let b ← (Cursor.byte : Step Cursor Error UInt8)
    Step.demand (7 * (maxLen - (budget + 1)) < 64) .shiftOverflow
    if b.toNat < 128 then
      pure [b]
    else
      let bs ← readGroups budget
      pure (b :: bs)

def read : Step Cursor Failure Nat := do
  let bs ← readGroups maxLen
  pure (value bs % 2 ^ 64)

/-- behind the bytes that were read of a number, the rest of it is read with no check failing -/
theorem readGroups_eq (budget : Nat) : ∀ c : Cursor, budget ≤ maxLen → maxLen ≤ c.pos + budget →
    readGroups budget c = (liftM (Varint.readGroups budget) : Step Cursor Failure Bytes) c := by
  induction budget with
  | zero =>
    intro c _ hpos
    rw [readGroups, bind_ok (look_apply _ _), subtract_bind (by omega)]
    rfl
  | succ budget ih =>
    intro c hbudget hpos
    have hshift : 7 * (maxLen - (budget + 1)) < 64 := by
      have : maxLen = 10 := rfl
      omega
    rw [readGroups, Varint.readGroups, lift_bind]
    rcases h : Cursor.byte c with ⟨x | b, c'⟩
    · rw [bind_error (lift_error h), bind_error (lift_error h)]
    · have hnext := Cursor.byte_pos h
      rw [bind_ok (lift_ok h), bind_ok (lift_ok h), demand_bind hshift]
      split
      · rfl
      · rw [lift_bind, bind_apply, ih c' (by omega) (by omega)]
        rfl

/-- no check fails where a number is read -/
theorem read_eq : read = (liftM Varint.read : Step Cursor Failure Nat) := by
  funext c
  rw [read, Varint.read, lift_bind, bind_apply,
    readGroups_eq _ c (Nat.le_refl _) (Nat.le_add_left ..)]
  rfl

end Varint.Checked

/-! ## the hybrid stream -/

namespace Hybrid

/-- the place of the first value, in bits -/
def Run.place (w : Nat) : Run → Nat
  | repeated _ _ => 0
  | packed _ index _ => index * w

namespace Decoder

variable {d : Decoder}

/-- the place of a value is told in 64 bits, when the stream is in memory -/
theorem Bounded.place_lt (hd : d.Bounded) (hsize : d.stream.size < 2 ^ 60) :
    d.run.place d.width < 2 ^ 64 := by
  have hwithin := hd.run
  cases hrun : d.run with
  | repeated _ _ => exact Nat.two_pow_pos 64
  | packed bs index left =>
    rw [hrun] at hwithin
    calc index * d.width ≤ (index + left) * d.width :=
          Nat.mul_le_mul_right _ (Nat.le_add_right ..)
      _ ≤ 8 * d.stream.size := hwithin.1
      _ < 2 ^ 64 := by omega

/-- a mask has no more bits than there are levels -/
theorem fillMask_popCount {count : Nat} (hcount : count ≤ maskSize) (hwidth : d.width = 1) :
    Ends (fun mask _ => popCount mask ≤ count) (fun _ _ => True) (fillMask count count 0 0 d) := by
  rw [fillMask_eq count count 0 0 d hwidth (Nat.zero_le _) (Nat.le_add_left ..) hcount,
    Nat.sub_zero]
  rcases h : Step.times count next d with ⟨x | ls, e⟩
  · trivial
  · have hlen := length_times h
    have hmask : 0 ||| maskOf ls <<< 0 = maskOf ls := by rw [Nat.zero_or, Nat.shiftLeft_zero]
    show popCount (0 ||| maskOf ls <<< 0) ≤ count
    rw [hmask, popCount_maskOf (hlen ▸ hcount), ← hlen]
    exact List.countP_le_length

namespace Checked

/-- the next value: one is left of the run, its place is told in 64 bits, and so is the mask of
its bits -/
def next : Step Decoder Failure Nat := do
  (ready : Step Decoder Error Unit)
  let d ← Step.state
  let _ ← subtract d.run.left 1
  Step.demand (d.run.place d.width < 2 ^ 64) .multiplyOverflow
  Step.demand (d.width < 64) .shiftOverflow
  Step.put { d with run := d.run.drop 1 }
  pure (d.run.head d.width)

/-- the mask of the zeros among the next `count` levels: a mask of sixteen bits is shifted by
less than that -/
def fillMask (count : Nat) : Nat → Nat → Nat → Step Decoder Failure Nat
  | 0, _, mask => pure mask
  | fuel + 1, filled, mask => do
    if filled < count then
      (ready : Step Decoder Error Unit)
      let d ← Step.state
      let room ← subtract count filled
      let take := min d.run.left room
      let _ ← subtract d.run.left take
      Step.demand (filled < maskSize) .shiftOverflow
      Step.put { d with run := d.run.drop take }
      fillMask count fuel (filled + take) (mask ||| (d.run.zeros take <<< filled))
    else
      pure mask

/-- the next `count` levels, of one bit each; the mask has no more bits than there are levels -/
def nullMask (count : Nat) : Step Decoder Failure (Nat × Nat) := do
  if maskSize < count then
    Step.fail (Misuse.maskTooLong count)
  else
    let d ← Step.state
    Step.demand (d.width = 1) (.wrongWidth 1 d.width)
    let mask ← fillMask count count 0 0
    let present ← subtract count (popCount mask)
    pure (mask, present)

theorem next_eq (hd : d.Bounded) (hsize : d.stream.size < 2 ^ 60) :
    next d = (liftM Decoder.next : Step Decoder Failure Nat) d := by
  rw [next, Decoder.next, lift_bind]
  refine bind_same rfl (ready_ends hd).lift ?_
  rintro ⟨⟩ e ⟨honward, hleft⟩
  have hsize' : e.stream.size < 2 ^ 60 := by
    rw [honward.follows.stream.size]
    exact hsize
  have hwidth : e.width < 64 := Nat.lt_of_le_of_lt honward.bounded.width (by decide)
  rw [state_bind, subtract_bind hleft, demand_bind (honward.bounded.place_lt hsize'),
    demand_bind hwidth]
  rfl

theorem fillMask_eq {count : Nat} (hcount : count ≤ maskSize) (fuel : Nat) :
    ∀ (filled mask : Nat) (d : Decoder), fillMask count fuel filled mask d =
      (liftM (Decoder.fillMask count fuel filled mask) : Step Decoder Failure Nat) d := by
  induction fuel with
  | zero => exact fun _ _ _ => rfl
  | succ fuel ih =>
    intro filled mask d
    rw [fillMask, Decoder.fillMask]
    split
    · rename_i hlt
      rw [lift_bind, bind_apply, bind_apply]
      rcases (liftM ready : Step Decoder Failure Unit) d with ⟨x | ⟨⟩, e⟩
      · rfl
      · dsimp only
        rw [state_bind, subtract_bind (Nat.le_of_lt hlt), subtract_bind (Nat.min_le_left ..),
          demand_bind (Nat.lt_of_lt_of_le hlt hcount), put_bind]
        exact ih _ _ _
    · rfl

theorem nullMask_eq {count : Nat} (hcount : count ≤ maskSize) (hwidth : d.width = 1) :
    nullMask count d = Decoder.nullMask count d := by
  rw [nullMask, Decoder.nullMask, if_neg (Nat.not_lt.mpr hcount), if_neg (Nat.not_lt.mpr hcount),
    state_bind, demand_bind hwidth]
  refine bind_same (fillMask_eq hcount _ _ _ _) (fillMask_popCount hcount hwidth).lift ?_
  intro mask e hmask
  rw [subtract_bind hmask]

end Checked

end Decoder

end Hybrid

/-! ## plain values -/

namespace Plain.Decoder

variable {d : Decoder}

/-- a decoder stands behind the bytes that it read -/
theorem ofCursor_view_ok {n : Nat} {e : Decoder} {bs : Bytes}
    (h : ofCursor (Cursor.view n) d = (.ok bs, e)) :
    ∃ rest, e = { d with cursor := ⟨bs.reverse ++ d.cursor.before, rest⟩ } := by
  rw [ofCursor, on_apply, Cursor.view_eq] at h
  split at h
  · cases h
    exact ⟨_, rfl⟩
  · cases h

namespace Checked

/-- the next boolean: a byte is shifted by less than its eight bits -/
def bool : Step Decoder Failure Bool := do
  let d ← Step.state
  if d.bitOffset = 0 then
    let b ← (ofCursor Cursor.byte : Step Decoder Error UInt8)
    Step.update fun d => { d with bits := b }
  let d ← Step.state
  Step.demand (d.bitOffset < 8) .shiftOverflow
  Step.put { d with bitOffset := (d.bitOffset + 1) % 8 }
  pure (d.bits.toNat.testBit d.bitOffset)

/-- the next byte array, which is what the decoder passes while its length and payload are
read -/
def byteArray : Step Decoder Failure Value := do
  let start ← Step.look consumed
  let head ← (ofCursor (Cursor.view 4) : Step Decoder Error Bytes)
  let len := fromLE head
  let _ ← ((ofCursor (Cursor.view len)).within (.byteArrayAt len start) : Step Decoder Error Bytes)
  let d ← Step.state
  let bs ← slice d.cursor.data start d.consumed
  pure (.byteArray bs)

def value : Step Decoder Failure Value := do
  let d ← Step.state
  match d.type with
  | .boolean => Value.boolean <$> bool
  | .byteArray => byteArray
  | t => Value.ofFixed t <$> (ofCursor (Cursor.view d.width) : Step Decoder Error Bytes)

/-- `n` values into the batch; those of one width are read together -/
def values (n : Nat) : Step (Decoder × Batch) Failure Unit := do
  let (d, _) ← Step.state
  match d.type with
  | .boolean => Batch.pushEach (Value.boolean <$> bool) n
  | .byteArray => Batch.pushEach byteArray n
  | _ => Decoder.values n

theorem bool_eq (hd : d.bitOffset < 8) :
    bool d = (liftM Decoder.bool : Step Decoder Failure Bool) d := by
  have tail (e : Decoder) (he : e.bitOffset < 8) : (do
      let d ← Step.state
      Step.demand (d.bitOffset < 8) .shiftOverflow
      Step.put { d with bitOffset := (d.bitOffset + 1) % 8 }
      pure (d.bits.toNat.testBit d.bitOffset) : Step Decoder Failure Bool) e =
      (.ok (e.bits.toNat.testBit e.bitOffset), { e with bitOffset := (e.bitOffset + 1) % 8 }) := by
    rw [state_bind, demand_bind he]
    rfl
  have hread := (ofCursor_onward d Cursor.byte_follows).ends
    (ofCursor_fails Cursor.byte_fails) (.refl hd)
  rw [bool, Decoder.bool, lift_bind, state_bind]
  refine Eq.trans ?_ (state_bind _ d).symm
  by_cases hzero : d.bitOffset = 0
  · rw [if_pos hzero, if_pos hzero, lift_bind]
    refine bind_same rfl hread.lift ?_
    rintro b e ⟨honward, -⟩
    exact tail { e with bits := b } honward.bounded
  · rw [if_neg hzero, if_neg hzero]
    exact tail d hd

/-- the length and the payload of a byte array lie where they were read -/
theorem byteArray_eq (d : Decoder) :
    byteArray d = (liftM Decoder.byteArray : Step Decoder Failure Value) d := by
  rw [byteArray, Decoder.byteArray, lift_bind, bind_ok (look_apply _ _),
    bind_ok (lift_ok (look_apply _ _)), lift_bind]
  rcases hhead : ofCursor (Cursor.view 4) d with ⟨x | head, e⟩
  · rw [bind_error (lift_error hhead), bind_error (lift_error hhead)]
  rw [bind_ok (lift_ok hhead), bind_ok (lift_ok hhead)]
  dsimp only
  rw [lift_bind]
  rcases hbody : ofCursor (Cursor.view (fromLE head)) e with ⟨x | body, f⟩
  · rw [bind_error (lift_error (within_error hbody)), bind_error (lift_error (within_error hbody))]
  rw [bind_ok (lift_ok (within_ok hbody)), bind_ok (lift_ok (within_ok hbody)), state_bind]
  obtain ⟨rest, rfl⟩ := ofCursor_view_ok hhead
  obtain ⟨rest', rfl⟩ := ofCursor_view_ok hbody
  have hslice := slice_passed d.cursor.before (head ++ body) rest'
  rw [List.reverse_append, List.append_assoc] at hslice
  exact bind_ok (ofExcept_ok hslice _) _

theorem value_eq (hd : d.bitOffset < 8) :
    value d = (liftM Decoder.value : Step Decoder Failure Value) d := by
  rw [value, Decoder.value, lift_bind, state_bind]
  refine Eq.trans ?_ (state_bind _ d).symm
  cases d.type with
  | boolean =>
    dsimp only
    rw [lift_map]
    exact map_same _ (bool_eq hd)
  | byteArray => exact byteArray_eq d
  | _ =>
    dsimp only
    rw [lift_map]

theorem values_eq (n : Nat) (hd : d.bitOffset < 8) (b : Batch) :
    values n (d, b) = Decoder.values n (d, b) := by
  have hcases : values n (d, b) = (match d.type with
    | .boolean => Batch.pushEach (Value.boolean <$> bool) n
    | .byteArray => Batch.pushEach byteArray n
    | _ => Decoder.values n : Step (Decoder × Batch) Failure Unit) (d, b) := rfl
  rw [hcases]
  cases htype : d.type with
  | boolean =>
    rw [Decoder.values_eq, htype]
    have hsame (e : Decoder) (he : d.Onward e) : (Value.boolean <$> bool) e =
        (liftM (Value.boolean <$> Decoder.bool) : Step Decoder Failure Value) e := by
      rw [lift_map]
      exact map_same _ (bool_eq he.bounded)
    exact Batch.pushEach_same hsame
      (maintains_mapError (maintains_bind (bool_onward d) fun _ _ => maintains_pure trivial))
      n d b (.refl hd)
  | byteArray =>
    rw [Decoder.values_eq, htype]
    exact Batch.pushEach_same (I := fun _ => True) (fun e _ => byteArray_eq e)
      (maintains_any _) n d b trivial
  | _ => rfl

end Checked

end Plain.Decoder

end Columnar
