import Columnar.Proofs.Compact.Values

/-!
# Fields and structs are read back

A field is its header and its payload.  A boolean has its value in the header, so a field is
carried as a whole: `FieldCarried` says what is between two fields, where no boolean is held back.

* `headerBytes code last id`   the header of field `id` behind field `last`;
* `FieldCarriedFrom o d i t id x y a`   a field of type `t` behind the field `i`, whose payload
                                       `x` writes and `y` reads as `a`;
* `FieldCarried o d t id x y a`   the same behind every field that is not negative.
-/

namespace Columnar.Compact

variable {o : Options} {d : Nat} {i : Int16}

/-! ## headers -/

/-- the header of field `id` behind field `last`, with a type nibble -/
def headerBytes (code : UInt8) (last id : Int16) : Bytes :=
  if last < id ∧ id - last ≤ 15 then [((id - last).toUInt16.toUInt8 <<< 4) ||| code]
  else code :: Varint.encode (Zigzag.fold id.toInt)

theorem headerBytes_ne_nil (code : UInt8) (last id : Int16) : headerBytes code last id ≠ [] := by
  unfold headerBytes
  split <;> exact List.cons_ne_nil _ _

theorem emits_fieldHeader (code : UInt8) (i id : Int16) :
    Write.Emits d i id (Write.fieldHeader code id) (headerBytes code i id)
      (headerBytes code i id).length := by
  unfold Write.fieldHeader headerBytes
  apply Write.emits_look_bind
  dsimp only
  by_cases h : i < id ∧ id - i ≤ 15
  · rw [if_pos h, if_pos h]
    apply Write.emits_bind_pure (Write.emits_call _)
    exact Write.emits_bind_pure Write.emits_setLast (Write.emits_pure _)
  · rw [if_neg h, if_neg h]
    apply Write.emits_bind (s := [code]) (Write.emits_call _)
    apply Write.emits_bind_pure (Write.emits_call _)
    apply Write.emits_bind_pure (Write.emits_pure _)
    apply Write.emits_bind_pure Write.emits_setLast
    rw [List.length_cons, Nat.add_comm]
    exact Write.emits_pure _

/-- the step between two numbers, where it does not wrap -/
theorem toInt_step {last id : Int16} (h : last.toInt < id.toInt)
    (h' : id.toInt - last.toInt < 2 ^ 15) : (id - last).toInt = id.toInt - last.toInt := by
  rw [Int16.toInt_sub, Int.bmod_eq_of_le] <;> omega

/-- a step that fits a nibble, in its place -/
theorem step_nibble {delta : Int16} {n : Nat} (h : delta.toInt = n) (hn : n < 16) :
    delta.toUInt16.toUInt8 <<< 4 = UInt8.ofNat (n * 16) := by
  have key : ∀ n : Fin 16,
      (Int16.ofInt (n.val : Nat)).toUInt16.toUInt8 <<< 4 = UInt8.ofNat (n.val * 16) := by decide
  rw [← Int16.ofInt_toInt delta, h]
  exact key ⟨n, hn⟩

theorem nextField_eq {last id : Int16} {n : Nat} (h : last.toInt + n = id.toInt) :
    Read.nextField last n = some id := by
  unfold Read.nextField
  rw [h, if_pos id.toInt_lt, Int16.ofInt_toInt]

/-- a header begins with the nibble of its type, and what follows says the number -/
theorem headerBytes_eq {code : UInt8} {last id : Int16} (hc : code.toNat < 16)
    (hstep : id.toInt - last.toInt < 2 ^ 15) : ∃ b s, headerBytes code last id = b :: s ∧
      b &&& 0x0F = code ∧ ∀ (r : Reader) (before rest : Bytes), r.lastField = last →
        r.cursor = ⟨before, s ++ rest⟩ → Read.fieldNumber (b >>> 4).toNat r =
          (.ok id, { r with cursor := ⟨s.reverse ++ before, rest⟩ }) := by
  unfold headerBytes
  by_cases h : last < id ∧ id - last ≤ 15
  · rw [if_pos h]
    have hlt : last.toInt < id.toInt := Int16.lt_iff_toInt_lt.mp h.1
    have hle : (id - last).toInt ≤ 15 := Int16.le_iff_toInt_le.mp h.2
    rw [toInt_step hlt hstep] at hle
    have hn : ((id.toInt - last.toInt).toNat : Int) = id.toInt - last.toInt :=
      Int.toNat_of_nonneg (by omega)
    have hn' : (id.toInt - last.toInt).toNat < 16 := by omega
    rw [step_nibble ((toInt_step hlt hstep).trans hn.symm) hn']
    obtain ⟨h1, h2⟩ := nibbles hn' hc
    refine ⟨_, [], rfl, h1, ?_⟩
    rintro r before rest rfl hcur
    rw [h2, Read.fieldNumber, Step.bind_ok (Step.look_apply _ _), if_neg (by omega),
      nextField_eq (by omega : r.lastField.toInt + _ = id.toInt)]
    obtain ⟨_, _, _, _, _, _⟩ := r
    cases hcur
    rfl
  · rw [if_neg h]
    obtain ⟨h1, h2⟩ := nibbles (show 0 < 16 by decide) hc
    rw [show UInt8.ofNat (0 * 16) ||| code = code from UInt8.zero_or] at h1 h2
    refine ⟨code, _, rfl, h1, fun r before rest hr hcur => ?_⟩
    rw [h2, Read.fieldNumber, Step.bind_ok (Step.look_apply _ _), if_pos rfl]
    exact i16_ok hcur

/-- a header is read as the type and the number that it was written for -/
theorem fieldBegin_header {r : Reader} {before rest : Bytes} {code : UInt8} {t : WireType}
    {id : Int16} (hcode : WireType.ofCode? code = some t) (hpos : code ≠ 0)
    (hlt : code.toNat < 16) (hstep : id.toInt - r.lastField.toInt < 2 ^ 15)
    (hc : r.cursor = ⟨before, headerBytes code r.lastField id ++ rest⟩) :
    Read.fieldBegin r = (.ok (some (t, id)), { r with
      cursor := ⟨(headerBytes code r.lastField id).reverse ++ before, rest⟩
      lastField := id
      pendingBool := if t = .bool then some (code == 1) else r.pendingBool }) := by
  obtain ⟨b, s, hb, hnib, hnum⟩ := headerBytes_eq hlt hstep
  rw [hb] at hc ⊢
  rw [Read.fieldBegin, Read.byte, Step.bind_ok (Read.ofCursor_ok (Cursor.takes_byte b) hc)]
  rw [hnib, if_neg hpos, Read.wireType, hcode, Step.bind_ok (Step.pure_apply _ _),
    Read.holdBack, Step.bind_ok (Step.update_apply _ _)]
  have e := hnum { r with
    cursor := ⟨b :: before, s ++ rest⟩
    pendingBool := if t = .bool then some (code == 1) else r.pendingBool } _ rest rfl rfl
  refine (Step.bind_ok e _).trans ?_
  rw [List.reverse_cons, List.append_assoc]
  rfl

/-- the zero byte ends a struct -/
theorem takes_stop : Read.Takes o d i i Read.fieldBegin [0] none :=
  Read.takes_bind_pure (Read.takes_byte 0) (Read.takes_pure none)

/-! ## fields -/

/-- a field of number `id` and type `t`, whose payload `x` writes and `y` reads, is carried
behind the field `i` -/
def FieldCarriedFrom {α : Type} (o : Options) (d : Nat) (i : Int16) (t : WireType) (id : Int16)
    (x : Write Nat) (y : Read α) (a : α) : Prop :=
  ∃ s, s ≠ [] ∧
    Write.Emits d i id (Write.field t id x) s s.length ∧
    ∀ (r : Reader) (before rest : Bytes), r.At o d i → r.cursor = ⟨before, s ++ rest⟩ → ∃ r',
      Read.fieldBegin r = (.ok (some (t, id)), r') ∧
      y r' = (.ok a, { r with cursor := ⟨s.reverse ++ before, rest⟩, lastField := id })

/-- a field that is carried behind every field before it -/
def FieldCarried {α : Type} (o : Options) (d : Nat) (t : WireType) (id : Int16) (x : Write Nat)
    (y : Read α) (a : α) : Prop :=
  ∀ i : Int16, 0 ≤ i.toInt → FieldCarriedFrom o d i t id x y a

theorem fieldEnd_ok {w : Writer} (h : w.pendingBool = none) : Write.fieldEnd w = (.ok 0, w) := by
  rw [Write.fieldEnd, Step.bind_ok (Step.look_apply _ _), h]
  rfl

theorem emits_fieldEnd : Write.Emits d i i Write.fieldEnd [] 0 := by
  intro w hw
  rw [fieldEnd_ok hw.pending]
  exact Write.emits_pure 0 w hw

/-- the number of a field does not wrap behind a field that is not negative -/
theorem step_lt {i id : Int16} (hi : 0 ≤ i.toInt) : id.toInt - i.toInt < 2 ^ 15 := by
  have := id.toInt_lt
  omega

/-- a field of any type but boolean, less than `2 ^ 15` above the one before it -/
theorem fieldCarriedFrom_of_carried {α : Type} {t : WireType} {id : Int16} {x : Write Nat}
    {y : Read α} {a : α} (hb : t ≠ .bool) (ht : t ≠ .stop)
    (hstep : id.toInt - i.toInt < 2 ^ 15) (h : Carried o d x y a) :
    FieldCarriedFrom o d i t id x y a := by
  obtain ⟨s, hs⟩ := h
  have hne : headerBytes t.code i id ++ s ≠ [] := fun e =>
    headerBytes_ne_nil _ _ _ (List.append_eq_nil_iff.mp e).1
  refine ⟨headerBytes t.code i id ++ s, hne, ?_, ?_⟩
  · rw [Write.field, Write.fieldBegin, if_neg hb, List.length_append]
    apply Write.emits_bind (emits_fieldHeader t.code i id)
    refine Write.emits_bind_pure (hs id).1 (Write.emits_bind_pure emits_fieldEnd ?_)
    exact Write.emits_pure _
  · intro r before rest hr hc
    have hpos : t.code ≠ 0 := by
      cases t <;> first | decide | exact absurd rfl ht
    rw [List.append_assoc, ← hr.last] at hc
    have e := fieldBegin_header (WireType.ofCode?_code t) hpos (code_lt t)
      (hr.last.symm ▸ hstep) hc
    refine ⟨_, e, ?_⟩
    rw [hr.last, if_neg hb, List.reverse_append, List.append_assoc]
    exact (hs id).2 _ _ rest ⟨⟨hr.limits.1, hr.limits.2⟩, rfl, hr.pending, hr.depth⟩ rfl

theorem fieldCarried_of_carried {α : Type} {t : WireType} {id : Int16} {x : Write Nat}
    {y : Read α} {a : α} (hb : t ≠ .bool) (ht : t ≠ .stop) (h : Carried o d x y a) :
    FieldCarried o d t id x y a :=
  fun _ hi => fieldCarriedFrom_of_carried hb ht (step_lt hi) h

/-- a boolean field has its value in its header -/
theorem fieldCarriedFrom_bool {id : Int16} (b : Bool) (hstep : id.toInt - i.toInt < 2 ^ 15) :
    FieldCarriedFrom o d i .bool id (Write.bool b) Read.bool b := by
  let code : UInt8 := if b then 1 else 2
  refine ⟨headerBytes code i id, headerBytes_ne_nil _ _ _, ?_, ?_⟩
  · intro w hw
    obtain ⟨z, e, hg⟩ := emits_fieldHeader code i id w hw
    refine ⟨z, ?_, hg⟩
    have hw' : { w with pendingBool := none } = w := by
      rw [← hw.pending]
    have e0 : Write.fieldBegin .bool id w = (.ok 0, { w with pendingBool := some id }) := by
      rw [Write.fieldBegin, if_pos rfl, Step.bind_ok (Step.look_apply _ _), hw.pending]
      rfl
    have e1 : Write.bool b { w with pendingBool := some id } =
        (.ok (headerBytes code i id).length, { w with sink := z, lastField := id }) := by
      refine Eq.trans ?_ e
      rw [← hw']
      rfl
    have e2 := fieldEnd_ok (w := { w with sink := z, lastField := id }) hw.pending
    rw [Write.field, Step.bind_ok e0, Step.bind_ok e1, Step.bind_ok e2, Nat.zero_add]
    rfl
  · intro r before rest hr hc
    rw [← hr.last] at hc
    have hcode : WireType.ofCode? code = some .bool ∧ code ≠ 0 ∧ code.toNat < 16 := by
      cases b <;> decide
    have e := fieldBegin_header hcode.1 hcode.2.1 hcode.2.2 (hr.last.symm ▸ hstep) hc
    refine ⟨_, e, ?_⟩
    have hval : (code == 1) = b := by
      cases b <;> rfl
    rw [hr.last, if_pos rfl, hval, hr.pending]
    rfl

theorem fieldCarried_bool {id : Int16} (b : Bool) :
    FieldCarried o d .bool id (Write.bool b) Read.bool b :=
  fun _ hi => fieldCarriedFrom_bool b (step_lt hi)

/-! ## structs -/

theorem emits_struct {x : Write Nat} {j : Int16} {s : Bytes}
    (hx : Write.Emits d 0 j x s s.length) :
    Write.Emits (d + 1) i i (Write.struct x) (s ++ [0]) (s ++ [0]).length := by
  intro w hw
  have hdepth : w.enclosing.length ≠ maxStructDepth := by
    have := hw.depth
    omega
  let inner : Writer := { w with enclosing := w.lastField :: w.enclosing, lastField := 0 }
  have e0 : Write.structBegin w = (.ok 0, inner) := by
    rw [Write.structBegin, Step.state_bind, if_neg hdepth]
    rfl
  have hinner : inner.At d 0 := ⟨hw.sink, rfl, hw.pending, by
    have := hw.depth
    show w.enclosing.length + 1 + d ≤ maxStructDepth
    omega⟩
  obtain ⟨z, e1, hg⟩ := hx inner hinner
  obtain ⟨z', e2, hg'⟩ := Write.emits_call (d := d) (i := j) [0]
    { inner with sink := z, lastField := j } ⟨hg.isOpen, rfl, hinner.pending, hinner.depth⟩
  refine ⟨z', ?_, hg.trans hg'⟩
  rw [Write.struct, Step.bind_ok e0, Step.bind_ok e1, Write.fieldStop, Write.byte,
    Step.bind_ok e2, List.length_append, Nat.zero_add, ← hw.last]
  rfl

/-- what is read between the ends of a struct leaves the last field of the struct around it -/
theorem takes_frame {α : Type} {x : Read α} {j : Int16} {s : Bytes} {a : α}
    (hx : Read.Takes o d 0 j x s a) :
    Read.Takes o (d + 1) i i
      (do Read.structBegin; let a ← x; Read.structEnd; pure a : Read α) s a := by
  intro r before rest hr hc
  have hdepth : r.enclosing.length ≠ maxStructDepth := by
    have := hr.depth
    omega
  let inner : Reader := { r with enclosing := r.lastField :: r.enclosing, lastField := 0 }
  have e0 : Read.structBegin r = (.ok (), inner) := by
    rw [Read.structBegin, Step.state_bind, if_neg hdepth]
    rfl
  have hinner : inner.At o d 0 := ⟨⟨hr.limits.1, hr.limits.2⟩, rfl, hr.pending, by
    have := hr.depth
    show r.enclosing.length + 1 + d ≤ maxStructDepth
    omega⟩
  rw [Step.bind_ok e0, Step.bind_ok (hx inner before rest hinner hc), ← hr.last]
  rfl

theorem takes_struct {β : Type} {f : β → WireType → Int16 → Read β} {j : Int16} {s : Bytes}
    {a b : β}
    (h : ∀ fuel, s.length < fuel → Read.Takes o d 0 j (Read.foldFields f fuel a) s b) :
    Read.Takes o (d + 1) i i (Read.foldStruct f a) s b := by
  have hx : Read.Takes o d 0 j (do
      let left ← Step.look fun r : Reader => r.cursor.remaining
      Read.foldFields f (left + 1) a) s b := by
    intro r before rest hr hc
    have hfuel : s.length < r.cursor.remaining + 1 := by
      show s.length < r.cursor.rest.length + 1
      rw [hc, List.length_append]
      omega
    exact h _ hfuel r before rest hr hc
  exact takes_frame hx

end Columnar.Compact
