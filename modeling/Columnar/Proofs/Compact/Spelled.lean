import Columnar.Proofs.Compact.Struct

/-!
# Well-formed bytes

What the bytes of a value look like, said without a reader or a writer.  A number may be spelled
with more bytes than it needs, a field may give its number in full where a step would do, and a
short list may have its size behind its header; a writer does none of this, a reader takes it.

* `Varint.Spells bs n`          `bs` spells the number `n`;
* `Heads o code n bs`           the header of a list of `n` elements with a type nibble;
* `Item`, `Chained last items`  fields, each with a header that follows the one before it;
* `Spelled o d k t bs`          `bs` is a value of type `t`, of `k` levels at most, in which `d`
                               structs stand inside each other at most.

`takes_items` is the loop over the fields of a struct, and `takes_skip` says that a value is
skipped to its end.
-/

namespace Columnar

/-! ## numbers -/

namespace Varint

/-- bytes that all but the last have their top bit set -/
inductive Groups : Bytes → Prop
  | last {b : UInt8} (h : b.toNat < 128) : Groups [b]
  | more {b : UInt8} {bs : Bytes} (h : ¬ b.toNat < 128) (hbs : Groups bs) : Groups (b :: bs)

/-- `bs` spells `n`; the highest groups may be zero -/
structure Spells (bs : Bytes) (n : Nat) : Prop where
  groups : Groups bs
  length : bs.length ≤ maxLen
  value : value bs = n
  lt : n < 2 ^ 64

variable {bs : Bytes} {n : Nat}

theorem Groups.takes (h : Groups bs) {budget : Nat} (hb : bs.length ≤ budget) :
    Cursor.Takes (readGroups budget) bs bs := by
  induction h generalizing budget with
  | last hlt =>
    obtain ⟨budget, rfl⟩ := Nat.exists_eq_succ_of_ne_zero (Nat.ne_of_gt hb)
    refine Cursor.takes_bind (Cursor.takes_byte _) ?_
    rw [if_pos hlt]
    exact Cursor.takes_pure _
  | @more b bs hge _ ih =>
    obtain ⟨budget, rfl⟩ := Nat.exists_eq_succ_of_ne_zero (Nat.ne_of_gt (Nat.zero_lt_of_lt hb))
    refine Cursor.takes_bind (Cursor.takes_byte _) ?_
    rw [if_neg hge]
    have h := Cursor.takes_bind (f := fun bs => pure (b :: bs))
      (ih (Nat.le_of_succ_le_succ hb)) (Cursor.takes_pure _)
    rwa [List.append_nil] at h

theorem Spells.takes (h : Spells bs n) : Cursor.Takes read bs n := by
  have hn : Varint.value bs % 2 ^ 64 = n := by
    rw [h.value, Nat.mod_eq_of_lt h.lt]
  have ht := Cursor.takes_bind (f := fun bs => pure (Varint.value bs % 2 ^ 64))
    (h.groups.takes h.length) (Cursor.takes_pure _)
  rwa [List.append_nil, hn] at ht

/-- a number below 128 is spelled by a byte -/
theorem spells_byte {b : UInt8} (h : b.toNat < 128) : Spells [b] b.toNat where
  groups := .last h
  length := Nat.le_add_left 1 9
  value := by rw [Varint.value, Varint.value, Nat.mod_eq_of_lt h, Nat.mul_zero, Nat.add_zero]
  lt := Nat.lt_trans h (by decide)

end Varint

namespace Compact

variable {α β : Type} {o : Options} {d k : Nat} {i last : Int16} {n : Nat} {bs s : Bytes}
  {t : WireType}

/-- a type stands in a nibble -/
theorem nibble_lt {code : UInt8} (h : WireType.ofCode? code = some t) : code.toNat < 16 := by
  unfold WireType.ofCode? at h
  split at h
  all_goals first | omega | cases h

theorem nibble_ne_zero {code : UInt8} (h : WireType.ofCode? code = some t) (ht : t ≠ .stop) :
    code ≠ 0 := by
  rintro rfl
  cases h
  exact ht rfl

/-! ## lists -/

/-- the header of a list: its size in the header, or behind it -/
inductive Heads (o : Options) (code : UInt8) (n : Nat) : Bytes → Prop
  | short (h : n < 15) : Heads o code n [UInt8.ofNat (n * 16) ||| code]
  | long {bs : Bytes} (h : Varint.Spells bs n) (hlimit : n ≤ o.containerLimit)
    (hmemory : n ≤ Read.maxListRoom) : Heads o code n ((0xF0 ||| code) :: bs)

theorem takes_spelled (h : Varint.Spells bs n) : Read.Takes o d i i Read.varint bs n :=
  Read.takes_ofCursor h.takes

theorem takes_containerSize (hlimit : n ≤ o.containerLimit) (hmemory : n ≤ Read.maxListRoom) :
    Read.Takes o d i i (Read.containerSize n) [] n := by
  apply Read.takes_pure_bind (Read.takes_look fun r hr => hr.containerLimit)
  dsimp only
  rw [toInt_ofNat hmemory, if_neg (by omega), if_neg (by omega)]
  exact Read.takes_pure n

theorem takes_nibble {code : UInt8} (h : WireType.ofCode? code = some t) :
    Read.Takes o d i i (Read.wireType code) [] t := by
  rw [Read.wireType, h]
  exact Read.takes_pure t

theorem Heads.takes {code : UInt8} (h : Heads o code n bs)
    (hcode : WireType.ofCode? code = some t) :
    Read.Takes o d i i Read.listBegin bs (t, n) := by
  have hlt := nibble_lt hcode
  cases h with
  | short h =>
    obtain ⟨h1, h2⟩ := nibbles (Nat.lt_succ_of_lt h) hlt
    apply Read.takes_bind_pure (Read.takes_byte _)
    rw [h1]
    apply Read.takes_bind_pure (takes_nibble hcode)
    dsimp only
    rw [h2, if_pos h]
    exact Read.takes_pure (t, n)
  | long h hlimit hmemory =>
    obtain ⟨h1, h2⟩ := nibbles (show 15 < 16 by decide) hlt
    change (0xF0 ||| code) &&& 0x0F = code at h1
    change ((0xF0 ||| code) >>> 4).toNat = 15 at h2
    refine Read.takes_bind (Read.takes_byte _) ?_
    rw [h1]
    apply Read.takes_pure_bind (takes_nibble hcode)
    dsimp only
    rw [h2, if_neg (by decide)]
    apply Read.takes_bind_pure (takes_spelled h)
    exact Read.takes_bind_pure (takes_containerSize hlimit hmemory) (Read.takes_pure (t, n))

theorem takes_replicate {x : Read Unit} {bss : List Bytes}
    (h : ∀ bs ∈ bss, Read.Takes o d i i x bs ()) :
    Read.Takes o d i i (Step.replicate bss.length x) bss.flatten () := by
  induction bss with
  | nil => exact Read.takes_pure ()
  | cons bs bss ih =>
    rw [List.length_cons, Step.replicate_succ, List.flatten_cons]
    exact Read.takes_bind (h bs List.mem_cons_self) (ih fun b hb => h b (List.mem_cons_of_mem _ hb))

/-! ## fields -/

/-- the header of field `id` behind field `last`: a step, or the number in full -/
inductive FieldHeads (code : UInt8) (last id : Int16) : Bytes → Prop
  | short {delta : Nat} (hpos : 0 < delta) (hlt : delta < 16)
    (hid : last.toInt + delta = id.toInt) :
    FieldHeads code last id [UInt8.ofNat (delta * 16) ||| code]
  | long {bs : Bytes} (h : Varint.Spells bs (Zigzag.fold id.toInt)) :
    FieldHeads code last id (code :: bs)

/-- a field of a struct -/
structure Item where
  /-- the type nibble; a boolean has two -/
  code : UInt8
  type : WireType
  id : Int16
  head : Bytes
  payload : Bytes

/-- the header of a field is one behind the field `last` -/
structure Item.Follows (it : Item) (last : Int16) : Prop where
  code : WireType.ofCode? it.code = some it.type
  type : it.type ≠ .stop
  head : FieldHeads it.code last it.id it.head

/-- fields in a row, the first of them behind the field `last` -/
def Chained : Int16 → List Item → Prop
  | _, [] => True
  | last, it :: items => it.Follows last ∧ Chained it.id items

/-- the fields of a struct and the byte that ends it -/
def body (items : List Item) (stop : UInt8) : Bytes :=
  items.flatMap (fun it => it.head ++ it.payload) ++ [stop]

theorem body_cons (it : Item) (items : List Item) (stop : UInt8) :
    body (it :: items) stop = it.head ++ (it.payload ++ body items stop) := by
  rw [body, List.flatMap_cons, List.append_assoc, List.append_assoc]
  rfl

/-- the value that a header holds back -/
def held (t : WireType) (code : UInt8) : Option Bool := if t = .bool then some (code == 1) else none

theorem i16_spelled {r : Reader} {before rest : Bytes} {id : Int16}
    (h : Varint.Spells bs (Zigzag.fold id.toInt)) (hc : r.cursor = ⟨before, bs ++ rest⟩) :
    Read.i16 r = (.ok id, { r with cursor := ⟨bs.reverse ++ before, rest⟩ }) := by
  have hlt : Zigzag.fold id.toInt < 2 ^ 16 := Zigzag.fold_lt (k := 15) id.le_toInt id.toInt_lt
  rw [Read.i16, Step.bind_apply, Read.folded, Read.varint,
    Step.bind_ok (Read.ofCursor_ok h.takes hc), if_pos hlt, Zigzag.unfold_fold, Step.pure_apply]
  show (Except.ok (Int16.ofInt id.toInt), _) = _
  rw [Int16.ofInt_toInt]

/-- the number in a header, behind the nibble of its type -/
theorem FieldHeads.number {code : UInt8} {id : Int16} (h : FieldHeads code last id bs)
    (hlt : code.toNat < 16) : ∃ b s, bs = b :: s ∧ b &&& 0x0F = code ∧
      ∀ (r : Reader) (before rest : Bytes), r.lastField = last → r.cursor = ⟨before, s ++ rest⟩ →
        Read.fieldNumber (b >>> 4).toNat r =
          (.ok id, { r with cursor := ⟨s.reverse ++ before, rest⟩ }) := by
  cases h with
  | @short delta hpos hdelta hid =>
    obtain ⟨h1, h2⟩ := nibbles hdelta hlt
    refine ⟨_, [], rfl, h1, ?_⟩
    rintro r before rest rfl hc
    rw [h2, Read.fieldNumber, Step.bind_ok (Step.look_apply _ _), if_neg (Nat.ne_of_gt hpos),
      nextField_eq hid]
    obtain ⟨_, _, _, _, _, _⟩ := r
    cases hc
    rfl
  | long h =>
    obtain ⟨h1, h2⟩ := nibbles (show 0 < 16 by decide) hlt
    rw [show UInt8.ofNat (0 * 16) ||| code = code from UInt8.zero_or] at h1 h2
    refine ⟨code, _, rfl, h1, fun r before rest _ hc => ?_⟩
    rw [h2, Read.fieldNumber, Step.bind_ok (Step.look_apply _ _), if_pos rfl]
    exact i16_spelled h hc

theorem Item.Follows.fieldBegin {it : Item} (h : it.Follows last) {r : Reader}
    {before rest : Bytes} (hr : r.At o d last) (hc : r.cursor = ⟨before, it.head ++ rest⟩) :
    Read.fieldBegin r = (.ok (some (it.type, it.id)), { r with
      cursor := ⟨it.head.reverse ++ before, rest⟩
      lastField := it.id
      pendingBool := held it.type it.code }) := by
  obtain ⟨b, s, hb, hnib, hnum⟩ := h.head.number (nibble_lt h.code)
  rw [hb] at hc ⊢
  rw [Read.fieldBegin, Read.byte, Step.bind_ok (Read.ofCursor_ok (Cursor.takes_byte b) hc)]
  rw [hnib, if_neg (nibble_ne_zero h.code h.type), Read.wireType, h.code,
    Step.bind_ok (Step.pure_apply _ _), Read.holdBack, Step.bind_ok (Step.update_apply _ _),
    hr.pending]
  have e := hnum { r with
    cursor := ⟨b :: before, s ++ rest⟩
    pendingBool := held it.type it.code } _ rest hr.last rfl
  refine (Step.bind_ok e _).trans ?_
  rw [List.reverse_cons, List.append_assoc]
  rfl

/-- `x` reads `s` as the payload of a field of type `t` and answers `a`; its header may have held
back a boolean -/
def TakesPayload (o : Options) (d : Nat) (t : WireType) (code : UInt8) (x : Read α) (s : Bytes)
    (a : α) : Prop :=
  ∀ (r : Reader) (i : Int16) (before rest : Bytes), r.At o d i → r.cursor = ⟨before, s ++ rest⟩ →
    x { r with pendingBool := held t code } =
      (.ok a, { r with cursor := ⟨s.reverse ++ before, rest⟩ })

/-- a payload of any type but boolean stands behind its header as anywhere -/
theorem takesPayload_of_takes {x : Read α} {a : α} {code : UInt8} (ht : t ≠ .bool)
    (h : ∀ i, Read.Takes o d i i x s a) : TakesPayload o d t code x s a := by
  intro r i before rest hr hc
  rw [held, if_neg ht, ← hr.pending, h i r before rest hr hc, ← hr.last]

/-- a boolean that was held back takes no bytes -/
theorem takesPayload_bool {code : UInt8} :
    TakesPayload o d .bool code Read.bool [] (code == 1) := by
  intro r i before rest hr hc
  obtain ⟨_, _, _, _, _, _⟩ := r
  cases hc
  cases hr.pending
  rfl

theorem TakesPayload.bind {x : Read α} {f : α → Read β} {a : α} {b : β} {code : UInt8}
    (hx : TakesPayload o d t code x s a) (hf : ∀ i, Read.Takes o d i i (f a) [] b) :
    TakesPayload o d t code (x >>= f) s b := by
  intro r i before rest hr hc
  rw [Step.bind_ok (hx r i before rest hr hc),
    hf i { r with cursor := ⟨s.reverse ++ before, rest⟩ } _ rest
      ⟨⟨hr.limits.1, hr.limits.2⟩, hr.last, hr.pending, hr.depth⟩ rfl, ← hr.last]
  rfl

/-- a byte without a type nibble ends a struct -/
theorem takes_stopByte {stop : UInt8} (h : stop &&& 0x0F = 0) :
    Read.Takes o d i i Read.fieldBegin [stop] none := by
  refine Read.takes_bind_pure (Read.takes_byte stop) ?_
  dsimp only
  rw [if_pos h]
  exact Read.takes_pure none

/-- the fields of a struct are handed on one by one; `R done b` relates those that were handed on
to what was made of them -/
theorem takes_items {f : β → WireType → Int16 → Read β} {R : List Item → β → Prop} {stop : UInt8}
    (hstop : stop &&& 0x0F = 0) (items : List Item) :
    ∀ (done : List Item) (last : Int16) (b : β),
      (∀ it ∈ items, ∀ done b, R done b → ∃ b', R (done ++ [it]) b' ∧
        TakesPayload o d it.type it.code (f b it.type it.id) it.payload b') →
      Chained last items → R done b → ∃ b' j, R (done ++ items) b' ∧
        ∀ fuel, (body items stop).length < fuel →
          Read.Takes o d last j (Read.foldFields f fuel b) (body items stop) b' := by
  induction items with
  | nil =>
    intro done last b _ _ hR
    refine ⟨b, last, by rwa [List.append_nil], fun fuel hfuel => ?_⟩
    obtain ⟨fuel, rfl⟩ := Nat.exists_eq_succ_of_ne_zero (Nat.ne_of_gt (Nat.zero_lt_of_lt hfuel))
    exact Read.takes_bind_pure (takes_stopByte hstop) (Read.takes_pure b)
  | cons it items ih =>
    intro done last b hstep hchain hR
    obtain ⟨hfollows, hchain'⟩ := hchain
    obtain ⟨b₁, hR₁, hpayload⟩ := hstep it List.mem_cons_self done b hR
    obtain ⟨b', j, hR', htakes⟩ := ih (done ++ [it]) it.id b₁
      (fun it' h => hstep it' (List.mem_cons_of_mem it h)) hchain' hR₁
    refine ⟨b', j, by rwa [List.append_assoc] at hR', fun fuel hfuel => ?_⟩
    obtain ⟨fuel, rfl⟩ := Nat.exists_eq_succ_of_ne_zero (Nat.ne_of_gt (Nat.zero_lt_of_lt hfuel))
    rw [body_cons, List.length_append, List.length_append] at hfuel
    rw [body_cons]
    intro r before rest hr hc
    rw [List.append_assoc, List.append_assoc] at hc
    have hlen : it.head ≠ [] := by
      obtain ⟨_, _, e, _⟩ := hfollows.head.number (nibble_lt hfollows.code)
      rw [e]
      exact List.cons_ne_nil _ _
    have hpos := List.length_pos_iff.mpr hlen
    rw [Read.foldFields, Step.bind_ok (hfollows.fieldBegin hr hc)]
    dsimp only
    have hat : ∀ c : Cursor, ({ r with cursor := c, lastField := it.id } : Reader).At o d it.id :=
      fun _ => ⟨⟨hr.limits.1, hr.limits.2⟩, rfl, hr.pending, hr.depth⟩
    rw [Step.bind_ok (hpayload { r with
      cursor := ⟨it.head.reverse ++ before, it.payload ++ (body items stop ++ rest)⟩
      lastField := it.id } it.id _ _ (hat _) rfl)]
    rw [htakes fuel (by omega) _ _ rest (hat _) rfl]
    simp only [List.reverse_append, List.append_assoc]

/-! ## values -/

/-- `bs` is a value of type `t`, of `k` levels at most, with `d` structs inside each other at
most -/
inductive Spelled (o : Options) : Nat → Nat → WireType → Bytes → Prop
  | bool {d k : Nat} (b : UInt8) : Spelled o d (k + 1) .bool [b]
  | i8 {d k : Nat} (b : UInt8) : Spelled o d (k + 1) .i8 [b]
  | i16 {d k n : Nat} {bs : Bytes} (h : Varint.Spells bs n) (hn : n < 2 ^ 16) :
    Spelled o d (k + 1) .i16 bs
  | i32 {d k n : Nat} {bs : Bytes} (h : Varint.Spells bs n) (hn : n < 2 ^ 32) :
    Spelled o d (k + 1) .i32 bs
  | i64 {d k n : Nat} {bs : Bytes} (h : Varint.Spells bs n) : Spelled o d (k + 1) .i64 bs
  | double {d k : Nat} {bs : Bytes} (h : bs.length = 8) : Spelled o d (k + 1) .double bs
  | binary {d k : Nat} {head bs : Bytes} (h : Varint.Spells head bs.length)
    (hfits : Fits o bs.length) : Spelled o d (k + 1) .binary (head ++ bs)
  | list {d k : Nat} {t t' : WireType} {code : UInt8} {head : Bytes} {bss : List Bytes}
    (ht : t = .list ∨ t = .set) (hcode : WireType.ofCode? code = some t')
    (hhead : Heads o code bss.length head) (helems : ∀ bs ∈ bss, Spelled o d k t' bs) :
    Spelled o d (k + 1) t (head ++ bss.flatten)
  | emptyMap {d k : Nat} {head : Bytes} (h : Varint.Spells head 0) : Spelled o d (k + 1) .map head
  | map {d k : Nat} {tk tv : WireType} {key value : UInt8} {head : Bytes}
    {pairs : List (Bytes × Bytes)} (hne : pairs ≠ []) (hhead : Varint.Spells head pairs.length)
    (hlimit : pairs.length ≤ o.containerLimit) (hmemory : pairs.length ≤ Read.maxListRoom)
    (hkey : WireType.ofCode? key = some tk) (hvalue : WireType.ofCode? value = some tv)
    (hkeys : ∀ p ∈ pairs, Spelled o d k tk p.1) (hvalues : ∀ p ∈ pairs, Spelled o d k tv p.2) :
    Spelled o d (k + 1) .map
      (head ++ [UInt8.ofNat (key.toNat * 16) ||| value] ++ (pairs.map fun p => p.1 ++ p.2).flatten)
  | struct {d k : Nat} {items : List Item} {stop : UInt8} (hchain : Chained 0 items)
    (hstop : stop &&& 0x0F = 0) (hbools : ∀ it ∈ items, it.type = .bool → it.payload = [] ∧ 0 < k)
    (hfields : ∀ it ∈ items, it.type ≠ .bool → Spelled o d k it.type it.payload) :
    Spelled o (d + 1) (k + 1) .struct (body items stop)

theorem takes_binary {head : Bytes} (h : Varint.Spells head bs.length) (hfits : Fits o bs.length) :
    Read.Takes o d i i Read.binary (head ++ bs) bs := by
  obtain ⟨hl, hm⟩ := hfits
  apply Read.takes_bind (takes_spelled h)
  apply Read.takes_pure_bind (Read.takes_look fun r hr => hr.stringLimit)
  have e : (Int64.ofNat bs.length).toInt.toNat = bs.length := by
    rw [toInt_ofNat hm]
    rfl
  show Read.Takes o d i i (if _ then _ else if _ then _ else Read.view _) bs bs
  rw [e, toInt_ofNat hm, if_neg (by omega), if_neg (by omega)]
  exact Read.takes_view bs

theorem takes_spelledFolded {bits : Nat} (h : Varint.Spells bs n) (hn : n < 2 ^ bits) :
    Read.Takes o d i i (Read.folded bits) bs (Zigzag.unfold n) := by
  apply Read.takes_bind_pure (takes_spelled h)
  rw [if_pos hn]
  exact Read.takes_pure _

/-- a number that needs no more bits is read as what it unfolds to -/
theorem takes_i16 (h : Varint.Spells bs n) (hn : n < 2 ^ 16) :
    Read.Takes o d i i Read.i16 bs (Int16.ofInt (Zigzag.unfold n)) :=
  Read.takes_bind_pure (takes_spelledFolded h hn) (Read.takes_pure _)

theorem takes_i32 (h : Varint.Spells bs n) (hn : n < 2 ^ 32) :
    Read.Takes o d i i Read.i32 bs (Int32.ofInt (Zigzag.unfold n)) :=
  Read.takes_bind_pure (takes_spelledFolded h hn) (Read.takes_pure _)

theorem takes_i64 (h : Varint.Spells bs n) :
    Read.Takes o d i i Read.i64 bs (Int64.ofInt (Zigzag.unfold n)) :=
  Read.takes_bind_pure (takes_spelled h) (Read.takes_pure _)

/-- a boolean that no header held back is a byte -/
theorem takes_bool (b : UInt8) : Read.Takes o d i i Read.bool [b] (b == 1) := by
  intro r before rest hr hc
  have h := Read.takes_bind_pure (f := fun b => pure (b == 1))
    (Read.takes_byte (o := o) (d := d) (i := i) b) (Read.takes_pure (b == 1)) r before rest hr hc
  rw [hr.pending] at h
  rw [Read.bool, Step.state_bind, hr.pending]
  exact h

/-- the type byte of a map gives back its two nibbles -/
theorem nibbles_key {key value : UInt8} (hkey : key.toNat < 16) (hvalue : value.toNat < 16) :
    (UInt8.ofNat (key.toNat * 16) ||| value) >>> 4 = key ∧
      (UInt8.ofNat (key.toNat * 16) ||| value) &&& 0x0F = value := by
  obtain ⟨h1, h2⟩ := nibbles hkey hvalue
  exact ⟨UInt8.toNat_inj.mp h2, h1⟩

theorem takes_mapBegin_empty {head : Bytes} (h : Varint.Spells head 0) :
    Read.Takes o d i i Read.mapBegin head ⟨none, 0⟩ := by
  apply Read.takes_bind_pure (takes_spelled h)
  apply Read.takes_bind_pure (takes_containerSize (Nat.zero_le _) (Nat.zero_le _))
  rw [if_pos rfl]
  exact Read.takes_pure _

theorem takes_mapBegin {head : Bytes} {key value : UInt8} {tk tv : WireType} (hn : n ≠ 0)
    (h : Varint.Spells head n) (hlimit : n ≤ o.containerLimit) (hmemory : n ≤ Read.maxListRoom)
    (hkey : WireType.ofCode? key = some tk) (hvalue : WireType.ofCode? value = some tv) :
    Read.Takes o d i i Read.mapBegin (head ++ [UInt8.ofNat (key.toNat * 16) ||| value])
      ⟨some (tk, tv), n⟩ := by
  obtain ⟨h1, h2⟩ := nibbles_key (nibble_lt hkey) (nibble_lt hvalue)
  apply Read.takes_bind (takes_spelled h)
  apply Read.takes_pure_bind (takes_containerSize hlimit hmemory)
  rw [if_neg hn]
  apply Read.takes_bind_pure (Read.takes_byte _)
  rw [h1, h2]
  apply Read.takes_bind_pure (takes_nibble hkey)
  exact Read.takes_bind_pure (takes_nibble hvalue) (Read.takes_pure _)

/-- a value is skipped to its end -/
theorem takes_skip (h : Spelled o d k t bs) :
    ∀ i, Read.Takes o d i i (Read.skipWithin k t) bs () := by
  induction h with
  | bool b => exact fun i => Read.takes_bind_pure (takes_bool b) (Read.takes_pure ())
  | i8 b =>
    exact fun i => Read.takes_bind_pure
      (Read.takes_bind_pure (Read.takes_byte b) (Read.takes_pure _)) (Read.takes_pure ())
  | i16 h hn => exact fun i => Read.takes_bind_pure (takes_i16 h hn) (Read.takes_pure ())
  | i32 h hn => exact fun i => Read.takes_bind_pure (takes_i32 h hn) (Read.takes_pure ())
  | i64 h => exact fun i => Read.takes_bind_pure (takes_i64 h) (Read.takes_pure ())
  | @double d _ bs h =>
    intro i
    have hview := Read.takes_view (o := o) (d := d) (i := i) bs
    rw [h] at hview
    exact Read.takes_bind_pure (Read.takes_bind_pure hview (Read.takes_pure _)) (Read.takes_pure ())
  | binary h hfits =>
    exact fun i => Read.takes_bind_pure (takes_binary h hfits) (Read.takes_pure ())
  | list ht hcode hhead _ ih =>
    intro i
    rcases ht with rfl | rfl
    · exact Read.takes_bind (hhead.takes hcode) (takes_replicate fun bs hbs => ih bs hbs i)
    · exact Read.takes_bind (hhead.takes hcode) (takes_replicate fun bs hbs => ih bs hbs i)
  | emptyMap h =>
    exact fun i => Read.takes_bind_pure (takes_mapBegin_empty h) (Read.takes_pure ())
  | @map d k tk tv _ _ _ pairs hne hhead hlimit hmemory hkey hvalue _ _ ihk ihv =>
    intro i
    have hn := Nat.ne_of_gt (List.length_pos_iff.mpr hne)
    refine Read.takes_bind (takes_mapBegin hn hhead hlimit hmemory hkey hvalue) ?_
    have hpair : ∀ bs ∈ pairs.map fun p => p.1 ++ p.2, Read.Takes o d i i (do
        Read.skipWithin k tk
        Read.skipWithin k tv) bs () := by
      intro bs hbs
      obtain ⟨p, hp, rfl⟩ := List.mem_map.mp hbs
      exact Read.takes_bind (ihk p hp i) (ihv p hp i)
    have hpairs := takes_replicate hpair
    rwa [List.length_map] at hpairs
  | @struct d k items stop hchain hstop hbools _ ih =>
    intro i
    obtain ⟨⟨⟩, j, -, htakes⟩ := takes_items (f := fun _ t _ => Read.skipWithin k t)
      (R := fun _ _ => True) (d := d) (o := o) hstop items [] 0 () (fun it hit _ _ _ => by
        refine ⟨(), trivial, ?_⟩
        by_cases ht : it.type = .bool
        · obtain ⟨hpayload, hk⟩ := hbools it hit ht
          obtain ⟨k, rfl⟩ := Nat.exists_eq_succ_of_ne_zero (Nat.ne_of_gt hk)
          rw [ht, hpayload]
          exact takesPayload_bool.bind fun i => Read.takes_pure ()
        · exact takesPayload_of_takes ht (ih it hit ht)) hchain trivial
    exact takes_struct htakes

end Compact

end Columnar
