import Columnar.Plain.Layout
import Columnar.Proofs.Plain.Decoder

/-!
# What plain pages carry

Values are given by their own bytes, as a column writer stages them, and read back from the page
that they are laid out in.

* `Value.ofPlain t bs`             the value that is read for `bs`;
* `Plain.Staged t length bs`       `bs` are the bytes of one value of a column of type `t`;
* `Decoder.times_layout`           what is read from a page;
* `Datum.ofPlain_plain`            a staged datum is found again.
-/

namespace Columnar

/-- the value that is read for the bytes of one value; a boolean is given as a byte that is zero
for `false` -/
def Value.ofPlain (t : PhysicalType) (bs : Bytes) : Value :=
  match t with
  | .boolean => .boolean (bs ≠ [0])
  | .byteArray => .byteArray bs
  | t => .ofFixed t bs

namespace Plain

/-- the bytes of one value of a column, whose length the column may fix -/
def Staged (t : PhysicalType) (length : Option Nat) (bs : Bytes) : Prop :=
  match t with
  | .boolean => True
  | .byteArray => ∃ payload, bs = byteArray payload ∧ payload.length < 2 ^ 32
  | .fixedLenByteArray => length = some bs.length
  | t => t.fixedWidth? = some bs.length

/-- the fixed length is that of byte arrays of fixed length only -/
theorem staged_congr {t : PhysicalType} {length length' : Option Nat} {bs : Bytes}
    (h : t = .fixedLenByteArray → length' = length) (hs : Staged t length bs) :
    Staged t length' bs := by
  cases t with
  | fixedLenByteArray => exact (h rfl).trans hs
  | _ => exact hs

/-! ## booleans -/

theorem boolByte_lt (bs : List Bool) : boolByte bs < 2 ^ bs.length := by
  induction bs with
  | nil => exact Nat.one_pos
  | cons b bs ih =>
    have hb : b.toNat < 2 := Bool.toNat_lt b
    rw [boolByte, List.length_cons, Nat.pow_succ]
    omega

theorem testBit_boolByte (bs : List Bool) (i : Nat) :
    (boolByte bs).testBit i = bs[i]?.getD false := by
  induction bs generalizing i with
  | nil => simp [boolByte]
  | cons b bs ih =>
    have hb : b.toNat < 2 := Bool.toNat_lt b
    cases i with
    | zero =>
      rw [boolByte, Nat.testBit_zero, Nat.add_mul_mod_self_left, Nat.mod_eq_of_lt hb]
      cases b <;> rfl
    | succ i =>
      rw [boolByte, Nat.testBit_succ, Nat.add_mul_div_left _ _ (by decide), Nat.div_eq_of_lt hb,
        Nat.zero_add, ih, List.getElem?_cons_succ]

/-- the byte of no more than eight booleans -/
theorem toNat_boolByte {bs : List Bool} (h : bs.length ≤ 8) :
    (UInt8.ofNat (boolByte bs)).toNat = boolByte bs := by
  have hlt := Nat.lt_of_lt_of_le (boolByte_lt bs) (Nat.pow_le_pow_right (by decide) h)
  rw [UInt8.toNat_ofNat']
  exact Nat.mod_eq_of_lt hlt

theorem boolByte_append (as bs : List Bool) :
    boolByte (as ++ bs) = boolByte as + 2 ^ as.length * boolByte bs := by
  induction as with
  | nil => simp [boolByte]
  | cons a as ih =>
    rw [List.cons_append, boolByte, boolByte, ih, List.length_cons, Nat.pow_succ', Nat.mul_add,
      Nat.mul_assoc, Nat.add_assoc]

/-- a boolean at its place in a byte -/
theorem toNat_bit : ∀ b : Bool, ∀ n < 8, (b.toUInt8 <<< UInt8.ofNat n).toNat = b.toNat <<< n := by
  decide

/-- one more boolean behind fewer than eight -/
theorem boolByte_concat {bs : List Bool} (h : bs.length < 8) (b : Bool) :
    UInt8.ofNat (boolByte bs) ||| (b.toUInt8 <<< UInt8.ofNat bs.length) =
      UInt8.ofNat (boolByte (bs ++ [b])) := by
  have hlen : (bs ++ [b]).length ≤ 8 := by
    rw [List.length_append]
    exact h
  refine UInt8.toNat_inj.mp ?_
  rw [UInt8.toNat_or, toNat_bit b _ h, toNat_boolByte (Nat.le_of_lt h), toNat_boolByte hlen,
    Nat.or_comm, ← Nat.shiftLeft_add_eq_or_of_lt (boolByte_lt bs), Nat.shiftLeft_eq,
    boolByte_append, Nat.mul_comm, Nat.add_comm]
  rfl

theorem packBools_nil : packBools [] = [] := by rw [packBools, if_pos rfl]

/-- booleans that share one byte -/
theorem packBools_byte {bs : List Bool} (hpos : bs ≠ []) (hlen : bs.length ≤ 8) :
    packBools bs = [UInt8.ofNat (boolByte bs)] := by
  rw [packBools, if_neg hpos, List.take_of_length_le hlen, List.drop_eq_nil_of_le hlen,
    packBools_nil]

/-- booleans behind whole bytes of them -/
theorem packBools_append {as : List Bool} (h : 8 ∣ as.length) (bs : List Bool) :
    packBools (as ++ bs) = packBools as ++ packBools bs := by
  obtain ⟨n, hn⟩ := h
  induction n generalizing as with
  | zero => 
    obtain rfl : as = [] := List.length_eq_zero_iff.mp hn
    rw [packBools_nil]
    rfl
  | succ n ih =>
    have hne : as ≠ [] := by
      rintro rfl
      simp at hn
    have hle : 8 ≤ as.length := by omega
    have hdrop : (as.drop 8).length = 8 * n := by
      rw [List.length_drop]
      omega
    rw [packBools, if_neg (List.append_ne_nil_of_left_ne_nil hne bs),
      List.take_append_of_le_length hle, List.drop_append_of_le_length hle, ih hdrop]
    conv =>
      rhs
      rw [packBools, if_neg hne]
    rfl

namespace Decoder

variable {before rest : Bytes} {t : PhysicalType} {width : Nat}

theorem bool_first (bits b : UInt8) :
    bool ⟨⟨before, b :: rest⟩, t, width, bits, 0⟩ =
      (.ok (b.toNat.testBit 0), ⟨⟨b :: before, rest⟩, t, width, b, 1⟩) := rfl

theorem bool_next {c : Cursor} {bits : UInt8} {k : Nat} (h : 0 < k) :
    bool ⟨c, t, width, bits, k⟩ =
      (.ok (bits.toNat.testBit k), ⟨c, t, width, bits, (k + 1) % 8⟩) := by
  obtain ⟨k, rfl⟩ : ∃ m, k = m + 1 := ⟨k - 1, by omega⟩
  rfl

/-- the booleans from bit `k` of a byte on -/
theorem times_bool_next {c : Cursor} {bits : UInt8} (bs : List Bool) : ∀ {k : Nat}, 0 < k →
    k + bs.length ≤ 8 → (∀ i < bs.length, bits.toNat.testBit (k + i) = bs[i]?.getD false) →
    Step.times bs.length bool ⟨c, t, width, bits, k % 8⟩ =
      (.ok bs, ⟨c, t, width, bits, (k + bs.length) % 8⟩) := by
  induction bs with
  | nil => exact fun _ _ _ => rfl
  | cons b bs ih =>
    intro k hpos hlen h
    rw [List.length_cons] at hlen
    have hfirst := h 0 (Nat.succ_pos _)
    have hrest : ∀ i < bs.length, bits.toNat.testBit (k + 1 + i) = bs[i]?.getD false := by
      intro i hi
      have hi := h (i + 1) (Nat.succ_lt_succ hi)
      rwa [List.getElem?_cons_succ, Nat.add_comm i 1, ← Nat.add_assoc] at hi
    rw [Nat.add_zero] at hfirst
    have hbool : bool ⟨c, t, width, bits, k⟩ = _ := bool_next hpos
    rw [List.length_cons, Step.times_succ, Nat.mod_eq_of_lt (by omega), Step.bind_ok hbool,
      Step.bind_ok (ih (Nat.succ_pos k) (by omega) hrest), hfirst, Nat.succ_add_eq_add_succ]
    rfl

/-- the booleans of one byte -/
theorem times_bool_byte {bs : List Bool} (hpos : bs ≠ []) (hlen : bs.length ≤ 8) (bits : UInt8) :
    Step.times bs.length bool
        ⟨⟨before, UInt8.ofNat (boolByte bs) :: rest⟩, t, width, bits, 0⟩ =
      (.ok bs, ⟨⟨UInt8.ofNat (boolByte bs) :: before, rest⟩, t, width,
        UInt8.ofNat (boolByte bs), bs.length % 8⟩) := by
  match bs with
  | b :: bs =>
    have hbit : ∀ i, (UInt8.ofNat (boolByte (b :: bs))).toNat.testBit i =
        (b :: bs)[i]?.getD false := fun i => by
      rw [toNat_boolByte hlen, testBit_boolByte]
    rw [List.length_cons] at hlen
    have hrest : Step.times bs.length bool ⟨⟨UInt8.ofNat (boolByte (b :: bs)) :: before, rest⟩, t,
        width, UInt8.ofNat (boolByte (b :: bs)), 1⟩ = _ :=
      times_bool_next bs (k := 1) (by decide) (by omega) fun i _ => by
        rw [hbit, Nat.add_comm, List.getElem?_cons_succ]
    rw [List.length_cons, Step.times_succ, Step.bind_ok (bool_first _ _), hbit]
    refine (Step.bind_ok hrest _).trans ?_
    rw [Nat.add_comm bs.length 1]
    rfl

/-- the booleans of a page -/
theorem times_packBools (n : Nat) : ∀ {bs : List Bool}, bs.length ≤ n →
    ∀ (before : Bytes) (bits : UInt8), ∃ e : Decoder,
      Step.times bs.length bool ⟨⟨before, packBools bs ++ rest⟩, t, width, bits, 0⟩ = (.ok bs, e) ∧
        e.cursor = ⟨(packBools bs).reverse ++ before, rest⟩ := by
  induction n with
  | zero =>
    intro bs hn before bits
    obtain rfl : bs = [] := List.length_eq_zero_iff.mp (Nat.le_zero.mp hn)
    rw [packBools, if_pos rfl]
    exact ⟨_, rfl, rfl⟩
  | succ n ih =>
    intro bs hn before bits
    by_cases hnil : bs = []
    · rw [hnil, packBools, if_pos rfl]
      exact ⟨_, rfl, rfl⟩
    · have hpos : 0 < bs.length := List.length_pos_iff.mpr hnil
      have htake : bs.take 8 ≠ [] := by simp [hnil]
      have hbyte : Step.times (bs.take 8).length bool ⟨⟨before,
          UInt8.ofNat (boolByte (bs.take 8)) :: (packBools (bs.drop 8) ++ rest)⟩,
          t, width, bits, 0⟩ = _ :=
        times_bool_byte htake (List.length_take_le 8 bs) bits
      have hpack : packBools bs =
          UInt8.ofNat (boolByte (bs.take 8)) :: packBools (bs.drop 8) := by
        rw [packBools, if_neg hnil]
      have hsplit : bs.length = (bs.take 8).length + (bs.drop 8).length := by
        rw [← List.length_append, List.take_append_drop]
      rw [hpack, List.cons_append, hsplit, Step.times_add, Step.bind_ok hbyte]
      by_cases hmore : 8 ≤ bs.length
      · have hwhole : (bs.take 8).length % 8 = 0 := by rw [List.length_take_of_le hmore]
        have hless : (bs.drop 8).length ≤ n := by
          rw [List.length_drop]
          omega
        obtain ⟨e, he, hcursor⟩ := ih hless (UInt8.ofNat (boolByte (bs.take 8)) :: before)
          (UInt8.ofNat (boolByte (bs.take 8)))
        refine ⟨e, ?_, ?_⟩
        · rw [hwhole, Step.bind_ok he, List.take_append_drop]
          rfl
        · rw [hcursor, List.reverse_cons, List.append_assoc]
          rfl
      · have hend : bs.drop 8 = [] := List.drop_eq_nil_of_le (by omega)
        rw [hend, List.take_of_length_le (by omega), packBools, if_pos rfl]
        refine ⟨⟨⟨UInt8.ofNat (boolByte bs) :: before, rest⟩, t, width, UInt8.ofNat (boolByte bs),
          bs.length % 8⟩, ?_, rfl⟩
        show (Except.ok (bs ++ []), _) = _
        rw [List.append_nil]
        rfl

/-! ## values of their own bytes -/

theorem ofCursor_view (bs : Bytes) (bits : UInt8) (offset : Nat) :
    ofCursor (Cursor.view bs.length) ⟨⟨before, bs ++ rest⟩, t, width, bits, offset⟩ =
      (.ok bs, ⟨⟨bs.reverse ++ before, rest⟩, t, width, bits, offset⟩) := by
  rw [ofCursor, Step.on_apply, Cursor.view_append]

theorem byteArray_append {payload : Bytes} (hlen : payload.length < 2 ^ 32) (bits : UInt8)
    (offset : Nat) :
    byteArray ⟨⟨before, Plain.byteArray payload ++ rest⟩, t, width, bits, offset⟩ =
      (.ok (.byteArray (Plain.byteArray payload)),
        ⟨⟨(Plain.byteArray payload).reverse ++ before, rest⟩, t, width, bits, offset⟩) := by
  have hhead : ofCursor (Cursor.view 4) ⟨⟨before, toLE 4 payload.length ++ (payload ++ rest)⟩, t,
      width, bits, offset⟩ = (.ok (toLE 4 payload.length),
        ⟨⟨(toLE 4 payload.length).reverse ++ before, payload ++ rest⟩, t, width, bits, offset⟩) :=
    ofCursor_view (toLE 4 payload.length) bits offset
  have hvalue : fromLE (toLE 4 payload.length) = payload.length := by
    rw [fromLE_toLE]
    exact Nat.mod_eq_of_lt hlen
  rw [byteArray, Step.bind_ok (Step.look_apply _ _), Plain.byteArray, List.append_assoc,
    Step.bind_ok hhead, hvalue]
  refine (Step.bind_ok (Step.within_ok (ofCursor_view payload bits offset)) _).trans ?_
  rw [List.reverse_append, List.append_assoc]
  rfl

/-- the bytes of one value are read as that value -/
theorem value_append {bs : Bytes} (hb : t ≠ .boolean)
    (hwidth : t ≠ .byteArray → bs.length = width)
    (harray : t = .byteArray → ∃ payload, bs = Plain.byteArray payload ∧ payload.length < 2 ^ 32)
    (bits : UInt8) (offset : Nat) :
    value ⟨⟨before, bs ++ rest⟩, t, width, bits, offset⟩ =
      (.ok (.ofPlain t bs), ⟨⟨bs.reverse ++ before, rest⟩, t, width, bits, offset⟩) := by
  by_cases ha : t = .byteArray
  · obtain ⟨payload, rfl, hlen⟩ := harray ha
    subst ha
    exact byteArray_append hlen bits offset
  · rw [value_fixed (e := ⟨⟨before, bs ++ rest⟩, t, width, bits, offset⟩) hb ha]
    rw [← hwidth ha]
    refine (Step.bind_ok (ofCursor_view bs bits offset) _).trans ?_
    cases t <;> first | exact absurd rfl hb | exact absurd rfl ha | rfl

/-- values one behind the other -/
theorem times_flatten {vs : List Bytes} (hb : t ≠ .boolean)
    (hwidth : t ≠ .byteArray → ∀ v ∈ vs, v.length = width)
    (harray : t = .byteArray → ∀ v ∈ vs,
      ∃ payload, v = Plain.byteArray payload ∧ payload.length < 2 ^ 32)
    (bits : UInt8) (offset : Nat) : ∀ before : Bytes,
    Step.times vs.length value ⟨⟨before, vs.flatten ++ rest⟩, t, width, bits, offset⟩ =
      (.ok (vs.map (.ofPlain t)),
        ⟨⟨vs.flatten.reverse ++ before, rest⟩, t, width, bits, offset⟩) := by
  induction vs with
  | nil => exact fun _ => rfl
  | cons v vs ih =>
    intro before
    have hv := @value_append before (vs.flatten ++ rest) t width v hb
      (fun h => hwidth h v List.mem_cons_self) (fun h => harray h v List.mem_cons_self) bits offset
    have hvs := ih (fun h u hu => hwidth h u (List.mem_cons_of_mem v hu))
      (fun h u hu => harray h u (List.mem_cons_of_mem v hu)) (v.reverse ++ before)
    rw [List.length_cons, Step.times_succ, List.flatten_cons, List.append_assoc, Step.bind_ok hv,
      Step.bind_ok hvs, List.reverse_append, List.append_assoc]
    rfl

/-! ## pages -/

/-- a decoder at the front of a page, and the width that it gives to values -/
theorem ofBytes_eq_ok {bs : Bytes} {length : Option Nat} {d : Decoder}
    (h : ofBytes bs t length = .ok d) : d = ⟨.ofBytes bs, t, d.width, 0, 0⟩ ∧
      ∀ v, t ≠ .boolean → t ≠ .byteArray → Staged t length v → v.length = d.width := by
  unfold ofBytes at h
  split at h
  · cases h
    refine ⟨rfl, fun v _ _ hv => ?_⟩
    cases hv
    rfl
  · cases h
  · cases h
  · rename_i hsome hnone
    cases h
    refine ⟨rfl, fun v hb ha hv => ?_⟩
    cases t with
    | boolean => exact absurd rfl hb
    | byteArray => exact absurd rfl ha
    | fixedLenByteArray =>
      cases length with
      | none => exact (hnone rfl rfl).elim
      | some w => exact (hsome w rfl rfl).elim
    | _ => exact (Option.some.inj hv).symm

/-- a decoder at the front of a page reads the values that are laid out in it -/
theorem times_layout {length : Option Nat} {vs : List Bytes} {d : Decoder}
    (hstaged : ∀ v ∈ vs, Staged t length v) (h : ofBytes (layout t vs) t length = .ok d) :
    ∃ e, Step.times vs.length value d = (.ok (vs.map (.ofPlain t)), e) ∧
      e.consumed = (layout t vs).length := by
  obtain ⟨hd, hwidth⟩ := ofBytes_eq_ok h
  rw [hd]
  by_cases hb : t = .boolean
  · subst hb
    have hlen : (vs.map fun v => decide (v ≠ [0])).length = vs.length := List.length_map _
    obtain ⟨e, he, hcursor⟩ :=
      @times_packBools [] .boolean d.width vs.length _ (Nat.le_of_eq hlen) [] 0
    rw [hlen, List.append_nil] at he
    refine ⟨e, ?_, ?_⟩
    · rw [times_value (x := Value.boolean <$> bool) fun e hf => by rw [value_eq, hf.type],
        Step.times_map]
      refine (Step.map_ok he).trans ?_
      rw [List.map_map]
      rfl
    · show e.cursor.before.length = _
      rw [hcursor, List.append_nil, List.length_reverse]
      rfl
  · have hlayout : layout t vs = vs.flatten := if_neg hb
    have htimes := @times_flatten [] t d.width vs hb (fun ha v hv => hwidth v hb ha (hstaged v hv))
      (fun ha v hv => by subst ha; exact hstaged v hv) 0 0 []
    rw [List.append_nil] at htimes
    rw [hlayout]
    refine ⟨_, htimes, ?_⟩
    show (vs.flatten.reverse ++ []).length = _
    rw [List.append_nil, List.length_reverse]

end Decoder

end Plain

/-! ## data -/

namespace Datum

def type : Datum → PhysicalType
  | boolean _ => .boolean
  | int32 _ => .int32
  | int64 _ => .int64
  | float _ => .float
  | double _ => .double
  | byteArray _ => .byteArray
  | fixedLenByteArray _ => .fixedLenByteArray

theorem number_toLE {width n : Nat} (h : n < 256 ^ width) :
    Value.number width (toLE width n) = .ok n := by
  rw [Value.number, if_pos (toLE_length width n), fromLE_toLE, Nat.mod_eq_of_lt h]

/-- a datum that is staged is the datum of the value that is read -/
theorem ofPlain_plain (d : Datum) : (Value.ofPlain d.type d.plain).datum = .ok d := by
  cases d with
  | boolean b => cases b <;> rfl
  | int32 n =>
    show Datum.int32 <$> (Value.number 4 (toLE 4 n.toUInt32.toNat) >>= fun m =>
      pure (Int32.ofNat m)) = _
    rw [number_toLE n.toUInt32.toNat_lt]
    exact congrArg (fun m => Except.ok (Datum.int32 m)) (Int32.ofNat_bitVecToNat n.toBitVec)
  | int64 n =>
    show Datum.int64 <$> (Value.number 8 (toLE 8 n.toUInt64.toNat) >>= fun m =>
      pure (Int64.ofNat m)) = _
    rw [number_toLE n.toUInt64.toNat_lt]
    exact congrArg (fun m => Except.ok (Datum.int64 m)) (Int64.ofNat_bitVecToNat n.toBitVec)
  | float bits =>
    show Datum.float <$> (Value.number 4 (toLE 4 bits.toNat) >>= fun m =>
      pure (UInt32.ofNat m)) = _
    rw [number_toLE bits.toNat_lt]
    exact congrArg (fun m => Except.ok (Datum.float m)) UInt32.ofNat_toNat
  | double bits =>
    show Datum.double <$> (Value.number 8 (toLE 8 bits.toNat) >>= fun m =>
      pure (UInt64.ofNat m)) = _
    rw [number_toLE bits.toNat_lt]
    exact congrArg (fun m => Except.ok (Datum.double m)) UInt64.ofNat_toNat
  | byteArray bs =>
    show Datum.byteArray <$> Value.payload (Plain.byteArray bs) = _
    rw [Value.payload, if_pos, Plain.byteArray, List.drop_left' (toLE_length 4 _)]
    · rfl
    · rw [Plain.byteArray, List.length_append, toLE_length]
      exact Nat.le_add_right 4 _
  | fixedLenByteArray bs => rfl

end Datum

end Columnar
