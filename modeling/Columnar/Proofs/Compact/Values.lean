import Columnar.Proofs.Compact.Carried
import Columnar.Record.Format

/-!
# Values of the compact protocol are read back

Each kind of payload with what it takes for it to be carried: nothing for numbers, the limits of
the reader for byte strings and lists.  A list of fewer than fifteen elements has its size in its
header, and there the limit is not asked.

* `Fits o n`          a byte string of `n` bytes may be read;
* `FitsList o n room` a list of `n` elements of `room` bytes each may be read.
-/

namespace Columnar

/-- a byte string of `n` bytes is within the limit, and memory holds it -/
def Fits (o : Options) (n : Nat) : Prop := n ≤ o.stringLimit ∧ n ≤ Compact.Read.maxListRoom

/-- a list of `n` elements of `room` bytes is within the limit where that is asked, and memory
holds it -/
def FitsList (o : Options) (n room : Nat) : Prop :=
  (n < 15 ∨ n ≤ o.containerLimit) ∧ n * room ≤ Compact.Read.maxListRoom

instance (o : Options) (n : Nat) : Decidable (Fits o n) := inferInstanceAs (Decidable (_ ∧ _))

namespace Compact

variable {o : Options} {d : Nat}

/-! ## numbers -/

theorem takes_folded {i : Int16} {n : Int} {bits : Nat} (hn : Zigzag.fold n < 2 ^ bits)
    (hb : bits ≤ 64) :
    Read.Takes o d i i (Read.folded bits) (Varint.encode (Zigzag.fold n)) n := by
  have h64 : Zigzag.fold n < 2 ^ 64 :=
    Nat.lt_of_lt_of_le hn (Nat.pow_le_pow_right (by decide) hb)
  apply Read.takes_bind_pure (Read.takes_varint h64)
  rw [if_pos hn, Zigzag.unfold_fold]
  exact Read.takes_pure n

/-- a number of 16 bits is read wherever it stands, also behind a header that held back a
boolean -/
theorem i16_ok {r : Reader} {before rest : Bytes} {n : Int16}
    (hc : r.cursor = ⟨before, Varint.encode (Zigzag.fold n.toInt) ++ rest⟩) :
    Read.i16 r = (.ok n, { r with
      cursor := ⟨(Varint.encode (Zigzag.fold n.toInt)).reverse ++ before, rest⟩ }) := by
  have hlt : Zigzag.fold n.toInt < 2 ^ 16 := Zigzag.fold_lt (k := 15) n.le_toInt n.toInt_lt
  have hv := Varint.read_encode (Nat.lt_trans hlt (by decide : 2 ^ 16 < 2 ^ 64))
  rw [Read.i16, Step.bind_apply, Read.folded, Read.varint, Step.bind_ok (Read.ofCursor_ok hv hc),
    if_pos hlt, Zigzag.unfold_fold, Step.pure_apply]
  show (Except.ok (Int16.ofInt n.toInt), _) = _
  rw [Int16.ofInt_toInt]

theorem carried_i8 (n : Int8) : Carried o d (Write.i8 n) Read.i8 n :=
  ⟨[n.toUInt8], fun _ => ⟨Write.emits_call _,
    Read.takes_bind_pure (Read.takes_byte _) (Read.takes_pure n)⟩⟩

theorem carried_double (bits : UInt64) : Carried o d (Write.double bits) Read.double bits := by
  have hlen : (toLE 8 bits.toNat).length = 8 := toLE_length 8 _
  have hview {i : Int16} : Read.Takes o d i i (Read.view 8) (toLE 8 bits.toNat)
      (toLE 8 bits.toNat) := by
    have h := Read.takes_view (o := o) (d := d) (i := i) (toLE 8 bits.toNat)
    rwa [hlen] at h
  have hbits : UInt64.ofNat (fromLE (toLE 8 bits.toNat)) = bits := by
    rw [fromLE_toLE, Nat.mod_eq_of_lt (show bits.toNat < 256 ^ 8 from bits.toNat_lt),
      UInt64.ofNat_toNat]
  refine ⟨toLE 8 bits.toNat, fun i => ⟨Write.emits_call _, Read.takes_bind_pure hview ?_⟩⟩
  rw [hbits]
  exact Read.takes_pure bits

/-- a boolean that no header was held back for is a byte -/
theorem carried_bool (b : Bool) : Carried o d (Write.bool b) Read.bool b := by
  refine ⟨[if b then 1 else 2], fun i => ⟨fun w hw => ?_, fun r before rest hr hc => ?_⟩⟩
  · have e : Write.bool b w = Write.byte (if b then 1 else 2) w := by
      rw [Write.bool, Step.bind_ok (Step.look_apply _ _), hw.pending]
    rw [e]
    exact Write.emits_call _ w hw
  · have hval : ((if b then 1 else 2 : UInt8) == 1) = b := by
      cases b <;> rfl
    have e := Read.takes_byte (o := o) (d := d) (i := i) (if b then 1 else 2) r before rest hr hc
    rw [Read.bool, Step.state_bind, hr.pending]
    show (Read.byte >>= fun c => pure (c == 1)) r = _
    rw [Step.bind_ok e, hval, hr.pending]
    rfl

theorem carried_i16 (n : Int16) : Carried o d (Write.i16 n) Read.i16 n := by
  refine ⟨Varint.encode (Zigzag.fold n.toInt), fun i => ⟨Write.emits_call _, ?_⟩⟩
  intro r before rest hr hc
  rw [i16_ok hc, ← hr.last]

theorem carried_i32 (n : Int32) : Carried o d (Write.i32 n) Read.i32 n := by
  refine ⟨Varint.encode (Zigzag.fold n.toInt), fun i => ⟨Write.emits_call _, ?_⟩⟩
  refine Read.takes_bind_pure (takes_folded (Zigzag.fold_lt (k := 31) ?_ ?_) (by decide)) ?_
  · exact n.le_toInt
  · exact n.toInt_lt
  · rw [Int32.ofInt_toInt]
    exact Read.takes_pure n

theorem carried_i64 (n : Int64) : Carried o d (Write.i64 n) Read.i64 n := by
  refine ⟨Varint.encode (Zigzag.fold n.toInt), fun i => ⟨Write.emits_call _, ?_⟩⟩
  refine Read.takes_bind_pure (Read.takes_varint (Zigzag.fold_lt (k := 63) ?_ ?_)) ?_
  · exact n.le_toInt
  · exact n.toInt_lt
  · rw [Zigzag.unfold_fold, Int64.ofInt_toInt]
    exact Read.takes_pure n

/-- a member of a closed set is found again by its number -/
theorem decodeCode_code {α : Type} [Coded α] [LawfulCoded α] (x : α) :
    decodeCode α (Coded.code x) = .ok x := by
  rw [decodeCode, LawfulCoded.ofCode?_code]

theorem carried_code {α : Type} [Coded α] [LawfulCoded α] (x : α) :
    Carried o d ((Codec.code α).write x) (Codec.code α).read x := by
  obtain ⟨s, hs⟩ := carried_i32 (o := o) (d := d) (Coded.code x)
  refine ⟨s, fun i => ⟨(hs i).1, Read.takes_bind_pure (hs i).2 ?_⟩⟩
  exact Read.takes_lift (decodeCode_code x)

/-! ## byte strings -/

theorem toInt_ofNat {n : Nat} (h : n ≤ Read.maxListRoom) : (Int64.ofNat n).toInt = n :=
  Int64.toInt_ofNat_of_lt (Nat.lt_of_le_of_lt h (by decide))

theorem carried_binary {bs : Bytes} (h : Fits o bs.length) :
    Carried o d (Write.binary bs) Read.binary bs := by
  obtain ⟨hl, hr⟩ := h
  have hr' : bs.length < 2 ^ 64 := Nat.lt_of_le_of_lt hr (by decide)
  refine ⟨Varint.encode bs.length ++ bs, fun i =>
    ⟨Write.emits_add (Write.emits_call _) (Write.emits_call _), ?_⟩⟩
  apply Read.takes_bind (Read.takes_varint hr')
  apply Read.takes_pure_bind (Read.takes_look fun r hr => hr.stringLimit)
  have e : (Int64.ofNat bs.length).toInt.toNat = bs.length := by
    rw [toInt_ofNat hr]
    rfl
  show Read.Takes o d i i (if _ then _ else if _ then _ else Read.view _) bs bs
  rw [e, toInt_ofNat hr, if_neg (by omega), if_neg (by omega)]
  exact Read.takes_view bs

theorem carried_string {t : String} (h : Fits o (Utf8.encode t).length) :
    Carried o d (Write.string t) Read.string t := by
  obtain ⟨s, hs⟩ := carried_binary (d := d) h
  refine ⟨s, fun i => ⟨(hs i).1, Read.takes_bind_pure (hs i).2 ?_⟩⟩
  rw [Utf8.decode_encode]
  exact Read.takes_pure t

/-! ## lists -/

/-- a header byte gives back its two nibbles -/
theorem nibbles {hi : Nat} {code : UInt8} (h : hi < 16) (hc : code.toNat < 16) :
    (UInt8.ofNat (hi * 16) ||| code) &&& 0x0F = code ∧
      ((UInt8.ofNat (hi * 16) ||| code) >>> 4).toNat = hi := by
  have key : ∀ hi lo : Fin 16,
      (UInt8.ofNat (hi.val * 16) ||| UInt8.ofNat lo) &&& 0x0F = UInt8.ofNat lo ∧
        ((UInt8.ofNat (hi.val * 16) ||| UInt8.ofNat lo) >>> 4).toNat = hi := by decide
  have h' := key ⟨hi, h⟩ ⟨code.toNat, hc⟩
  rwa [UInt8.ofNat_toNat] at h'

theorem code_lt (t : WireType) : t.code.toNat < 16 := by
  cases t <;> decide

theorem takes_wireType {i : Int16} (t : WireType) :
    Read.Takes o d i i (Read.wireType t.code) [] t := by
  rw [Read.wireType, WireType.ofCode?_code]
  exact Read.takes_pure t

theorem carried_listBegin {n room : Nat} (t : WireType) (hroom : 0 < room)
    (h : FitsList o n room) : Carried o d (Write.listBegin t n) Read.listBegin (t, n) := by
  obtain ⟨hl, hm⟩ := h
  have hn : n ≤ Read.maxListRoom := Nat.le_trans (Nat.le_mul_of_pos_right n hroom) hm
  unfold Write.listBegin Read.listBegin
  by_cases hs : n < 15
  · rw [if_pos hs]
    obtain ⟨h1, h2⟩ := nibbles (Nat.lt_succ_of_lt hs) (code_lt t)
    refine ⟨[UInt8.ofNat (n * 16) ||| t.code], fun i => ⟨Write.emits_call _, ?_⟩⟩
    apply Read.takes_bind_pure (Read.takes_byte _)
    rw [h1]
    apply Read.takes_bind_pure (takes_wireType t)
    dsimp only
    rw [h2, if_pos hs]
    exact Read.takes_pure (t, n)
  · rw [if_neg hs]
    obtain ⟨h1, h2⟩ := nibbles (show 15 < 16 by decide) (code_lt t)
    refine ⟨[0xF0 ||| t.code] ++ Varint.encode n, fun i =>
      ⟨Write.emits_add (Write.emits_call _) (Write.emits_call _), ?_⟩⟩
    apply Read.takes_bind (Read.takes_byte _)
    have h1' : (0xF0 ||| t.code) &&& 0x0F = t.code := h1
    have h2' : ((0xF0 ||| t.code) >>> 4).toNat = 15 := h2
    rw [h1']
    apply Read.takes_pure_bind (takes_wireType t)
    dsimp only
    rw [h2', if_neg (by decide)]
    apply Read.takes_bind_pure (Read.takes_varint (Nat.lt_of_le_of_lt hn (by decide)))
    refine Read.takes_bind_pure ?_ (Read.takes_pure (t, n))
    apply Read.takes_pure_bind (Read.takes_look fun r hr => hr.containerLimit)
    dsimp only
    rw [toInt_ofNat hn, if_neg (by omega), if_neg (by omega)]
    exact Read.takes_pure n

/-- a list behind its header: what is done with the header and the elements is left open -/
theorem carried_list {α β : Type} {room : Nat} (t : WireType) {x : α → Write Nat} {y : Read α}
    {as : List α} {b : β} {f : WireType × Nat → Read β} (hroom : 0 < room)
    (h : FitsList o as.length room) (ha : ∀ a ∈ as, Carried o d (x a) y a)
    (hf : ∀ i s, Read.Takes o d i i (Step.times as.length y) s as →
      Read.Takes o d i i (f (t, as.length)) s b) :
    Carried o d (do
        let head ← Write.listBegin t as.length
        let body ← Write.total (as.map x)
        pure (head + body)) (Read.listBegin >>= f) b := by
  obtain ⟨s, hs⟩ := carried_listBegin (o := o) (d := d) t hroom h
  obtain ⟨s', hs'⟩ := carried_times ha
  exact ⟨s ++ s', fun i =>
    ⟨Write.emits_add (hs i).1 (hs' i).1, Read.takes_bind (hs i).2 (hf i s' (hs' i).2)⟩⟩

theorem takes_reserve {i : Int16} {n room : Nat} (h : FitsList o n room) :
    Read.Takes o d i i (Read.reserve n room) [] () := by
  rw [Read.reserve_ok h.2]
  exact Read.takes_pure ()

theorem mapM_decodeCode {α : Type} [Coded α] [LawfulCoded α] (xs : List α) :
    (xs.map Coded.code).mapM (decodeCode α) = .ok xs := by
  induction xs with
  | nil => rfl
  | cons x xs ih =>
    rw [List.map_cons, List.mapM_cons, decodeCode_code, ih]
    rfl

theorem carried_codes {α : Type} [Coded α] [LawfulCoded α] {xs : List α}
    (h : FitsList o xs.length Codec.codeRoom) :
    Carried o d ((Codec.codes α).write xs) (Codec.codes α).read xs := by
  have hc : FitsList o (xs.map Coded.code).length Codec.codeRoom := by
    rwa [List.length_map]
  have hl := carried_list (d := d) (x := Write.i32) (y := Read.i32) (b := xs)
    (f := fun header => do
      Read.reserve header.2 Codec.codeRoom
      let cs ← Step.times header.2 Read.i32
      let xs ← (cs.mapM (decodeCode α) : Except Error (List α))
      pure xs)
    .i32 (by decide) hc (fun n _ => carried_i32 n) (fun i s ht =>
      Read.takes_pure_bind (takes_reserve hc)
        (Read.takes_bind_pure ht (Read.takes_lift (mapM_decodeCode xs))))
  rwa [List.length_map, List.map_map] at hl

theorem carried_strings {xs : List String} (h : FitsList o xs.length Codec.textRoom)
    (hx : ∀ t ∈ xs, Fits o (Utf8.encode t).length) :
    Carried o d (Codec.strings.write xs) Codec.strings.read xs :=
  carried_list .binary (by decide) h (fun t ht => carried_string (hx t ht))
    fun _ _ ht => Read.takes_pure_bind (takes_reserve h) ht

theorem carried_records {R : Type} {F : Format R} {rs : List R} (hroom : 0 < F.kind.room)
    (h : FitsList o rs.length F.kind.room) (hr : ∀ r ∈ rs, Carried o d (F.write r) F.read r) :
    Carried o d ((Codec.records F).write rs) (Codec.records F).read rs :=
  carried_list .struct hroom h hr fun i s ht => by
    show Read.Takes o d i i (if _ then _ else _) s rs
    rw [if_pos rfl]
    exact Read.takes_pure_bind (takes_reserve h) ht

end Compact

end Columnar
