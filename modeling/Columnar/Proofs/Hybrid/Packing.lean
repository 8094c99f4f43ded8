import Columnar.Proofs.Hybrid.Encoder
import Columnar.Proofs.Words

/-!
# The place of every bit

A packed value is a window of the bits of a string, and packed values are written through a word
in which bits wait until they fill a byte.  Every bit goes to its place, and every bit is found
there, whatever the width and however a value lies across bytes.

* `bit bs p`               bit `p` of a byte string, the lowest bit of a byte first;
* `loadWord`, `unpackWord`, `extractWord`   windows as machine words: at most eight bytes are set
                           in a word, shifted, and masked; the place of a packed value is told
                           in a word, too;
* `Packer`                 bits that wait in a word, and the bytes that were filled;
* `flush w vs`             the bytes of values that wait to be packed;
* `Packer.Holds w us p`    all bits of `us` are in the bytes or wait;
* `Flushed w vs bs`        `bs` is nothing where `vs` is, else a header and the bits of `vs`.

`bits_placed` says where each bit is read, and where it is written.
-/

namespace Columnar

/-! ## bits of a string -/

/-- bit `p` of a byte string, zero behind its end -/
def bit (bs : Bytes) (p : Nat) : Bool := (bs.getD (p / 8) 0).toNat.testBit (p % 8)

/-- the bits of a string are those of the number it spells -/
theorem testBit_fromLE (bs : Bytes) (p : Nat) : (fromLE bs).testBit p = bit bs p := by
  have hp : fromLE bs / 2 ^ (8 * (p / 8)) = fromLE (bs.drop (p / 8)) := by
    rw [Nat.pow_mul]
    exact fromLE_div bs (p / 8)
  have hsplit : (fromLE bs).testBit p = (fromLE (bs.drop (p / 8))).testBit (p % 8) := by
    rw [← hp, Nat.testBit_div_two_pow, Nat.add_comm, Nat.div_add_mod]
  rw [hsplit, bit, List.getD_eq_getElem?_getD, ← Nat.add_zero (p / 8), ← List.getElem?_drop,
    Nat.add_zero]
  rcases bs.drop (p / 8) with _ | ⟨b, rest⟩
  · rfl
  · have hlow := Nat.testBit_two_pow_mul_add (fromLE rest) b.toNat_lt (p % 8)
    rw [if_pos (Nat.mod_lt _ (by decide))] at hlow
    rw [fromLE, Nat.add_comm]
    exact hlow

/-- strings of one length that spell one number are the same -/
theorem eq_of_fromLE {as bs : Bytes} (hlen : as.length = bs.length) (h : fromLE as = fromLE bs) :
    as = bs := by
  rw [← toLE_fromLE as, hlen, h, toLE_fromLE]

namespace Hybrid

variable {w n : Nat} {us vs : List Nat}

/-- the bits of a packed value, and none above them -/
theorem testBit_unpack (hw : w ≤ maxWidth) (bs : Bytes) (i k : Nat) :
    (unpack w bs i).testBit k = (decide (k < w) && bit bs (i * w + k)) := by
  rw [unpack_eq hw, Nat.testBit_mod_two_pow, Nat.testBit_div_two_pow, testBit_fromLE,
    Nat.add_comm k]

/-- the bits that are extracted together -/
theorem testBit_extract_bit (hn : n ≤ 57) (bs : Bytes) (p k : Nat) :
    (extract n bs p).testBit k = (decide (k < n) && bit bs (p + k)) := by
  rw [extract_eq hn, Nat.testBit_mod_two_pow, Nat.testBit_div_two_pow, testBit_fromLE,
    Nat.add_comm k]

/-! ## windows as machine words -/

/-- a word with bytes set in it, the first of them `shift` bits above the lowest -/
def setBytes (shift : Nat) (word : UInt64) : Bytes → UInt64
  | [] => word
  | b :: bs => setBytes (shift + 8) (word ||| b.toUInt64 <<< UInt64.ofNat shift) bs

/-- up to 64 bits from bit `p` on -/
def loadWord (bs : Bytes) (p : Nat) : UInt64 :=
  setBytes 0 0 ((bs.drop (p / 8)).take 8) >>> UInt64.ofNat (p % 8)

/-- value `i` of a string of values of `w` bits; its place has to fit a word -/
def unpackWord (w : Nat) (bs : Bytes) (i : Nat) : Except Misuse UInt32 :=
  if w = 0 then .ok 0
  else if i * w < 2 ^ 64 then
    .ok (loadWord bs (i * w) &&& (1 <<< UInt64.ofNat w - 1)).toUInt32
  else .error .multiplyOverflow

/-- the mask of the `n` lowest of sixteen bits -/
def lowBits (n : Nat) : UInt16 := if 16 ≤ n then 0xFFFF else 1 <<< UInt16.ofNat n - 1

/-- the `n` bits from bit `p` on, of sixteen at most -/
def extractWord (n : Nat) (bs : Bytes) (p : Nat) : UInt16 := (loadWord bs p).toUInt16 &&& lowBits n

/-- bytes that reach no further than the word are all set in it -/
theorem toNat_setBytes (bs : Bytes) : ∀ {k : Nat} {word : UInt64}, k + bs.length ≤ 8 →
    word.toNat < 2 ^ (8 * k) →
    (setBytes (8 * k) word bs).toNat = word.toNat + 2 ^ (8 * k) * fromLE bs := by
  induction bs with
  | nil => exact fun _ _ => rfl
  | cons b bs ih =>
    intro k word hk hword
    rw [List.length_cons] at hk
    have hpow : 2 ^ (8 * (k + 1)) = 2 ^ (8 * k) * 256 := by
      rw [Nat.mul_succ, Nat.pow_add]
    have hroom : 2 ^ (8 * (k + 1)) ≤ 2 ^ 64 := Nat.pow_le_pow_right (by decide) (by omega)
    have hb : 2 ^ (8 * k) * b.toNat ≤ 2 ^ (8 * k) * 255 :=
      Nat.mul_le_mul_left _ (Nat.le_of_lt_succ b.toNat_lt)
    have hset := toNat_or_above (by omega) hword b.toUInt64
    rw [UInt8.toNat_toUInt64, Nat.mod_eq_of_lt (by omega)] at hset
    rw [setBytes, show 8 * k + 8 = 8 * (k + 1) from rfl, ih (by omega) (by omega), hset, hpow,
      fromLE, Nat.mul_add, Nat.mul_assoc, Nat.add_assoc]

theorem toNat_loadWord (bs : Bytes) (p : Nat) : (loadWord bs p).toNat = word bs p := by
  have hlen : 0 + ((bs.drop (p / 8)).take 8).length ≤ 8 := by
    rw [Nat.zero_add]
    exact List.length_take_le _ _
  have hset := @toNat_setBytes _ 0 0 hlen (by decide)
  rw [UInt64.toNat_zero, Nat.zero_add, Nat.mul_zero, Nat.pow_zero, Nat.one_mul] at hset
  rw [loadWord, word, UInt64.toNat_shiftRight, hset, UInt64.toNat_ofNat']
  congr 1
  omega

/-- the mask of the `w` lowest bits of a word -/
theorem toNat_mask (hw : w < 64) : (1 <<< UInt64.ofNat w - 1 : UInt64).toNat = 2 ^ w - 1 := by
  have hshift : (1 <<< UInt64.ofNat w : UInt64).toNat = 2 ^ w := by
    have hlt : 2 ^ w < 2 ^ 64 := Nat.pow_lt_pow_right (by decide) hw
    rw [UInt64.toNat_shiftLeft, UInt64.toNat_ofNat', Nat.mod_eq_of_lt (by omega : w < 2 ^ 64),
      Nat.mod_eq_of_lt hw, UInt64.toNat_one, Nat.one_shiftLeft, Nat.mod_eq_of_lt hlt]
  rw [UInt64.toNat_sub_of_le, hshift]
  · rfl
  · rw [UInt64.le_iff_toNat_le, hshift]
    exact Nat.two_pow_pos w

/-- the value at a place that a word can tell -/
theorem unpackWord_ok (hw : w ≤ maxWidth) (bs : Bytes) {i : Nat} (hi : i * w < 2 ^ 64) :
    ∃ v, unpackWord w bs i = .ok v ∧ v.toNat = unpack w bs i := by
  rw [maxWidth] at hw
  by_cases hzero : w = 0
  · refine ⟨0, by rw [unpackWord, if_pos hzero], ?_⟩
    rw [hzero, unpack, Nat.pow_zero, Nat.mod_one]
    rfl
  · have hlt : unpack w bs i < 2 ^ 32 :=
      Nat.lt_of_lt_of_le (unpack_lt w bs i) (Nat.pow_le_pow_right (by decide) hw)
    refine ⟨_, by rw [unpackWord, if_neg hzero, if_pos hi], ?_⟩
    rw [UInt64.toNat_toUInt32, UInt64.toNat_and, toNat_mask (by omega),
      Nat.and_two_pow_sub_one_eq_mod, toNat_loadWord]
    exact Nat.mod_eq_of_lt hlt

/-- no word tells the place of a value that lies behind 64 bits -/
theorem unpackWord_error (bs : Bytes) {i : Nat} (hi : 2 ^ 64 ≤ i * w) :
    unpackWord w bs i = .error .multiplyOverflow := by
  have hpos : w ≠ 0 := by
    rintro rfl
    omega
  rw [unpackWord, if_neg hpos, if_neg (Nat.not_lt.mpr hi)]

theorem toNat_lowBits (hn : n ≤ 16) : (lowBits n).toNat = 2 ^ n - 1 := by
  have key : ∀ n : Fin 17, (lowBits n.val).toNat = 2 ^ n.val - 1 := by decide
  exact key ⟨n, Nat.lt_succ_of_le hn⟩

theorem toNat_extractWord (hn : n ≤ 16) (bs : Bytes) (p : Nat) :
    (extractWord n bs p).toNat = extract n bs p := by
  rw [extractWord, UInt16.toNat_and, toNat_lowBits hn, Nat.and_two_pow_sub_one_eq_mod,
    UInt64.toNat_toUInt16, toNat_loadWord, Nat.mod_mod_of_dvd _ (Nat.pow_dvd_pow 2 hn), extract]

/-! ## packing through a word -/

/-- bits that wait to fill a byte, and the bytes that were filled -/
structure Packer where
  /-- the bits that wait, the first at the bottom -/
  acc : UInt64 := 0
  /-- how many wait -/
  bits : Nat := 0
  out : Bytes := []

namespace Packer

/-- whole bytes of the bits that wait -/
def drain (p : Packer) : Packer :=
  if 8 ≤ p.bits then
    drain { acc := p.acc >>> 8, bits := p.bits - 8, out := p.out ++ [p.acc.toUInt8] }
  else p
termination_by p.bits
decreasing_by omega

/-- a value of `w` bits above those that wait -/
def push (w : Nat) (p : Packer) (v : Nat) : Packer :=
  drain { p with acc := p.acc ||| UInt64.ofNat v <<< UInt64.ofNat p.bits, bits := p.bits + w }

/-- the bits of values of `w` bits are in the bytes or wait -/
structure Holds (w : Nat) (us : List Nat) (p : Packer) : Prop where
  number : fromLE p.out + 256 ^ p.out.length * p.acc.toNat = ofDigits w us
  count : 8 * p.out.length + p.bits = us.length * w
  waiting : p.acc.toNat < 2 ^ p.bits

variable {p : Packer}

theorem holds_start (w : Nat) : Holds w [] {} where
  number := rfl
  count := (Nat.zero_mul w).symm
  waiting := by decide

/-- a byte is moved from the bits that wait to those that were filled -/
theorem Holds.byte (h : Holds w us p) (hbyte : 8 ≤ p.bits) : Holds w us
    { acc := p.acc >>> 8, bits := p.bits - 8, out := p.out ++ [p.acc.toUInt8] } := by
  have hshift : (p.acc >>> 8).toNat = p.acc.toNat / 256 := by
    rw [UInt64.toNat_shiftRight, show (8 : UInt64).toNat % 64 = 8 from rfl,
      Nat.shiftRight_eq_div_pow]
  have hlow : p.acc.toUInt8.toNat = p.acc.toNat % 256 := UInt64.toNat_toUInt8 p.acc
  constructor
  · rw [fromLE_append, fromLE, fromLE, Nat.mul_zero, Nat.add_zero, hlow, hshift,
      List.length_append, List.length_singleton, Nat.pow_succ, Nat.mul_assoc, Nat.add_assoc,
      ← Nat.mul_add, Nat.mod_add_div]
    exact h.number
  · have hcount := h.count
    rw [List.length_append, List.length_singleton]
    dsimp only
    omega
  · have hpow : 2 ^ p.bits = 256 * 2 ^ (p.bits - 8) := by
      rw [show (256 : Nat) = 2 ^ 8 from rfl, ← Nat.pow_add, Nat.add_sub_cancel' hbyte]
    have hwaiting := h.waiting
    rw [hpow] at hwaiting
    rw [hshift]
    exact Nat.div_lt_of_lt_mul hwaiting

/-- what is left waiting is less than a byte -/
theorem Holds.drain (h : Holds w us p) : Holds w us p.drain ∧ p.drain.bits < 8 := by
  induction hn : p.bits using Nat.strongRecOn generalizing p with
  | ind n ih =>
    rw [Packer.drain]
    by_cases hbyte : 8 ≤ p.bits
    · rw [if_pos hbyte]
      exact ih (p.bits - 8) (by omega) (h.byte hbyte) rfl
    · rw [if_neg hbyte]
      exact ⟨h, Nat.not_le.mp hbyte⟩

/-- with less than a byte waiting, no bit of a value is shifted out of the word -/
theorem toNat_push (hwaiting : p.acc.toNat < 2 ^ p.bits) (hbits : p.bits < 8) (hw : w ≤ maxWidth)
    {v : Nat} (hv : v < 2 ^ w) :
    (p.acc ||| UInt64.ofNat v <<< UInt64.ofNat p.bits).toNat = p.acc.toNat + 2 ^ p.bits * v ∧
      p.acc.toNat + 2 ^ p.bits * v < 2 ^ (p.bits + w) := by
  rw [maxWidth] at hw
  have hroom : p.acc.toNat + 2 ^ p.bits * v < 2 ^ (p.bits + w) := by
    have hmul := Nat.mul_le_mul_left (2 ^ p.bits) (Nat.succ_le_of_lt hv)
    rw [Nat.mul_succ, ← Nat.pow_add] at hmul
    omega
  have hword : 2 ^ (p.bits + w) ≤ 2 ^ 64 := Nat.pow_le_pow_right (by decide) (by omega)
  have hv64 : (UInt64.ofNat v).toNat = v := by
    have hle : 2 ^ w ≤ 2 ^ 64 := Nat.pow_le_pow_right (by decide) (by omega)
    rw [UInt64.toNat_ofNat', Nat.mod_eq_of_lt (Nat.lt_of_lt_of_le hv hle)]
  have hacc := toNat_or_above (by omega) hwaiting (UInt64.ofNat v)
  rw [hv64, Nat.mod_eq_of_lt (Nat.lt_of_lt_of_le hroom hword)] at hacc
  exact ⟨hacc, hroom⟩

/-- a value is set above those that wait, and what it fills is moved out -/
theorem Holds.push (h : Holds w us p) (hbits : p.bits < 8) (hw : w ≤ maxWidth) {v : Nat}
    (hv : v < 2 ^ w) : Holds w (us ++ [v]) (p.push w v) ∧ (p.push w v).bits < 8 := by
  obtain ⟨hacc, hroom⟩ := toNat_push h.waiting hbits hw hv
  apply Holds.drain
  constructor
  · have hplace : 2 ^ (us.length * w) = 256 ^ p.out.length * 2 ^ p.bits := by
      rw [← h.count, Nat.pow_add, Nat.pow_mul]
    rw [hacc, ofDigits_append, ofDigits, ofDigits, Nat.mul_zero, Nat.add_zero, hplace, ← h.number,
      Nat.mul_add, Nat.mul_assoc, Nat.add_assoc]
  · have hcount := h.count
    rw [List.length_append, List.length_singleton, Nat.add_mul, Nat.one_mul]
    dsimp only
    omega
  · rw [hacc]
    exact hroom

theorem Holds.foldl (hw : w ≤ maxWidth) (hv : ∀ v ∈ vs, v < 2 ^ w) (h : Holds w us p)
    (hbits : p.bits < 8) :
    Holds w (us ++ vs) (vs.foldl (Packer.push w) p) ∧ (vs.foldl (Packer.push w) p).bits < 8 := by
  induction vs generalizing us p with
  | nil =>
    rw [List.append_nil]
    exact ⟨h, hbits⟩
  | cons v vs ih =>
    obtain ⟨hfirst, hleft⟩ := h.push hbits hw (hv v List.mem_cons_self)
    have hrest := ih (fun u hu => hv u (List.mem_cons_of_mem v hu)) hfirst hleft
    rwa [List.append_assoc] at hrest

/-- behind whole groups nothing waits, and the bytes spell the number of the values -/
theorem out_foldl (hw : w ≤ maxWidth) (hv : ∀ v ∈ vs, v < 2 ^ w) {g : Nat}
    (hlen : vs.length = g * groupSize) : (vs.foldl (push w) {}).out.length = g * w ∧
      fromLE (vs.foldl (push w) {}).out = ofDigits w vs := by
  obtain ⟨h, hbits⟩ := (holds_start w).foldl hw hv (by decide)
  rw [List.nil_append] at h
  have hcount := h.count
  have hgroups : vs.length * w = 8 * (g * w) := by
    rw [hlen, Nat.mul_comm g, Nat.mul_assoc]
    rfl
  have hnone : (vs.foldl (push w) {}).bits = 0 := by omega
  have hwaiting := h.waiting
  rw [hnone, Nat.pow_zero, Nat.lt_one_iff] at hwaiting
  have hnumber := h.number
  rw [hwaiting, Nat.mul_zero, Nat.add_zero] at hnumber
  exact ⟨by omega, hnumber⟩

/-- the bytes of literals: a header that counts their groups, and their bits, the last group filled
with zeros; none are not written at all -/
def flush (w : Nat) (vs : List Nat) : Bytes :=
  if vs = [] then []
  else
    Varint.encode (2 * ((vs.length + 7) / 8) + 1) ++
      ((vs ++ List.replicate (Piece.padding vs) 0).foldl (push w) {}).out

end Packer

/-! ## literals -/

theorem ofDigits_zeros (w n : Nat) : ofDigits w (List.replicate n 0) = 0 := by
  induction n with
  | zero => rfl
  | succ n ih => rw [List.replicate_succ, ofDigits, ih, Nat.mul_zero]

/-- groups are packed through a word as they are packed at once -/
theorem flush_eq (hw : w ≤ maxWidth) (hv : ∀ v ∈ vs, v < 2 ^ w) :
    Packer.flush w vs = (literals vs).flatMap (Piece.bytes w) := by
  rw [Packer.flush, literals]
  split
  · rfl
  · have hfits : ∀ v ∈ vs ++ List.replicate (Piece.padding vs) 0, v < 2 ^ w := by
      intro v hmem
      rcases List.mem_append.mp hmem with hmem | hmem
      · exact hv v hmem
      · rw [(List.mem_replicate.mp hmem).2]
        exact Nat.two_pow_pos w
    have hgroups : vs.length ≤ (vs.length + 7) / 8 * groupSize := by
      rw [show groupSize = 8 from rfl]
      omega
    have hlen : (vs ++ List.replicate (Piece.padding vs) 0).length =
        (vs.length + 7) / 8 * groupSize := by
      rw [List.length_append, List.length_replicate, Piece.padding]
      omega
    obtain ⟨hsize, hnumber⟩ := Packer.out_foldl hw hfits hlen
    have hpacked := fromLE_packGroups hv hgroups
    rw [ofDigits_append, ofDigits_zeros, Nat.mul_zero, Nat.add_zero, ← hpacked] at hnumber
    rw [List.flatMap_singleton, Piece.bytes]
    congr 1
    exact eq_of_fromLE (hsize.trans (packGroups_length w _ vs).symm) hnumber

/-- what literals are written as: nothing where there are none, else their groups, counted in a
header, with `w` bytes for each, in which bit `k` of value `i` is bit `i * w + k` -/
inductive Flushed (w : Nat) : List Nat → Bytes → Prop
  | none : Flushed w [] []
  | groups {vs : List Nat} {body : Bytes} (hsome : vs ≠ [])
    (hlen : body.length = vs.length / groupSize * w)
    (hbits : ∀ i v k, vs[i]? = some v → k < w → bit body (i * w + k) = v.testBit k) :
    Flushed w vs (Varint.encode (2 * (vs.length / groupSize) + 1) ++ body)

theorem flushed_literals (hv : ∀ v ∈ vs, v < 2 ^ w) (hwhole : vs.length % groupSize = 0) :
    Flushed w vs ((literals vs).flatMap (Piece.bytes w)) := by
  rw [show groupSize = 8 from rfl] at hwhole
  rw [literals]
  split
  · rename_i hnil
    rw [hnil]
    exact .none
  · rename_i hsome
    have hgroups : (vs.length + 7) / 8 = vs.length / groupSize := by
      rw [show groupSize = 8 from rfl]
      omega
    rw [List.flatMap_singleton, Piece.bytes, hgroups]
    refine .groups hsome (packGroups_length w _ vs) fun i v k hi hk => ?_
    have hroom : vs.length ≤ vs.length / groupSize * groupSize := by
      rw [show groupSize = 8 from rfl]
      omega
    -- bit `k` of the digit at place `i` of the number that the groups spell
    have hdigit := ofDigits_div_mod hv i
    rw [hi, Option.getD_some] at hdigit
    rw [← testBit_fromLE, fromLE_packGroups hv hroom, ← hdigit, Nat.testBit_mod_two_pow,
      Nat.testBit_div_two_pow, Nat.add_comm k, decide_eq_true hk, Bool.true_and]

/-- Every bit of a packed value is the bit of the string at its place, zero behind the end, as long
as 64 bits tell the place, and so is every bit of those that are extracted together; and every bit
of literals, which are packed in whole groups, is written to its place.  Literals that are none
are not written, and have no header. -/
theorem bits_placed (hw : w ≤ maxWidth) :
    (∀ bs i, (i * w < 2 ^ 64 → ∃ v, unpackWord w bs i = .ok v ∧ v.toNat = unpack w bs i) ∧
      (2 ^ 64 ≤ i * w → unpackWord w bs i = .error .multiplyOverflow) ∧
      ∀ k, (unpack w bs i).testBit k = (decide (k < w) && bit bs (i * w + k))) ∧
    (∀ n bs p, n ≤ Decoder.maskSize → (extractWord n bs p).toNat = extract n bs p ∧
      ∀ k, (extract n bs p).testBit k = (decide (k < n) && bit bs (p + k))) ∧
    (∀ vs : List Nat, vs.length % groupSize = 0 → (∀ v ∈ vs, v < 2 ^ w) →
      Packer.flush w vs = (literals vs).flatMap (Piece.bytes w) ∧
      Flushed w vs (Packer.flush w vs)) := by
  refine ⟨fun bs i => ⟨unpackWord_ok hw bs, unpackWord_error bs, testBit_unpack hw bs i⟩,
    fun n bs p hn => ⟨toNat_extractWord hn bs p, ?_⟩, fun vs hwhole hv => ⟨flush_eq hw hv, ?_⟩⟩
  · exact testBit_extract_bit (Nat.le_trans hn (by decide)) bs p
  · rw [flush_eq hw hv]
    exact flushed_literals hv hwhole

/-- a group of the numbers up to seven, of three bits each -/
theorem bits_placed_three :
    (∃ v, unpackWord 3 [0x88, 0xC6, 0xFA] 5 = .ok v ∧
      v.toNat = unpack 3 [0x88, 0xC6, 0xFA] 5) ∧
    (∀ k, (unpack 3 [0x88, 0xC6, 0xFA] 5).testBit k =
      (decide (k < 3) && bit [0x88, 0xC6, 0xFA] (15 + k))) ∧
    (∀ k, (extract 16 [0x88, 0xC6, 0xFA] 20).testBit k =
      (decide (k < 16) && bit [0x88, 0xC6, 0xFA] (20 + k))) ∧
    Packer.flush 3 [0, 1, 2, 3, 4, 5, 6, 7] = [3, 0x88, 0xC6, 0xFA] ∧
    Flushed 3 [0, 1, 2, 3, 4, 5, 6, 7] [3, 0x88, 0xC6, 0xFA] := by
  obtain ⟨hunpack, hextract, hflush⟩ := bits_placed (show 3 ≤ maxWidth by decide)
  obtain ⟨hliterals, hflushed⟩ := hflush [0, 1, 2, 3, 4, 5, 6, 7] (by decide) (by decide)
  have hbytes : Packer.flush 3 [0, 1, 2, 3, 4, 5, 6, 7] = [3, 0x88, 0xC6, 0xFA] := by
    rw [hliterals, literals, if_neg (by decide), List.flatMap_singleton]
    show Varint.encode 3 ++ [0x88, 0xC6, 0xFA] = _
    rw [Varint.encode_lt (by decide)]
    rfl
  rw [hbytes] at hflushed
  obtain ⟨hword, -, hbits⟩ := hunpack [0x88, 0xC6, 0xFA] 5
  exact ⟨hword (by decide), hbits, (hextract 16 _ 20 (by decide)).2, hbytes, hflushed⟩

/-- no literals are whole groups of values that fit, and are written without a header; and at an
index of 64 bits whose place takes more of them, there is no value to have the bits of -/
theorem not_bits_placed : (([] : List Nat).length % groupSize = 0 ∧
      (∀ v ∈ ([] : List Nat), v < 2 ^ maxWidth) ∧
      Packer.flush maxWidth [] = (literals []).flatMap (Piece.bytes maxWidth) ∧
      ∀ (header : Nat) (body : Bytes),
        Packer.flush maxWidth [] ≠ Varint.encode header ++ body) ∧
    2 ^ 59 < 2 ^ 64 ∧
      ∀ v, unpackWord maxWidth [1, 0, 0, 0] (2 ^ 59) ≠ .ok v := by
  refine ⟨⟨rfl, List.forall_mem_nil _, rfl, fun header body h => ?_⟩, by decide, fun v h => ?_⟩
  · exact Varint.encode_ne_nil header (List.append_eq_nil_iff.mp h.symm).1
  · cases (unpackWord_error (w := maxWidth) [1, 0, 0, 0] (show 2 ^ 64 ≤ 2 ^ 59 * maxWidth by
      decide)).symm.trans h

end Hybrid

end Columnar
