import Mathlib.Algebra.GroupWithZero.Nat
import Columnar.Proofs.Compact.Spelled

/-!
# What a number is read as

Ten groups of seven bits hold seventy bits, and a number has sixty-four.  What the tenth group
spells above them is neither kept nor refused.

* `Varint.spelled bs`      the number that groups spell, each counted by its place;
* `Varint.Fits bs`         nothing of it lies above 64 bits: there are fewer than ten groups, or
                           the tenth is 0 or 1;
* `narrowed`, `sized`      a number taken as one of fewer bits, and as a size under a limit;
* `Reader.Meets n k`       what the readers of numbers, sizes and lengths make of `k` groups that
                           are read as `n`.

`meets_decode` is the account of all of them: where a number is read, what is read is what is
spelled modulo `2 ^ 64`, which is what is spelled exactly when the groups fit, and every reader
goes by it.
-/

namespace Columnar

namespace Varint

variable {bs bytes : Bytes} {n k budget : Nat}

/-! ## what groups spell -/

/-- the number that groups spell: group `i` counts `128 ^ i` -/
def spelled (bs : Bytes) : Nat := (bs.mapIdx fun i b => b.toNat % 128 * 128 ^ i).sum

/-- the same groups behind `k` others -/
theorem sum_places (bs : Bytes) (k : Nat) :
    (bs.mapIdx fun i b => b.toNat % 128 * 128 ^ (k + i)).sum = 128 ^ k * value bs := by
  induction bs generalizing k with
  | nil => rfl
  | cons b bs ih =>
    have hshift : (fun i (b : UInt8) => b.toNat % 128 * 128 ^ (k + (i + 1))) =
        fun i b => b.toNat % 128 * 128 ^ (k + 1 + i) := by
      funext i b
      rw [Nat.add_right_comm k 1 i, Nat.add_assoc]
    rw [List.mapIdx_cons, List.sum_cons, hshift, ih (k + 1), value, Nat.add_zero, Nat.mul_add,
      Nat.mul_comm, Nat.pow_succ, Nat.mul_assoc]

theorem spelled_eq_value (bs : Bytes) : spelled bs = value bs := by
  have h := sum_places bs 0
  simp only [Nat.zero_add, Nat.pow_zero, Nat.one_mul] at h
  exact h

theorem value_append (as bs : Bytes) :
    value (as ++ bs) = value as + 128 ^ as.length * value bs := by
  induction as with
  | nil => rw [List.nil_append, value, Nat.zero_add, List.length_nil, Nat.pow_zero, Nat.one_mul]
  | cons a as ih =>
    rw [List.cons_append, value, value, ih, List.length_cons, Nat.pow_succ', Nat.mul_assoc,
      Nat.mul_add, Nat.add_assoc]

theorem value_lt (bs : Bytes) : value bs < 128 ^ bs.length := by
  induction bs with
  | nil => decide
  | cons b bs ih =>
    rw [value, List.length_cons, Nat.pow_succ]
    omega

/-- nothing lies above 64 bits: there are fewer than ten groups, or the tenth is 0 or 1 -/
def Fits (bs : Bytes) : Prop := (bs.getD 9 0).toNat % 128 ≤ 1

instance (bs : Bytes) : Decidable (Fits bs) := Nat.decLe _ _

theorem fits_iff (h : bs.length ≤ maxLen) : Fits bs ↔ value bs < 2 ^ 64 := by
  rcases Nat.lt_or_eq_of_le h with hlt | hten
  · -- nine groups hold 63 bits
    have hv : value bs < 128 ^ 9 :=
      Nat.lt_of_lt_of_le (value_lt bs) (Nat.pow_le_pow_right (by decide) (Nat.lt_succ_iff.mp hlt))
    have hfits : Fits bs := by
      rw [Fits, List.getD_eq_getElem?_getD, List.getElem?_eq_none (Nat.lt_succ_iff.mp hlt)]
      decide
    exact iff_of_true hfits (Nat.lt_trans hv (by decide))
  · have hnil : bs ≠ [] := by
      rintro rfl
      cases hten
    obtain ⟨low, b, rfl⟩ : ∃ low b, bs = low ++ [b] :=
      ⟨bs.dropLast, bs.getLast hnil, (List.dropLast_concat_getLast hnil).symm⟩
    have hlow : low.length = 9 := by
      rw [List.length_append] at hten
      exact Nat.succ.inj hten
    have hv := value_lt low
    have hten : (low ++ [b]).getD 9 0 = b := by
      rw [List.getD_eq_getElem?_getD, ← hlow, List.getElem?_concat_length, Option.getD_some]
    rw [Fits, hten, value_append, hlow, value, value, Nat.mul_zero, Nat.add_zero]
    rw [hlow] at hv
    omega

/-! ## what is read -/

/-- the groups that were read stand at the front -/
theorem readGroups_eq_ok {c c' : Cursor} (h : readGroups budget c = (.ok bs, c')) :
    Groups bs ∧ bs.length ≤ budget ∧
      ∃ rest, c.rest = bs ++ rest ∧ c' = ⟨bs.reverse ++ c.before, rest⟩ := by
  induction budget generalizing c bs with
  | zero => cases h
  | succ budget ih =>
    obtain ⟨b, c₁, hb, h₁⟩ := Step.bind_eq_ok.mp h
    obtain ⟨before, rest⟩ := c
    rcases rest with _ | ⟨b', rest⟩
    · cases hb
    · cases hb
      split at h₁
      · rename_i hlt
        cases h₁
        exact ⟨.last hlt, Nat.succ_le_succ (Nat.zero_le _), rest, rfl, rfl⟩
      · rename_i hge
        obtain ⟨bs', c₂, h₂, hpure⟩ := Step.bind_eq_ok.mp h₁
        cases hpure
        obtain ⟨hgroups, hlen, rest', hrest, rfl⟩ := ih h₂
        replace hrest : rest = bs' ++ rest' := hrest
        refine ⟨.more hge hgroups, Nat.succ_le_succ hlen, rest', ?_, ?_⟩
        · rw [hrest, List.cons_append]
        · rw [List.reverse_cons, List.append_assoc]
          rfl

/-- groups are read, and what they spell above 64 bits is dropped -/
theorem Groups.takes_read (h : Groups bs) (hle : bs.length ≤ maxLen) :
    Cursor.Takes read bs (value bs % 2 ^ 64) := by
  have ht := Cursor.takes_bind (f := fun bs => pure (value bs % 2 ^ 64)) (h.takes hle)
    (Cursor.takes_pure _)
  rwa [List.append_nil] at ht

theorem decode_eq_ok : decode bytes = .ok (n, k) ↔ k ≤ bytes.length ∧ k ≤ maxLen ∧
    Groups (bytes.take k) ∧ n = value (bytes.take k) % 2 ^ 64 := by
  constructor
  · intro h
    unfold decode at h
    rcases hread : read (.ofBytes bytes) with ⟨_ | m, c⟩
    · rw [hread] at h
      cases h
    · rw [hread] at h
      cases h
      obtain ⟨bs, c', hbs, hpure⟩ := Step.bind_eq_ok.mp hread
      cases hpure
      obtain ⟨hgroups, hlen, rest, hrest, rfl⟩ := readGroups_eq_ok hbs
      replace hrest : bytes = bs ++ rest := hrest
      have hpos : (⟨bs.reverse ++ (Cursor.ofBytes bytes).before, rest⟩ : Cursor).pos =
          bs.length := by
        simp [Cursor.pos, Cursor.ofBytes]
      rw [hpos, hrest, List.take_left' rfl]
      refine ⟨?_, hlen, hgroups, rfl⟩
      rw [List.length_append]
      exact Nat.le_add_right _ _
  · rintro ⟨hk, hlen, hgroups, rfl⟩
    have hle : (bytes.take k).length ≤ maxLen := by rwa [List.length_take_of_le hk]
    have hread := hgroups.takes_read hle [] (bytes.drop k)
    rw [List.append_nil, List.take_append_drop] at hread
    unfold decode
    rw [show read (.ofBytes bytes) = _ from hread]
    simp [Cursor.pos, hk]

end Varint

namespace Compact

open Varint (decode spelled)

variable {bytes : Bytes} {r : Reader} {n k : Nat}

/-! ## what the readers make of it -/

/-- the reader behind the next `k` bytes -/
def Reader.past (r : Reader) (k : Nat) : Reader :=
  { r with cursor := ⟨(r.cursor.rest.take k).reverse ++ r.cursor.before, r.cursor.rest.drop k⟩ }

/-- the reader with one more byte in front of it -/
def Reader.before (r : Reader) (b : UInt8) : Reader :=
  { r with cursor := ⟨r.cursor.before, b :: r.cursor.rest⟩ }

/-- a number as a signed one of `bits` bits -/
def narrowed (bits n : Nat) : Except Failure Int :=
  if n < 2 ^ bits then .ok (Zigzag.unfold n) else .error (Fault.varintTooWide n bits)

/-- a number as a size: the upper half of 64 bits is negative, the rest is held against a limit -/
def sized (negative : Int → Fault) (large : Nat → Nat → Fault) (limit n : Nat) :
    Except Failure Nat :=
  if 2 ^ 63 ≤ n then .error (negative (n - 2 ^ 64))
  else if limit < n then .error (large n limit)
  else .ok n

/-- a number as the size of a container -/
def Reader.asSize (r : Reader) (n : Nat) : Except Failure Nat :=
  sized .negativeContainerSize .containerTooLarge r.containerLimit n

/-- a number as the length of a byte string -/
def Reader.asLength (r : Reader) (n : Nat) : Except Failure Nat :=
  sized .negativeBinaryLength .binaryTooLong r.stringLimit n

/-- what the readers of numbers, sizes and lengths make of `k` bytes that are read as `n` -/
structure Reader.Meets (r : Reader) (k n : Nat) : Prop where
  varint : Read.varint r = (.ok n, r.past k)
  i16 : Read.i16 r = ((narrowed 16 n).map Int16.ofInt, r.past k)
  i32 : Read.i32 r = ((narrowed 32 n).map Int32.ofInt, r.past k)
  i64 : Read.i64 r = (.ok (Int64.ofInt (Zigzag.unfold n)), r.past k)
  fieldNumber : Read.fieldNumber 0 r = ((narrowed 16 n).map Int16.ofInt, r.past k)
  list : ∀ header t, WireType.ofCode? (header &&& 0x0F) = some t → (header >>> 4).toNat = 15 →
    (Read.listBegin (r.before header)).1 = (r.asSize n).map (t, ·)
  mapRefused : ∀ e, r.asSize n = .error e → Read.mapBegin r = (.error e, r.past k)
  mapTaken : ∀ header, (Read.mapBegin r).1 = .ok header → r.asSize n = .ok header.size
  binary : Read.binary r = (Step.ofExcept (r.asLength n) >>= Read.view) (r.past k)

theorem toInt_ofNat_of_ge (hn : n < 2 ^ 64) (h : 2 ^ 63 ≤ n) :
    (Int64.ofNat n).toInt = n - 2 ^ 64 := by
  rw [Int64.toInt_ofNat', show Int64.size = 2 ^ 64 from rfl, Int.bmod_def]
  omega

theorem folded_eq (bits : Nat) (h : Read.varint r = (.ok n, r.past k)) :
    Read.folded bits r = (narrowed bits n, r.past k) := by
  rw [Read.folded, Step.bind_ok h, narrowed]
  split <;> rfl

theorem i16_eq (h : Read.varint r = (.ok n, r.past k)) :
    Read.i16 r = ((narrowed 16 n).map Int16.ofInt, r.past k) := by
  rw [Read.i16, Step.bind_apply, folded_eq 16 h]
  cases narrowed 16 n <;> rfl

theorem i32_eq (h : Read.varint r = (.ok n, r.past k)) :
    Read.i32 r = ((narrowed 32 n).map Int32.ofInt, r.past k) := by
  rw [Read.i32, Step.bind_apply, folded_eq 32 h]
  cases narrowed 32 n <;> rfl

theorem containerSize_eq (hn : n < 2 ^ 64) (r : Reader) :
    Read.containerSize n r = (r.asSize n, r) := by
  rw [Read.containerSize, Step.bind_ok (Step.look_apply _ _), Reader.asSize, sized]
  by_cases h : 2 ^ 63 ≤ n
  · rw [toInt_ofNat_of_ge hn h, if_pos (by omega), if_pos h]
    rfl
  · rw [Int64.toInt_ofNat_of_lt (Nat.not_le.mp h), if_neg (by omega), if_neg h, Int.toNat_natCast]
    split <;> rfl

theorem binary_eq (hn : n < 2 ^ 64) (h : Read.varint r = (.ok n, r.past k)) :
    Read.binary r = (Step.ofExcept (r.asLength n) >>= Read.view) (r.past k) := by
  show _ = (Step.ofExcept ((r.past k).asLength n) >>= Read.view) (r.past k)
  rw [Read.binary, Step.bind_ok h, Step.bind_ok (Step.look_apply _ _), Reader.asLength, sized]
  by_cases h : 2 ^ 63 ≤ n
  · rw [toInt_ofNat_of_ge hn h, if_pos (by omega), if_pos h]
    rfl
  · rw [Int64.toInt_ofNat_of_lt (Nat.not_le.mp h), if_neg (by omega), if_neg h, Int.toNat_natCast]
    split <;> rfl

theorem listBegin_eq (hn : n < 2 ^ 64) {header : UInt8} {t : WireType}
    (ht : WireType.ofCode? (header &&& 0x0F) = some t) (hlong : (header >>> 4).toNat = 15)
    (h : Read.varint ((r.before header).past 1) = (.ok n, ((r.before header).past 1).past k)) :
    (Read.listBegin (r.before header)).1 = (r.asSize n).map (t, ·) := by
  have hbyte : Read.byte (r.before header) = (.ok header, (r.before header).past 1) := rfl
  rw [Read.listBegin, Step.bind_ok hbyte, Read.wireType, ht, Step.bind_ok (Step.pure_apply _ _),
    hlong, if_neg (Nat.lt_irrefl 15), Step.bind_ok h, Step.bind_apply, containerSize_eq hn]
  change _ = (Reader.asSize (((r.before header).past 1).past k) n).map _
  cases Reader.asSize _ n <;> rfl

theorem mapBegin_refused (hn : n < 2 ^ 64) (h : Read.varint r = (.ok n, r.past k)) {e : Failure}
    (he : r.asSize n = .error e) : Read.mapBegin r = (.error e, r.past k) := by
  have hsize : Read.containerSize n (r.past k) = (.error e, r.past k) := by
    rw [containerSize_eq hn, ← he]
    rfl
  rw [Read.mapBegin, Step.bind_ok h, Step.bind_error hsize]

theorem mapBegin_taken (hn : n < 2 ^ 64) (h : Read.varint r = (.ok n, r.past k))
    {header : Read.MapHeader} (hok : (Read.mapBegin r).1 = .ok header) :
    r.asSize n = .ok header.size := by
  obtain ⟨r', hrun⟩ : ∃ r', Read.mapBegin r = (.ok header, r') := ⟨_, Prod.ext hok rfl⟩
  rw [Read.mapBegin, Step.bind_ok h] at hrun
  obtain ⟨size, r₂, hsize, h₂⟩ := Step.bind_eq_ok.mp hrun
  rw [containerSize_eq hn] at hsize
  obtain ⟨hsized, rfl⟩ := Prod.mk.inj hsize
  split at h₂
  · rename_i hzero
    cases h₂
    exact hzero ▸ hsized
  · obtain ⟨_, _, _, h₃⟩ := Step.bind_eq_ok.mp h₂
    obtain ⟨_, _, _, h₄⟩ := Step.bind_eq_ok.mp h₃
    obtain ⟨_, _, _, h₅⟩ := Step.bind_eq_ok.mp h₄
    cases h₅
    exact hsized

theorem varint_eq (hk : k ≤ bytes.length) (hlen : k ≤ Varint.maxLen)
    (hgroups : Varint.Groups (bytes.take k)) (hr : r.cursor.rest = bytes) :
    Read.varint r = (.ok (Varint.value (bytes.take k) % 2 ^ 64), r.past k) := by
  have hle : (bytes.take k).length ≤ Varint.maxLen := by
    rwa [List.length_take_of_le hk]
  have hc : r.cursor = ⟨r.cursor.before, bytes.take k ++ bytes.drop k⟩ := by
    rw [List.take_append_drop, ← hr]
  rw [Read.varint, Read.ofCursor_ok (hgroups.takes_read hle) hc, Reader.past, hr]

/-- A number is read exactly where at most ten groups stand, and what is read is what they spell
modulo `2 ^ 64`.  That is what they spell exactly when nothing of it lies above 64 bits, and every
number, size and length is read so. -/
theorem meets_decode (bytes : Bytes) (n k : Nat) :
    (decode bytes = .ok (n, k) ↔ k ≤ bytes.length ∧ k ≤ Varint.maxLen ∧
      Varint.Groups (bytes.take k) ∧ n = spelled (bytes.take k) % 2 ^ 64) ∧
    (decode bytes = .ok (n, k) →
      (n = spelled (bytes.take k) ↔ Varint.Fits (bytes.take k)) ∧
      ∀ r : Reader, r.cursor.rest = bytes → r.Meets k n) := by
  rw [Varint.spelled_eq_value]
  refine ⟨Varint.decode_eq_ok, fun h => ?_⟩
  obtain ⟨hk, hlen, hgroups, hvalue⟩ := Varint.decode_eq_ok.mp h
  have hn : n < 2 ^ 64 := hvalue ▸ Nat.mod_lt _ (by decide)
  have hle : (bytes.take k).length ≤ Varint.maxLen := by
    rwa [List.length_take_of_le hk]
  have hread : ∀ r : Reader, r.cursor.rest = bytes → Read.varint r = (.ok n, r.past k) :=
    fun r hr => hvalue ▸ varint_eq hk hlen hgroups hr
  refine ⟨?_, fun r hr => ?_⟩
  · rw [Varint.fits_iff hle]
    omega
  · exact {
      varint := hread r hr
      i16 := i16_eq (hread r hr)
      i32 := i32_eq (hread r hr)
      i64 := by rw [Read.i64, Step.bind_ok (hread r hr)]; rfl
      fieldNumber := by
        rw [Read.fieldNumber, Step.bind_ok (Step.look_apply _ _), if_pos rfl]
        exact i16_eq (hread r hr)
      list := fun header t ht hlong => listBegin_eq hn ht hlong (hread _ hr)
      mapRefused := fun e => mapBegin_refused hn (hread r hr)
      mapTaken := fun header => mapBegin_taken hn (hread r hr)
      binary := binary_eq hn (hread r hr) }

/-- ten groups that spell `2 ^ 64`: the tenth is 2 -/
def lostBit : Bytes := List.replicate 9 0x80 ++ [0x02]

/-- ten groups of which the last two are empty -/
def overlong : Bytes := [0xAC, 0x82] ++ List.replicate 7 0x80 ++ [0x00]

theorem meets_decode_overlong : decode overlong = .ok (300, 10) ∧
    (300 = spelled (overlong.take 10) ↔ Varint.Fits (overlong.take 10)) ∧
    (Reader.ofCursor (.ofBytes overlong) {}).Meets 10 300 :=
  have h : decode overlong = .ok (300, 10) := rfl
  have ⟨hfits, hmeets⟩ := (meets_decode overlong 300 10).2 h
  ⟨h, hfits, hmeets _ rfl⟩

/-- a number that does not fit 64 bits is read, as zero, and so is a number of sixteen bits and the
size of a map -/
theorem not_decode_exact : decode lostBit = .ok (0, 10) ∧ spelled (lostBit.take 10) = 2 ^ 64 ∧
    (Read.i16 (.ofCursor (.ofBytes lostBit) {})).1 = .ok 0 ∧
    (Read.i32 (.ofCursor (.ofBytes lostBit) {})).1 = .ok 0 ∧
    (Read.mapBegin (.ofCursor (.ofBytes lostBit) {})).1 = .ok ⟨none, 0⟩ ∧
    (Read.binary (.ofCursor (.ofBytes lostBit) {})).1 = .ok [] :=
  ⟨rfl, rfl, rfl, rfl, rfl, rfl⟩

end Compact

end Columnar
