import Columnar.Text.Utf8

/-!
# UTF-8 is read back

* `Utf8.decode_encode`       a text is read back from its bytes;
* `Utf8.encode_of_decode`    bytes that are read as a text are the bytes of that text, so a text
                             has one form only.

Both go character by character; `chars_one` to `chars_four` are the four ways to write one.
-/

namespace Columnar.Utf8

theorem continues_iff (b : UInt8) : Continues b ↔ 128 ≤ b.toNat ∧ b.toNat ≤ 191 :=
  and_congr UInt8.le_iff_toNat_le UInt8.le_iff_toNat_le

theorem second3_iff (b₀ b₁ : UInt8) : Second3 b₀ b₁ ↔
    Continues b₁ ∧ (b₀.toNat = 224 → 160 ≤ b₁.toNat) ∧ (b₀.toNat = 237 → b₁.toNat ≤ 159) :=
  and_congr Iff.rfl (and_congr
    (imp_congr UInt8.toNat_inj.symm UInt8.le_iff_toNat_le)
    (imp_congr UInt8.toNat_inj.symm UInt8.le_iff_toNat_le))

theorem second4_iff (b₀ b₁ : UInt8) : Second4 b₀ b₁ ↔
    Continues b₁ ∧ (b₀.toNat = 240 → 144 ≤ b₁.toNat) ∧ (b₀.toNat = 244 → b₁.toNat ≤ 143) :=
  and_congr Iff.rfl (and_congr
    (imp_congr UInt8.toNat_inj.symm UInt8.le_iff_toNat_le)
    (imp_congr UInt8.toNat_inj.symm UInt8.le_iff_toNat_le))

/-! ## the four ways to write a character -/

section
variable {pos : Nat} {b₀ b₁ b₂ b₃ : UInt8} {t : Bytes}

private theorem lt_iff {n : UInt8} : b₀ < n ↔ b₀.toNat < n.toNat := UInt8.lt_iff_toNat_lt

private theorem ge_of_not {n : UInt8} (h : ¬ b₀ < n) : n.toNat ≤ b₀.toNat :=
  Nat.not_lt.mp fun k => h (lt_iff.mpr k)

theorem chars_one (h : b₀.toNat < 128) :
    chars pos (b₀ :: t) = (Char.ofNat b₀.toNat :: ·) <$> chars (pos + 1) t := by
  have y : b₀ < 0x80 := lt_iff.mpr h
  conv => lhs; unfold chars
  rw [if_pos y]

theorem chars_two (h : 194 ≤ b₀.toNat) (h' : b₀.toNat < 224) (h₁ : Continues b₁) :
    chars pos (b₀ :: b₁ :: t) =
      (Char.ofNat (b₀.toNat % 32 * 64 + low b₁) :: ·) <$> chars (pos + 2) t := by
  have n₁ : ¬ b₀ < 0x80 := fun k => Nat.not_lt.mpr (Nat.le_trans (by decide) h) (lt_iff.mp k)
  have n₂ : ¬ b₀ < 0xC2 := fun k => Nat.not_lt.mpr h (lt_iff.mp k)
  have y : b₀ < 0xE0 := lt_iff.mpr h'
  conv => lhs; unfold chars
  rw [if_neg n₁, if_neg n₂]
  dsimp only
  rw [if_pos y, if_pos h₁]

theorem chars_three (h : 224 ≤ b₀.toNat) (h' : b₀.toNat < 240) (h₁ : Second3 b₀ b₁)
    (h₂ : Continues b₂) : chars pos (b₀ :: b₁ :: b₂ :: t) =
      (Char.ofNat (b₀.toNat % 16 * 4096 + low b₁ * 64 + low b₂) :: ·) <$> chars (pos + 3) t := by
  have n₁ : ¬ b₀ < 0x80 := fun k => Nat.not_lt.mpr (Nat.le_trans (by decide) h) (lt_iff.mp k)
  have n₂ : ¬ b₀ < 0xC2 := fun k => Nat.not_lt.mpr (Nat.le_trans (by decide) h) (lt_iff.mp k)
  have n₃ : ¬ b₀ < 0xE0 := fun k => Nat.not_lt.mpr h (lt_iff.mp k)
  have y : b₀ < 0xF0 := lt_iff.mpr h'
  conv => lhs; unfold chars
  rw [if_neg n₁, if_neg n₂]
  dsimp only
  rw [if_neg n₃, if_pos y, if_pos h₁, if_pos h₂]

theorem chars_four (h : 240 ≤ b₀.toNat) (h' : b₀.toNat ≤ 244) (h₁ : Second4 b₀ b₁)
    (h₂ : Continues b₂) (h₃ : Continues b₃) : chars pos (b₀ :: b₁ :: b₂ :: b₃ :: t) =
      (Char.ofNat (b₀.toNat % 8 * 262144 + low b₁ * 4096 + low b₂ * 64 + low b₃) :: ·) <$>
        chars (pos + 4) t := by
  have n₁ : ¬ b₀ < 0x80 := fun k => Nat.not_lt.mpr (Nat.le_trans (by decide) h) (lt_iff.mp k)
  have n₂ : ¬ b₀ < 0xC2 := fun k => Nat.not_lt.mpr (Nat.le_trans (by decide) h) (lt_iff.mp k)
  have n₃ : ¬ b₀ < 0xE0 := fun k => Nat.not_lt.mpr (Nat.le_trans (by decide) h) (lt_iff.mp k)
  have n₄ : ¬ b₀ < 0xF0 := fun k => Nat.not_lt.mpr h (lt_iff.mp k)
  have y : b₀ ≤ 0xF4 := UInt8.le_iff_toNat_le.mpr h'
  conv => lhs; unfold chars
  rw [if_neg n₁, if_neg n₂]
  dsimp only
  rw [if_neg n₃, if_neg n₄, if_pos ⟨y, h₁⟩, if_pos h₂, if_pos h₃]

end

/-! ## reading what was written -/

private theorem toNat_ofNat {n : Nat} (h : n < 256) : (UInt8.ofNat n).toNat = n := by
  rw [UInt8.toNat_ofNat', Nat.mod_eq_of_lt h]

private theorem continues_ofNat (v : Nat) :
    Continues (UInt8.ofNat (v % 64 + 128)) ∧ low (UInt8.ofNat (v % 64 + 128)) = v % 64 := by
  rw [continues_iff, low, toNat_ofNat (by omega)]
  omega

theorem chars_encodeChar (pos : Nat) (c : Char) (rest : Bytes) :
    chars pos (String.utf8EncodeChar c ++ rest) =
      (c :: ·) <$> chars (pos + (String.utf8EncodeChar c).length) rest := by
  have hv : c.val.toNat < 0xd800 ∨ (0xdfff < c.val.toNat ∧ c.val.toNat < 0x110000) := c.valid
  have hc : Char.ofNat c.val.toNat = c := Char.ofNat_toNat c
  unfold String.utf8EncodeChar
  generalize c.val.toNat = v at *
  dsimp only
  split
  · rename_i h₁
    have e := toNat_ofNat (n := v) (by omega)
    rw [List.singleton_append, chars_one (by omega), e, hc]
    rfl
  · split
    · have e := toNat_ofNat (n := v / 64 % 32 + 192) (by omega)
      obtain ⟨k₁, l₁⟩ := continues_ofNat v
      rw [List.cons_append, List.singleton_append, chars_two (by omega) (by omega) k₁, e, l₁,
        show (v / 64 % 32 + 192) % 32 * 64 + v % 64 = v by omega, hc]
      rfl
    · split
      · have e := toNat_ofNat (n := v / 4096 % 16 + 224) (by omega)
        have e₁ := toNat_ofNat (n := v / 64 % 64 + 128) (by omega)
        obtain ⟨k₁, l₁⟩ := continues_ofNat (v / 64)
        obtain ⟨k₂, l₂⟩ := continues_ofNat v
        have s₁ : Second3 (UInt8.ofNat (v / 4096 % 16 + 224))
            (UInt8.ofNat (v / 64 % 64 + 128)) := by
          rw [second3_iff, e, e₁]
          exact ⟨k₁, by omega, by omega⟩
        rw [List.cons_append, List.cons_append, List.singleton_append,
          chars_three (by omega) (by omega) s₁ k₂, e, l₁, l₂,
          show (v / 4096 % 16 + 224) % 16 * 4096 + v / 64 % 64 * 64 + v % 64 = v by omega, hc]
        rfl
      · have e := toNat_ofNat (n := v / 262144 % 8 + 240) (by omega)
        have e₁ := toNat_ofNat (n := v / 4096 % 64 + 128) (by omega)
        obtain ⟨k₁, l₁⟩ := continues_ofNat (v / 4096)
        obtain ⟨k₂, l₂⟩ := continues_ofNat (v / 64)
        obtain ⟨k₃, l₃⟩ := continues_ofNat v
        have s₁ : Second4 (UInt8.ofNat (v / 262144 % 8 + 240))
            (UInt8.ofNat (v / 4096 % 64 + 128)) := by
          rw [second4_iff, e, e₁]
          exact ⟨k₁, by omega, by omega⟩
        rw [List.cons_append, List.cons_append, List.cons_append, List.singleton_append,
          chars_four (by omega) (by omega) s₁ k₂ k₃, e, l₁, l₂, l₃,
          show (v / 262144 % 8 + 240) % 8 * 262144 + v / 4096 % 64 * 4096 + v / 64 % 64 * 64 +
            v % 64 = v by omega, hc]
        rfl

theorem chars_flatMap (pos : Nat) (cs : List Char) :
    chars pos (cs.flatMap String.utf8EncodeChar) = .ok cs := by
  induction cs generalizing pos with
  | nil => rfl
  | cons c cs ih =>
    rw [List.flatMap_cons, chars_encodeChar, ih]
    rfl

/-- a text is read back from its bytes -/
theorem decode_encode (s : String) : decode (encode s) = .ok s := by
  rw [decode, encode, chars_flatMap]
  exact congrArg Except.ok String.ofList_toList

/-! ## writing what was read -/

private theorem val_ofNat {v : Nat} (h : v < 0xd800 ∨ (0xdfff < v ∧ v < 0x110000)) :
    (Char.ofNat v).val.toNat = v := by
  have hv : v.isValidChar := h
  rw [Char.ofNat, dif_pos hv]
  rfl

private theorem ofNat_eq {b : UInt8} {n : Nat} (h : n = b.toNat) : UInt8.ofNat n = b := by
  rw [h, UInt8.ofNat_toNat]

theorem encodeChar_one {b₀ : UInt8} (h : b₀.toNat < 128) :
    String.utf8EncodeChar (Char.ofNat b₀.toNat) = [b₀] := by
  unfold String.utf8EncodeChar
  rw [val_ofNat (by omega)]
  dsimp only
  rw [if_pos (by omega), ofNat_eq rfl]

theorem encodeChar_two {b₀ b₁ : UInt8} (h : 194 ≤ b₀.toNat) (h' : b₀.toNat < 224)
    (h₁ : Continues b₁) :
    String.utf8EncodeChar (Char.ofNat (b₀.toNat % 32 * 64 + low b₁)) = [b₀, b₁] := by
  rw [continues_iff] at h₁
  unfold String.utf8EncodeChar low
  rw [val_ofNat (by omega)]
  dsimp only
  rw [if_neg (by omega), if_pos (by omega), ofNat_eq (b := b₀) (by omega),
    ofNat_eq (b := b₁) (by omega)]

theorem encodeChar_three {b₀ b₁ b₂ : UInt8} (h : 224 ≤ b₀.toNat) (h' : b₀.toNat < 240)
    (h₁ : Second3 b₀ b₁) (h₂ : Continues b₂) :
    String.utf8EncodeChar (Char.ofNat (b₀.toNat % 16 * 4096 + low b₁ * 64 + low b₂)) =
      [b₀, b₁, b₂] := by
  rw [second3_iff, continues_iff] at h₁
  rw [continues_iff] at h₂
  unfold String.utf8EncodeChar low
  rw [val_ofNat (by omega)]
  dsimp only
  rw [if_neg (by omega), if_neg (by omega), if_pos (by omega), ofNat_eq (b := b₀) (by omega),
    ofNat_eq (b := b₁) (by omega), ofNat_eq (b := b₂) (by omega)]

theorem encodeChar_four {b₀ b₁ b₂ b₃ : UInt8} (h : 240 ≤ b₀.toNat) (h' : b₀.toNat ≤ 244)
    (h₁ : Second4 b₀ b₁) (h₂ : Continues b₂) (h₃ : Continues b₃) :
    String.utf8EncodeChar
        (Char.ofNat (b₀.toNat % 8 * 262144 + low b₁ * 4096 + low b₂ * 64 + low b₃)) =
      [b₀, b₁, b₂, b₃] := by
  rw [second4_iff, continues_iff] at h₁
  rw [continues_iff] at h₂ h₃
  unfold String.utf8EncodeChar low
  rw [val_ofNat (by omega)]
  dsimp only
  rw [if_neg (by omega), if_neg (by omega), if_neg (by omega), ofNat_eq (b := b₀) (by omega),
    ofNat_eq (b := b₁) (by omega), ofNat_eq (b := b₂) (by omega), ofNat_eq (b := b₃) (by omega)]

/-- a front whose character was read, and the rest behind it -/
private theorem flatMap_cons_of_map {c : Char} {x : Except Utf8Fault (List Char)} {cs : List Char}
    {front t : Bytes} (h : (c :: ·) <$> x = .ok cs) (hc : String.utf8EncodeChar c = front)
    (ih : ∀ {cs : List Char}, x = .ok cs → cs.flatMap String.utf8EncodeChar = t) :
    cs.flatMap String.utf8EncodeChar = front ++ t := by
  cases x with
  | error e => nomatch h
  | ok ds =>
    cases h
    rw [List.flatMap_cons, hc, ih rfl]

theorem flatMap_of_chars {pos : Nat} {bs : Bytes} {cs : List Char} (h : chars pos bs = .ok cs) :
    cs.flatMap String.utf8EncodeChar = bs := by
  -- the other thirteen cases are failures
  fun_induction chars pos bs generalizing cs with
  | case1 =>
    cases h
    rfl
  | case2 pos b₀ t y ih =>
    exact flatMap_cons_of_map h (encodeChar_one (lt_iff.mp y)) ih
  | case6 pos b₀ n₁ n₂ b₁ t y h₁ ih =>
    exact flatMap_cons_of_map h (encodeChar_two (ge_of_not n₂) (lt_iff.mp y) h₁) ih
  | case9 pos b₀ n₁ n₂ b₁ n₃ y h₁ b₂ t h₂ ih =>
    exact flatMap_cons_of_map h (encodeChar_three (ge_of_not n₃) (lt_iff.mp y) h₁ h₂) ih
  | case14 pos b₀ n₁ n₂ b₁ n₃ n₄ h₁ b₂ h₂ b₃ t h₃ ih =>
    exact flatMap_cons_of_map h
      (encodeChar_four (ge_of_not n₄) (UInt8.le_iff_toNat_le.mp h₁.1) h₁.2 h₂ h₃) ih
  | _ => nomatch h

/-- bytes that are read as a text are the bytes of that text -/
theorem encode_of_decode {bs : Bytes} {s : String} (h : decode bs = .ok s) : encode s = bs := by
  unfold decode at h
  cases hc : chars 0 bs with
  | error e =>
    rw [hc] at h
    nomatch h
  | ok cs =>
    rw [hc] at h
    cases h
    rw [encode, String.toList_ofList]
    exact flatMap_of_chars hc

end Columnar.Utf8
