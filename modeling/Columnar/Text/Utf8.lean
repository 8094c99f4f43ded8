import Columnar.Fault

/-!
# UTF-8

`Utf8.decode` reads a byte string as text or says where it stops being text; `Utf8.encode` is
the other direction.  A character is written in one to four bytes, never in more than it needs,
and never a surrogate.  A bad sequence is as long as the front of it that some character could
begin with, and at least one byte.
-/

namespace Columnar.Utf8

def encode (s : String) : Bytes := s.toList.flatMap String.utf8EncodeChar

/-- the six bits of a byte that continues a character -/
def low (b : UInt8) : Nat := b.toNat % 64

/-- a byte that continues a character -/
def Continues (b : UInt8) : Prop := 0x80 ≤ b ∧ b ≤ 0xBF

instance (b : UInt8) : Decidable (Continues b) := inferInstanceAs (Decidable (_ ∧ _))

/-- a second byte that may follow a first byte of a character of three: no character is written
longer than needed, and surrogates are left out -/
def Second3 (b₀ b₁ : UInt8) : Prop :=
  Continues b₁ ∧ (b₀ = 0xE0 → 0xA0 ≤ b₁) ∧ (b₀ = 0xED → b₁ ≤ 0x9F)

instance (b₀ b₁ : UInt8) : Decidable (Second3 b₀ b₁) := inferInstanceAs (Decidable (_ ∧ _ ∧ _))

/-- a second byte that may follow a first byte of a character of four: no character is written
longer than needed, and none lies above `0x10FFFF` -/
def Second4 (b₀ b₁ : UInt8) : Prop :=
  Continues b₁ ∧ (b₀ = 0xF0 → 0x90 ≤ b₁) ∧ (b₀ = 0xF4 → b₁ ≤ 0x8F)

instance (b₀ b₁ : UInt8) : Decidable (Second4 b₀ b₁) := inferInstanceAs (Decidable (_ ∧ _ ∧ _))

/-- the characters of a byte string that stands at `pos` -/
def chars (pos : Nat) : Bytes → Except Utf8Fault (List Char)
  | [] => .ok []
  | b₀ :: t₀ =>
    if b₀ < 0x80 then (Char.ofNat b₀.toNat :: ·) <$> chars (pos + 1) t₀
    else if b₀ < 0xC2 then .error ⟨pos, some 1⟩
    else match t₀ with
      | [] => if b₀ ≤ 0xF4 then .error ⟨pos, none⟩ else .error ⟨pos, some 1⟩
      | b₁ :: t₁ =>
        if b₀ < 0xE0 then
          if Continues b₁ then
            (Char.ofNat (b₀.toNat % 32 * 64 + low b₁) :: ·) <$> chars (pos + 2) t₁
          else .error ⟨pos, some 1⟩
        else if b₀ < 0xF0 then
          if Second3 b₀ b₁ then
            match t₁ with
            | [] => .error ⟨pos, none⟩
            | b₂ :: t₂ =>
              if Continues b₂ then
                (Char.ofNat (b₀.toNat % 16 * 4096 + low b₁ * 64 + low b₂) :: ·) <$>
                  chars (pos + 3) t₂
              else .error ⟨pos, some 2⟩
          else .error ⟨pos, some 1⟩
        else if b₀ ≤ 0xF4 ∧ Second4 b₀ b₁ then
          match t₁ with
          | [] => .error ⟨pos, none⟩
          | b₂ :: t₂ =>
            if Continues b₂ then
              match t₂ with
              | [] => .error ⟨pos, none⟩
              | b₃ :: t₃ =>
                if Continues b₃ then
                  (Char.ofNat (b₀.toNat % 8 * 262144 + low b₁ * 4096 + low b₂ * 64 + low b₃) :: ·)
                    <$> chars (pos + 4) t₃
                else .error ⟨pos, some 3⟩
            else .error ⟨pos, some 2⟩
        else .error ⟨pos, some 1⟩

/-- the text that a byte string holds -/
def decode (bs : Bytes) : Except Utf8Fault String := String.ofList <$> chars 0 bs

end Columnar.Utf8
