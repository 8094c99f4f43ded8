import Columnar.Proofs.Cursor
import Columnar.Proofs.Step
import Columnar.Varint

/-!
# Variable-length numbers are read back

* `Varint.value_encode`    the groups of a number spell it;
* `Varint.read_encode`     a number below `2 ^ 64` is read back from what it is written as.
-/

namespace Columnar

namespace Varint

theorem encode_lt {n : Nat} (h : n < 128) : encode n = [UInt8.ofNat n] := by
  rw [encode, if_pos h]

theorem encode_ge {n : Nat} (h : 128 ≤ n) :
    encode n = UInt8.ofNat (n % 128 + 128) :: encode (n / 128) := by
  rw [encode, if_neg (Nat.not_lt.mpr h)]

theorem value_encode (n : Nat) : value (encode n) = n := by
  induction n using Nat.strongRecOn with
  | ind n ih =>
    by_cases h : n < 128
    · have hb : (UInt8.ofNat n).toNat = n := by
        rw [UInt8.toNat_ofNat']
        omega
      rw [encode_lt h, value, value, hb]
      omega
    · have hb : (UInt8.ofNat (n % 128 + 128)).toNat = n % 128 + 128 := by
        rw [UInt8.toNat_ofNat']
        omega
      rw [encode_ge (Nat.le_of_not_lt h), value, hb, ih (n / 128) (by omega)]
      omega

/-- a number of `7 * k` bits needs `k` groups at most -/
theorem encode_length_le {k n : Nat} (hk : 0 < k) (h : n < 2 ^ (7 * k)) :
    (encode n).length ≤ k := by
  induction k generalizing n with
  | zero => omega
  | succ k ih =>
    by_cases hn : n < 128
    · rw [encode_lt hn]
      simp
    · rw [encode_ge (Nat.le_of_not_lt hn), List.length_cons]
      have hk' : 0 < k := by
        rcases Nat.eq_zero_or_pos k with rfl | hk'
        · omega
        · exact hk'
      have hlt : n / 128 < 2 ^ (7 * k) := by
        rw [Nat.div_lt_iff_lt_mul (by decide)]
        have e : 2 ^ (7 * (k + 1)) = 2 ^ (7 * k) * 128 := by
          rw [Nat.mul_succ, Nat.pow_add]
        omega
      exact Nat.succ_le_succ (ih hk' hlt)

theorem encode_ne_nil (n : Nat) : encode n ≠ [] := by
  by_cases h : n < 128
  · rw [encode_lt h]
    simp
  · rw [encode_ge (Nat.le_of_not_lt h)]
    simp

/-- a number of no more groups than may be read is read -/
theorem readGroups_encode {budget n : Nat} (h : (encode n).length ≤ budget) :
    Cursor.Takes (readGroups budget) (encode n) (encode n) := by
  induction budget generalizing n with
  | zero => exact absurd (List.length_eq_zero_iff.mp (Nat.le_zero.mp h)) (encode_ne_nil n)
  | succ budget ih =>
    by_cases hn : n < 128
    · have hb : (UInt8.ofNat n).toNat < 128 := by
        rw [UInt8.toNat_ofNat']
        omega
      rw [encode_lt hn, readGroups]
      apply Cursor.takes_bind (t := []) (Cursor.takes_byte _)
      rw [if_pos hb]
      exact Cursor.takes_pure _
    · have hb : ¬ (UInt8.ofNat (n % 128 + 128)).toNat < 128 := by
        rw [UInt8.toNat_ofNat']
        omega
      rw [encode_ge (Nat.le_of_not_lt hn)] at h ⊢
      have ih' := ih (Nat.le_of_succ_le_succ h)
      rw [readGroups]
      apply Cursor.takes_bind (t := encode (n / 128)) (Cursor.takes_byte _)
      rw [if_neg hb]
      have h' := Cursor.takes_bind ih' (f := fun bs =>
        pure (UInt8.ofNat (n % 128 + 128) :: bs)) (Cursor.takes_pure _)
      rwa [List.append_nil] at h'

theorem read_encode {n : Nat} (h : n < 2 ^ 64) : Cursor.Takes read (encode n) n := by
  have hl : (encode n).length ≤ maxLen :=
    encode_length_le (by decide) (Nat.lt_of_lt_of_le h (by decide))
  have h' := Cursor.takes_bind (readGroups_encode hl) (f := fun bs => pure (value bs % 2 ^ 64))
    (Cursor.takes_pure _)
  rwa [List.append_nil, value_encode, Nat.mod_eq_of_lt h] at h'

/-! ## moving on -/

theorem readGroups_follows (budget : Nat) (c : Cursor) : c.Follows (readGroups budget c).2 := by
  have key : ∀ budget, Step.Maintains c.Follows Step.Any (readGroups budget) := by
    intro budget
    induction budget with
    | zero =>
      exact Step.maintains_bind (P := Step.Any) (Step.maintains_look fun _ _ => trivial) fun _ _ =>
        Step.maintains_fail _
    | succ budget ih =>
      have hbyte : Step.Maintains c.Follows Step.Any Cursor.byte :=
        Step.Maintains.of_forall fun c' h => h.trans (Cursor.byte_follows c')
      apply Step.maintains_bind hbyte
      intro b _
      split
      · exact Step.maintains_pure trivial
      · exact Step.maintains_bind ih fun _ _ => Step.maintains_pure trivial
  exact (key budget c (Cursor.Follows.refl c)).1

theorem read_follows (c : Cursor) : c.Follows (read c).2 := by
  have h := readGroups_follows maxLen c
  rw [read, Step.bind_apply]
  rcases e : readGroups maxLen c with ⟨_ | bs, c'⟩
  · rw [e] at h
    exact h
  · rw [e] at h
    exact h

/-- a number that was read takes a byte at least -/
theorem read_pos {c c' : Cursor} {n : Nat} (h : read c = (.ok n, c')) : c.pos < c'.pos := by
  obtain ⟨bs, c₁, h₁, h₂⟩ := Step.bind_eq_ok.mp h
  obtain ⟨b, c₂, hb, hrest⟩ := Step.bind_eq_ok.mp h₁
  have hlt := Cursor.byte_pos hb
  cases h₂
  split at hrest
  · cases hrest
    exact hlt
  · obtain ⟨cs, c₃, hcs, hpure⟩ := Step.bind_eq_ok.mp hrest
    have hf := (readGroups_follows 9 c₂).pos
    rw [hcs] at hf
    cases hpure
    exact Nat.lt_of_lt_of_le hlt hf

end Varint

namespace Zigzag

/-- a number of `k + 1` signed bits folds into as many unsigned ones -/
theorem fold_lt {n : Int} {k : Nat} (h₁ : -(2 ^ k : Nat) ≤ n) (h₂ : n < (2 ^ k : Nat)) :
    fold n < 2 ^ (k + 1) := by
  have e : 2 ^ (k + 1) = 2 * 2 ^ k := by rw [Nat.pow_succ']
  unfold fold
  split <;> omega

end Zigzag

end Columnar
