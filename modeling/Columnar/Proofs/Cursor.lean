import Columnar.Cursor

/-!
# What a cursor takes

* `Cursor.Takes x bs a`   in front of `bs`, whatever stands before and behind, `x` answers `a`
                          and goes to the end of `bs`.

Round trips are stated with it: what is written is taken.

* `Cursor.Follows c c'`   `c'` stands in the same buffer as `c`, and not before it.
-/

namespace Columnar.Cursor

variable {ε α β : Type}

/-- `x` reads exactly `bs` and answers `a` -/
def Takes (x : Step Cursor ε α) (bs : Bytes) (a : α) : Prop :=
  ∀ before rest, x ⟨before, bs ++ rest⟩ = (.ok a, ⟨bs.reverse ++ before, rest⟩)

theorem takes_pure (a : α) : Takes (pure a : Step Cursor ε α) [] a := fun _ _ => rfl

theorem takes_bind {x : Step Cursor ε α} {f : α → Step Cursor ε β} {s t : Bytes} {a : α} {b : β}
    (hx : Takes x s a) (hf : Takes (f a) t b) : Takes (x >>= f) (s ++ t) b := by
  intro before rest
  rw [List.append_assoc, Step.bind_ok (hx before (t ++ rest)), hf, List.reverse_append,
    List.append_assoc]

theorem takes_view (bs : Bytes) : Takes (view bs.length) bs bs := fun before rest =>
  view_append before bs rest

theorem takes_byte (b : UInt8) : Takes byte [b] b := fun _ _ => rfl

/-! ## moving on -/

/-- `c'` stands in the same buffer as `c`, and not before it -/
structure Follows (c c' : Cursor) : Prop where
  data : c'.data = c.data
  pos : c.pos ≤ c'.pos

theorem Follows.refl (c : Cursor) : c.Follows c := ⟨rfl, Nat.le_refl _⟩

theorem Follows.trans {c₁ c₂ c₃ : Cursor} (h : c₁.Follows c₂) (h' : c₂.Follows c₃) :
    c₁.Follows c₃ := ⟨h'.data.trans h.data, Nat.le_trans h.pos h'.pos⟩

theorem Follows.size {c c' : Cursor} (h : c.Follows c') : c'.size = c.size := by
  rw [← data_length, ← data_length, h.data]

/-- what was passed is no longer left -/
theorem Follows.remaining {c c' : Cursor} (h : c.Follows c') :
    c'.pos + c'.remaining = c.pos + c.remaining := h.size

theorem view_follows (n : Nat) (c : Cursor) : c.Follows (view n c).2 := by
  refine ⟨view_data n c, ?_⟩
  rw [view_eq]
  split
  · simp only [pos, List.length_append]
    exact Nat.le_add_left _ _
  · exact Nat.le_refl _

/-- a view that was taken is passed -/
theorem view_pos {n : Nat} {c c' : Cursor} {bs : Bytes} (h : view n c = (.ok bs, c')) :
    bs.length = n ∧ c'.pos = c.pos + n := by
  rw [view_eq] at h
  split at h
  · rename_i hle
    cases h
    have hlen : (c.rest.take n).length = n := List.length_take_of_le hle
    refine ⟨hlen, ?_⟩
    simp only [pos, List.length_append, List.length_reverse, hlen]
    exact Nat.add_comm _ _
  · cases h

theorem byte_follows (c : Cursor) : c.Follows (byte c).2 := by
  unfold byte
  split
  · rename_i b rest h
    refine ⟨?_, Nat.le_succ _⟩
    simp [data, h]
  · exact Follows.refl c

/-- a byte that was read is passed -/
theorem byte_pos {c c' : Cursor} {b : UInt8} (h : byte c = (.ok b, c')) : c.pos < c'.pos := by
  unfold byte at h
  split at h
  · cases h
    exact Nat.lt_succ_self _
  · cases h

end Columnar.Cursor
