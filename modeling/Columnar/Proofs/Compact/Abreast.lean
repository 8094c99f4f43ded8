import Columnar.Proofs.Compact.Delimited

/-!
# Readers that keep abreast

Two readers that start at one place keep abreast when they leave the same place behind, as soon as
both of them answer.  A value that is read and a value that is skipped have the same extent then.

* `Read.Still x`             `x` leaves the reader as it is;
* `Read.Shadows x y`         where `x` answers, `y` does, and leaves the same reader;
* `Read.Abreast x y r`       from `r` on, `x` and `y` leave the same reader when both answer;
* `Read.abreast_skipWithin`  how deep a value may be makes no difference to its extent;
* `Read.abreast_i32_iff`, `Read.abreast_string_iff`   the types that are skipped as a number of 32
                             bits is read, and as a text is.
-/

namespace Columnar.Compact.Read

variable {α β γ δ : Type} {r : Reader} {k n : Nat}

/-! ## steps that stay -/

/-- `x` leaves the reader as it is, when it answers -/
def Still (x : Read α) : Prop := ∀ r a s, x r = (.ok a, s) → s = r

theorem still_pure (a : α) : Still (pure a : Read α) := by
  intro r b s h
  cases h
  rfl

theorem still_fail (e : Failure) : Still (Step.fail e : Read α) := fun _ _ _ h => nomatch h

theorem still_lift (e : Except Error α) : Still (liftM e : Read α) := by
  cases e with
  | error e => exact still_fail (Failure.error e)
  | ok a => exact still_pure a

theorem still_ite {p : Prop} [Decidable p] {x y : Read α} (hx : Still x) (hy : Still y) :
    Still (if p then x else y) := by
  split
  · exact hx
  · exact hy

theorem still_reserve (n room : Nat) : Still (reserve n room) :=
  still_ite (still_fail _) (still_pure ())

/-! ## shadows -/

/-- where `x` answers, `y` does, and leaves the same reader -/
def Shadows (x : Read α) (y : Read β) : Prop := ∀ r a s, x r = (.ok a, s) → ∃ b, y r = (.ok b, s)

theorem shadows_bind {x : Read α} {f : α → Read β} (hf : ∀ a, Still (f a)) :
    Shadows (x >>= f) x := by
  intro r b s h
  obtain ⟨a, r', h₁, h₂⟩ := Step.bind_eq_ok.mp h
  rw [hf a r' b s h₂]
  exact ⟨a, h₁⟩

theorem Shadows.refl (x : Read α) : Shadows x x := fun _ a _ h => ⟨a, h⟩

theorem Shadows.trans {x : Read α} {y : Read β} {z : Read γ} (h : Shadows x y)
    (h' : Shadows y z) : Shadows x z := by
  intro r a s hx
  obtain ⟨b, hy⟩ := h r a s hx
  exact h' r b s hy

/-- a number that has to fit some bits is as long as any number -/
theorem shadows_folded (bits : Nat) : Shadows (folded bits) varint :=
  shadows_bind fun _ => still_ite (still_pure _) (still_fail _)

theorem shadows_i16 : Shadows i16 varint :=
  (shadows_bind fun _ => still_pure _).trans (shadows_folded 16)

theorem shadows_i32 : Shadows i32 varint :=
  (shadows_bind fun _ => still_pure _).trans (shadows_folded 32)

theorem shadows_i64 : Shadows i64 varint := shadows_bind fun _ => still_pure _

theorem shadows_string : Shadows string binary := by
  refine shadows_bind fun bs => ?_
  cases Utf8.decode bs with
  | error f => exact still_fail _
  | ok s => exact still_pure s

/-- what is read for its extent -/
theorem shadows_extent (x : Read α) : Shadows (do let _ ← x) x :=
  shadows_bind fun _ => still_pure ()

/-! ## abreast -/

/-- from `r` on, `x` and `y` leave the same reader when both answer -/
def Abreast (x : Read α) (y : Read β) (r : Reader) : Prop :=
  ∀ a s b s', x r = (.ok a, s) → y r = (.ok b, s') → s = s'

theorem abreast_refl (x : Read α) : Abreast x x r := by
  intro a s b s' hx hy
  rw [hx] at hy
  cases hy
  rfl

/-- two shadows of one reader -/
theorem Shadows.abreast {x : Read α} {y : Read β} {z : Read γ} (hx : Shadows x z)
    (hy : Shadows y z) : Abreast x y r := by
  intro a s b s' h h'
  obtain ⟨c, hz⟩ := hx r a s h
  obtain ⟨c', hz'⟩ := hy r b s' h'
  exact abreast_refl z c s c' s' hz hz'

theorem abreast_fail_left (e : Failure) (y : Read β) : Abreast (Step.fail e : Read α) y r :=
  fun _ _ _ _ h => nomatch h

theorem abreast_fail_right (x : Read α) (e : Failure) : Abreast x (Step.fail e : Read β) r :=
  fun _ _ _ _ _ h => nomatch h

theorem abreast_bind {x : Read α} {f : α → Read γ} {y : Read β} {g : β → Read δ}
    (h : Abreast x y r)
    (hf : ∀ a b s, x r = (.ok a, s) → y r = (.ok b, s) → Abreast (f a) (g b) s) :
    Abreast (x >>= f) (y >>= g) r := by
  intro c s d s' hx hy
  obtain ⟨a, t, hx₁, hx₂⟩ := Step.bind_eq_ok.mp hx
  obtain ⟨b, t', hy₁, hy₂⟩ := Step.bind_eq_ok.mp hy
  obtain rfl := h a t b t' hx₁ hy₁
  exact hf a b t hx₁ hy₁ c s d s' hx₂ hy₂

/-- two readers that begin alike -/
theorem abreast_bind_same {x : Read α} {f : α → Read γ} {g : α → Read δ}
    (hf : ∀ a s, x r = (.ok a, s) → Abreast (f a) (g a) s) : Abreast (x >>= f) (x >>= g) r := by
  refine abreast_bind (abreast_refl x) fun a b s hx hy => ?_
  rw [hx] at hy
  cases hy
  exact hf a s hx

/-- what one reader does behind, without reading -/
theorem Abreast.bind_still {x : Read α} {f : α → Read γ} {y : Read β} (h : Abreast x y r)
    (hf : ∀ a, Still (f a)) : Abreast (x >>= f) y r := by
  intro c s b s' hx hy
  obtain ⟨a, t, hx₁, hx₂⟩ := Step.bind_eq_ok.mp hx
  rw [hf a t c s hx₂]
  exact h a t b s' hx₁ hy

/-- what one reader does before, without reading -/
theorem abreast_still_bind {x : Read α} {f : α → Read γ} {y : Read β} (hx : Still x)
    (hf : ∀ a, Abreast (f a) y r) : Abreast (x >>= f) y r := by
  intro c s b s' h hy
  obtain ⟨a, t, h₁, h₂⟩ := Step.bind_eq_ok.mp h
  rw [hx r a t h₁] at h₂
  exact hf a c s b s' h₂ hy

/-! ## repetitions -/

/-- members of a list that are read, and members that are skipped -/
theorem abreast_times {x : Read α} {y : Read Unit} (n : Nat) : ∀ {r : Reader},
    (∀ i < n, ∀ as s, Step.times i x r = (.ok as, s) → Abreast x y s) →
    Abreast (Step.times n x) (Step.replicate n y) r := by
  induction n with
  | zero =>
    intro r _ as s b s' h h'
    cases h
    cases h'
    rfl
  | succ n ih =>
    intro r h
    rw [Step.times_succ, Step.replicate_succ]
    refine abreast_bind (h 0 (Nat.succ_pos n) [] r rfl) fun a _ s hx _ => ?_
    refine (ih fun i hi as s' htimes => ?_).bind_still fun _ => still_pure _
    refine h (i + 1) (Nat.succ_lt_succ hi) (a :: as) s' ?_
    rw [Step.times_succ, Step.bind_ok hx, Step.bind_ok htimes]
    rfl

theorem abreast_replicate {x y : Read Unit} (h : ∀ s, Abreast x y s) (n : Nat) :
    ∀ r, Abreast (Step.replicate n x) (Step.replicate n y) r := by
  induction n with
  | zero => exact fun r => abreast_refl (pure ())
  | succ n ih =>
    intro r
    rw [Step.replicate_succ, Step.replicate_succ]
    exact abreast_bind (h r) fun _ _ s _ _ => ih s

section
variable {f : β → WireType → Int16 → Read β} {g : γ → WireType → Int16 → Read γ}

/-- the fields of a struct, handed on in two ways; `P` is what holds at the fields that the first
way comes to -/
theorem abreast_foldFields {P : Nat → β → Reader → Prop}
    (h : ∀ n b r t id s, P (n + 1) b r → fieldBegin r = (.ok (some (t, id)), s) →
      (∀ c, Abreast (f b t id) (g c t id) s) ∧
      ∀ b' s', f b t id s = (.ok b', s') → P n b' s') (n : Nat) :
    ∀ b c r, P n b r → Abreast (foldFields f n b) (foldFields g n c) r := by
  induction n with
  | zero =>
    intro b c r _ a s a' s' h h'
    cases h
    cases h'
    rfl
  | succ n ih =>
    intro b c r hP
    refine abreast_bind_same fun field s hbegin => ?_
    rcases field with _ | ⟨t, id⟩
    · intro a s a' s' h h'
      cases h
      cases h'
      rfl
    · obtain ⟨hfield, hrest⟩ := h n b r t id s hP hbegin
      exact abreast_bind (hfield c) fun b' c' s' hf _ => ih b' c' s' (hrest b' s' hf)

/-- what is done with the fields of a struct, as it is done inside -/
theorem abreast_foldStruct {b : β} {c : γ}
    (h : Abreast (foldFields f ((inside r).cursor.remaining + 1) b)
      (foldFields g ((inside r).cursor.remaining + 1) c) (inside r)) :
    Abreast (foldStruct f b) (foldStruct g c) r := by
  refine abreast_bind_same fun _ s hbegin => ?_
  have hs : s = inside r := by
    rw [structBegin, Step.state_bind] at hbegin
    split at hbegin
    · cases hbegin
    · cases hbegin
      rfl
  subst hs
  refine abreast_bind_same fun left s hlook => ?_
  cases hlook
  refine abreast_bind h fun b' c' s _ _ => ?_
  exact abreast_bind_same fun _ s' _ a t a' t' h h' => by
    cases h
    cases h'
    rfl

end

/-! ## skipping -/

/-- how deep a value may be makes no difference to its extent -/
theorem abreast_skipWithin (j : Nat) : ∀ k t r, Abreast (skipWithin j t) (skipWithin k t) r := by
  induction j with
  | zero => exact fun k t r => abreast_fail_left _ _
  | succ j ih =>
    intro k t r
    match k with
    | 0 => exact abreast_fail_right _ _
    | k + 1 =>
      have list : Abreast (listBegin >>= fun h => Step.replicate h.2 (skipWithin j h.1))
          (listBegin >>= fun h => Step.replicate h.2 (skipWithin k h.1)) r :=
        abreast_bind_same fun h s _ => abreast_replicate (ih k h.1) h.2 s
      cases t with
      | list => exact list
      | set => exact list
      | map =>
        refine abreast_bind_same fun header s _ => ?_
        split
        · exact abreast_refl _
        · rename_i key value _
          exact abreast_replicate
            (fun s => abreast_bind (ih k key s) fun _ _ s' _ _ => ih k value s') _ s
      | struct =>
        refine abreast_foldStruct (abreast_foldFields (P := fun _ _ _ => True) ?_ _ _ _ _ trivial)
        intro _ _ _ t _ s _ _
        exact ⟨fun _ => ih k t s, fun _ _ _ => trivial⟩
      | _ => exact abreast_refl _

/-- the types that are skipped as a number of 32 bits is read; a stop cannot be skipped -/
def numberTypes : List WireType := [.stop, .i16, .i32, .i64]

/-- the types that are skipped as a text is read -/
def textTypes : List WireType := [.stop, .binary]

/-- what is skipped as `y` is read has the extent of `x`, as soon as both shadow one reader -/
theorem abreast_skip {x : Read α} {y : Read β} {z : Read γ} {t : WireType} (hx : Shadows x z)
    (hy : Shadows y z) (ht : ∀ k, skipWithin (k + 1) t = (do let _ ← y)) (k : Nat) :
    Abreast x (skipWithin k t) r := by
  match k with
  | 0 => exact abreast_fail_right _ _
  | k + 1 =>
    rw [ht]
    exact hx.abreast ((shadows_extent y).trans hy)

theorem abreast_stop (x : Read α) (k : Nat) : Abreast x (skipWithin k .stop) r := by
  match k with
  | 0 => exact abreast_fail_right _ _
  | _ + 1 => exact abreast_fail_right _ _

/-- a list that is skipped, and one whose elements are read -/
theorem abreast_list {f : WireType × Nat → Read α}
    (h : ∀ t n s, listBegin r = (.ok (t, n), s) →
      ∀ k, Abreast (f (t, n)) (Step.replicate n (skipWithin k t)) s) (k : Nat) :
    Abreast (listBegin >>= f) (skipWithin k .list) r := by
  match k with
  | 0 => exact abreast_fail_right _ _
  | k + 1 => exact abreast_bind_same fun header s hlist => h header.1 header.2 s hlist k

theorem abreast_i32 {t : WireType} (ht : t ∈ numberTypes) (k : Nat) :
    Abreast i32 (skipWithin k t) r := by
  rcases List.mem_cons.mp ht with rfl | ht
  · exact abreast_stop i32 k
  rcases List.mem_cons.mp ht with rfl | ht
  · exact abreast_skip shadows_i32 shadows_i16 (fun _ => rfl) k
  rcases List.mem_cons.mp ht with rfl | ht
  · exact abreast_skip shadows_i32 shadows_i32 (fun _ => rfl) k
  obtain rfl := List.mem_singleton.mp ht
  exact abreast_skip shadows_i32 shadows_i64 (fun _ => rfl) k

theorem abreast_string {t : WireType} (ht : t ∈ textTypes) (k : Nat) :
    Abreast string (skipWithin k t) r := by
  rcases List.mem_cons.mp ht with rfl | ht
  · exact abreast_stop string k
  obtain rfl := List.mem_singleton.mp ht
  exact abreast_skip shadows_string (.refl binary) (fun _ => rfl) k

/-- bytes in front of which a reader goes another way than another -/
theorem not_abreast {x : Read α} {y : Read β} (bs : Bytes)
    (hx : (x (.ofCursor (.ofBytes bs) {})).1.isOk = true)
    (hy : (y (.ofCursor (.ofBytes bs) {})).1.isOk = true)
    (hne : (x (.ofCursor (.ofBytes bs) {})).2 ≠ (y (.ofCursor (.ofBytes bs) {})).2) :
    ∃ r, ¬ Abreast x y r := by
  refine ⟨.ofCursor (.ofBytes bs) {}, fun h => ?_⟩
  rcases hrun : x (.ofCursor (.ofBytes bs) {}) with ⟨e | a, s⟩
  · rw [hrun] at hx
    cases hx
  rcases hrun' : y (.ofCursor (.ofBytes bs) {}) with ⟨e | b, s'⟩
  · rw [hrun'] at hy
    cases hy
  rw [hrun, hrun'] at hne
  exact hne (h a s b s' hrun hrun')

/-- no other type is skipped as a number of 32 bits is read -/
theorem abreast_i32_iff {t : WireType} : (∀ r, Abreast i32 (skip t) r) ↔ t ∈ numberTypes := by
  refine ⟨fun h => ?_, fun ht r => abreast_i32 ht maxSkipDepth⟩
  refine Decidable.byContradiction fun hne => ?_
  have hother : ∃ r, ¬ Abreast i32 (skip t) r := by
    cases t with
    | bool => exact not_abreast [0x80, 0] (by decide) (by decide) (by decide)
    | i8 => exact not_abreast [0x80, 0] (by decide) (by decide) (by decide)
    | double => exact not_abreast [0, 0, 0, 0, 0, 0, 0, 0] (by decide) (by decide) (by decide)
    | binary => exact not_abreast [2, 0, 0] (by decide) (by decide) (by decide)
    | list => exact not_abreast [0x12, 0] (by decide) (by decide) (by decide)
    | set => exact not_abreast [0x12, 0] (by decide) (by decide) (by decide)
    | map => exact not_abreast [2, 0x33, 0, 0, 0, 0] (by decide) (by decide) (by decide)
    | struct => exact not_abreast [0x12, 0] (by decide) (by decide) (by decide)
    | _ => exact absurd (by decide) hne
  obtain ⟨r, hr⟩ := hother
  exact hr (h r)

/-- no other type is skipped as a text is read -/
theorem abreast_string_iff {t : WireType} : (∀ r, Abreast string (skip t) r) ↔ t ∈ textTypes := by
  refine ⟨fun h => ?_, fun ht r => abreast_string ht maxSkipDepth⟩
  refine Decidable.byContradiction fun hne => ?_
  have hother : ∃ r, ¬ Abreast string (skip t) r := by
    cases t with
    | double => exact not_abreast [0, 0, 0, 0, 0, 0, 0, 0] (by decide) (by decide) (by decide)
    | map => exact not_abreast [1, 0x33, 0, 0] (by decide) (by decide) (by decide)
    | struct => exact not_abreast [1, 0, 0] (by decide) (by decide) (by decide)
    | stop => exact absurd (by decide) hne
    | binary => exact absurd (by decide) hne
    | _ => exact not_abreast [1, 0] (by decide) (by decide) (by decide)
  obtain ⟨r, hr⟩ := hother
  exact hr (h r)

end Columnar.Compact.Read
