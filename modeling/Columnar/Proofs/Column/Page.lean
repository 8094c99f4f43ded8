import Columnar.Column.Reader
import Columnar.Proofs.Plain.Decoder

/-!
# The slots of a page at once and in batches

A page read as a whole says what it says in parts, wherever the parts end.

* `PageValues.next dictionary`         the next value, by its index where a page holds indices;
* `OpenPage.slots dictionary n page`   the next `n` slots at once: all levels, then all values;
* `OpenPage.takeSlots_spec`            a part that goes into a batch, or fails.
-/

namespace Columnar

/-- a step seen through an embedding of its states, and the same many times -/
theorem Step.times_embed {σ τ ε δ α : Type} {x : Step σ ε α} {y : Step τ δ α} {f : σ → τ}
    {g : ε → δ} (h : ∀ s, y (f s) = ((x s).1.mapError g, f (x s).2)) (n : Nat) (s : σ) :
    times n y (f s) = ((times n x s).1.mapError g, f (times n x s).2) := by
  induction n generalizing s with
  | zero => rfl
  | succ n ih =>
    rw [times_succ, times_succ, bind_apply, bind_apply, h s]
    rcases x s with ⟨_ | a, s'⟩
    · rfl
    · show (times n y >>= fun as => pure (a :: as)) (f s') =
        (((times n x >>= fun as => pure (a :: as)) s').1.mapError g,
          f ((times n x >>= fun as => pure (a :: as)) s').2)
      rw [bind_apply, bind_apply, ih s']
      rcases times n x s' with ⟨_ | as, s''⟩
      · rfl
      · rfl

/-! ## values -/

namespace PageValues

/-- the next value of a page, by its index where the page holds indices -/
def next (dictionary : List Value) : Step PageValues Failure Value := fun p =>
  match p with
  | plain d => (((Plain.Decoder.value : Step Plain.Decoder Failure Value) d).1,
      plain (Plain.Decoder.value d).2)
  | indices d => ((OpenPage.lookUp dictionary d).1, indices (OpenPage.lookUp dictionary d).2)

/-- the bytes that were not read -/
def remaining : PageValues → Nat
  | plain d => d.remaining
  | indices d => d.stream.remaining

/-- the width of plain values, where all have one width -/
def width : PageValues → Nat
  | plain d => d.width
  | indices _ => 0

/-- how the values of a page are read on -/
structure Follows (p q : PageValues) : Prop where
  consumed : p.consumed ≤ q.consumed
  size : q.consumed + q.remaining = p.consumed + p.remaining
  width : q.width = p.width

theorem Follows.refl (p : PageValues) : p.Follows p := ⟨Nat.le_refl _, rfl, rfl⟩

theorem Follows.trans {p q r : PageValues} (h : p.Follows q) (h' : q.Follows r) : p.Follows r :=
  ⟨Nat.le_trans h.consumed h'.consumed, h'.size.trans h.size, h'.width.trans h.width⟩

theorem follows_plain {d e : Plain.Decoder} (h : d.Follows e) : (plain d).Follows (plain e) :=
  ⟨h.cursor.pos, h.cursor.remaining, h.width⟩

theorem follows_indices {d e : Hybrid.Decoder} (h : d.Follows e) :
    (indices d).Follows (indices e) := ⟨h.stream.pos, h.stream.remaining, rfl⟩

theorem lookUp_maintains (dictionary : List Value) (d : Hybrid.Decoder) :
    Step.Maintains d.Follows Step.Any (OpenPage.lookUp dictionary) := by
  refine Step.maintains_bind (Step.maintains_mapError (Hybrid.Decoder.next_maintains d))
    fun i _ => ?_
  split
  · exact Step.maintains_fail _
  · exact Step.maintains_pure trivial

theorem next_maintains (dictionary : List Value) (p : PageValues) :
    Step.Maintains p.Follows Step.Any (next dictionary) := by
  refine Step.Maintains.of_forall fun q h => h.trans ?_
  match q with
  | plain d => exact follows_plain (Plain.Decoder.value_maintains d d (.refl d)).1
  | indices d => exact follows_indices (lookUp_maintains dictionary d d (.refl d)).1

theorem times_plain (dictionary : List Value) (n : Nat) (d : Plain.Decoder) :
    Step.times n (next dictionary) (plain d) =
      ((Step.times n Plain.Decoder.value d).1.mapError Failure.error,
        plain (Step.times n Plain.Decoder.value d).2) := by
  refine Step.times_embed (f := plain) (fun d => ?_) n d
  show (_, _) = (_, _)
  rcases e : Plain.Decoder.value d with ⟨x | v, d'⟩
  · rw [Step.lift_error e]; rfl
  · rw [Step.lift_ok e]; rfl

theorem times_indices (dictionary : List Value) (n : Nat) (d : Hybrid.Decoder) :
    Step.times n (next dictionary) (indices d) =
      ((Step.times n (OpenPage.lookUp dictionary) d).1.mapError id,
        indices (Step.times n (OpenPage.lookUp dictionary) d).2) := by
  refine Step.times_embed (f := indices) (g := id) (fun d => ?_) n d
  show (_, _) = (_, _)
  rcases e : OpenPage.lookUp dictionary d with ⟨x | v, d'⟩
  · rfl
  · rfl

end PageValues

namespace OpenPage

/-- values put into a batch are what as many single values are -/
theorem takeValues_puts (dictionary : List Value) {n : Nat} {p : PageValues}
    (hwidth : p.width * n < 2 ^ 64) (b : Batch) (hb : b.values.length + n ≤ batchSize) :
    Batch.PutsAs b (Step.times n (PageValues.next dictionary) p)
      (takeValues dictionary n (p, b)) := by
  match p with
  | .plain d =>
    have h := Plain.Decoder.values_puts hwidth b hb
    rw [PageValues.times_plain]
    rcases e : Step.times n Plain.Decoder.value d with ⟨x | vs, d'⟩
    · rw [e] at h
      obtain ⟨x', t, h⟩ := h
      refine ⟨x', (.plain t.1, t.2), ?_⟩
      simp only [takeValues, h]
    · rw [e] at h
      replace h : Plain.Decoder.values n (d, b) = _ := h
      show takeValues dictionary n (.plain d, b) = _
      simp only [takeValues, h]
  | .indices d =>
    have h := Batch.pushEach_puts (x := lookUp dictionary) (fun _ _ _ e => e)
      (fun _ e' t e => ⟨e', t, e⟩) n d b hb
    rw [PageValues.times_indices]
    rcases e : Step.times n (lookUp dictionary) d with ⟨x | vs, d'⟩
    · rw [e] at h
      obtain ⟨x', t, h⟩ := h
      refine ⟨x', (.indices t.1, t.2), ?_⟩
      simp only [takeValues, h]
    · rw [e] at h
      replace h : Batch.pushEach (lookUp dictionary) n (d, b) = _ := h
      show takeValues dictionary n (.indices d, b) = _
      simp only [takeValues, h]

/-! ## slots -/

/-- the next `n` slots of a page at once: all levels, then the values of those that are not
zero -/
def slots (dictionary : List Value) (n : Nat) (p : OpenPage) :
    Except Failure (List (Option Value)) := do
  let levels ← ((Step.times n Hybrid.Decoder.next).answer p.levels).mapError Failure.error
  let values ← (Step.times (levels.countP (· != 0)) (PageValues.next dictionary)).answer p.values
  pure (weave levels values)

/-- the bytes of a page that were not read -/
def left (p : OpenPage) : Nat := p.levels.stream.remaining + p.values.remaining

/-- how a page is read on -/
structure Follows (p q : OpenPage) : Prop where
  levels : p.levels.Follows q.levels
  values : p.values.Follows q.values

theorem slots_of_error {dictionary : List Value} {n : Nat} {p : OpenPage} {x : Error}
    {l : Hybrid.Decoder} (h : Step.times n Hybrid.Decoder.next p.levels = (.error x, l)) :
    p.slots dictionary n = .error (.error x) := by
  rw [slots, Step.answer, h]
  rfl

theorem slots_of_ok {dictionary : List Value} {n : Nat} {p : OpenPage} {ls : List Nat}
    {l : Hybrid.Decoder} (h : Step.times n Hybrid.Decoder.next p.levels = (.ok ls, l)) :
    p.slots dictionary n = (weave ls ·) <$>
      (Step.times (ls.countP (· != 0)) (PageValues.next dictionary) p.values).1 := by
  rw [slots, Step.answer, h]
  show (do
    let values ← (Step.times (ls.countP (· != 0)) (PageValues.next dictionary)).answer p.values
    pure (weave ls values)) = _
  rw [Step.answer]
  cases (Step.times (ls.countP (· != 0)) (PageValues.next dictionary) p.values).1 <;> rfl

/-- a page in two parts, when the levels and values of the first were read -/
theorem slots_add {dictionary : List Value} {count : Nat} {p q : OpenPage} {ls : List Nat}
    {vs : List Value} (hl : Step.times count Hybrid.Decoder.next p.levels = (.ok ls, q.levels))
    (hv : Step.times (ls.countP (· != 0)) (PageValues.next dictionary) p.values =
      (.ok vs, q.values)) (m : Nat) :
    p.slots dictionary (count + m) = (weave ls vs ++ ·) <$> q.slots dictionary m := by
  have hlen := Hybrid.Decoder.length_times hv
  rcases e : Step.times m Hybrid.Decoder.next q.levels with ⟨x | ms, l⟩
  · have h : Step.times (count + m) Hybrid.Decoder.next p.levels = (.error x, l) := by
      rw [Step.times_add, Step.bind_ok hl, Step.bind_error e]
    rw [slots_of_error h, slots_of_error e]
    rfl
  · have h : Step.times (count + m) Hybrid.Decoder.next p.levels = (.ok (ls ++ ms), l) := by
      rw [Step.times_add, Step.bind_ok hl, Step.bind_ok e]
      rfl
    rw [slots_of_ok h, slots_of_ok e, List.countP_append, Step.times_add, Step.bind_ok hv,
      Step.bind_apply]
    rcases Step.times (ms.countP (· != 0)) (PageValues.next dictionary) q.values with ⟨x | ws, _⟩
    · rfl
    · show Except.ok (weave (ls ++ ms) (vs ++ ws)) = Except.ok (weave ls vs ++ weave ms ws)
      rw [weave_append hlen]

/-- what the values do after the levels were read -/
theorem slots_add_error {dictionary : List Value} {count : Nat} {p : OpenPage} {ls : List Nat}
    {l : Hybrid.Decoder} {x : Failure} {t : PageValues}
    (hl : Step.times count Hybrid.Decoder.next p.levels = (.ok ls, l))
    (hv : Step.times (ls.countP (· != 0)) (PageValues.next dictionary) p.values = (.error x, t))
    (m : Nat) : ∃ x', p.slots dictionary (count + m) = .error x' := by
  rcases e : Step.times m Hybrid.Decoder.next l with ⟨y | ms, l'⟩
  · refine ⟨_, slots_of_error (x := y) (l := l') ?_⟩
    rw [Step.times_add, Step.bind_ok hl, Step.bind_error e]
  · have h : Step.times (count + m) Hybrid.Decoder.next p.levels = (.ok (ls ++ ms), l') := by
      rw [Step.times_add, Step.bind_ok hl, Step.bind_ok e]
      rfl
    refine ⟨x, ?_⟩
    rw [slots_of_ok h, List.countP_append, Step.times_add, Step.bind_error hv]
    rfl

/-! ## slots in batches -/

/-- what a part of a page is, once it is in a batch -/
structure Took (dictionary : List Value) (count : Nat) (p q : OpenPage) (b : Batch)
    (s : List (Option Value)) (bytes : Nat) (S : List (Option Value)) : Prop where
  length : S.length = count
  holds : b.Holds (s ++ S)
  follows : p.Follows q
  left : p.left = q.left + bytes
  slots : ∀ m, p.slots dictionary (count + m) = (S ++ ·) <$> q.slots dictionary m

section
variable {dictionary : List Value} {count mask n : Nat} {p : OpenPage} {b : Batch}
  {l : Hybrid.Decoder}

theorem takeSlots_unread {x : Failure}
    (hlevels : Hybrid.Decoder.nullMask count p.levels = (.error x, l)) :
    takeSlots dictionary count (p, b) = (.error x, ({ p with levels := l }, b)) := by
  rw [takeSlots, Step.state_bind]
  refine Step.bind_error ?_ _
  rw [onLevels, Step.on_apply, hlevels]

theorem onLevels_ok (h : Hybrid.Decoder.nullMask count p.levels = (.ok (mask, n), l)) :
    onLevels (Hybrid.Decoder.nullMask count) (p, b) =
      (.ok (mask, n), ({ p with levels := l }, b)) := by
  rw [onLevels, Step.on_apply, h]

theorem takeSlots_error {x : Failure} {t : PageValues × Batch}
    (hlevels : Hybrid.Decoder.nullMask count p.levels = (.ok (mask, n), l))
    (hvalues : takeValues dictionary n (p.values, b) = (.error x, t)) :
    takeSlots dictionary count (p, b) = (.error x, (⟨l, t.1⟩, t.2)) := by
  rw [takeSlots, Step.state_bind]
  refine (Step.bind_ok (onLevels_ok hlevels) _).trans (Step.bind_error ?_ _)
  rw [onValues, Step.on_apply, hvalues]

theorem takeSlots_ok {v : PageValues} {b' : Batch}
    (hlevels : Hybrid.Decoder.nullMask count p.levels = (.ok (mask, n), l))
    (hvalues : takeValues dictionary n (p.values, b) = (.ok (), (v, b')))
    (hl : p.levels.consumed ≤ l.consumed) (hv : p.values.consumed ≤ v.consumed) :
    takeSlots dictionary count (p, b) =
      (.ok (l.consumed - p.levels.consumed + (v.consumed - p.values.consumed)),
        (⟨l, v⟩, b'.cover count mask)) := by
  have hon : onValues (takeValues dictionary n) ({ p with levels := l }, b) =
      (.ok (), (⟨l, v⟩, b')) := by
    rw [onValues, Step.on_apply, hvalues]
  rw [takeSlots, Step.state_bind]
  refine (Step.bind_ok (onLevels_ok hlevels) _).trans ((Step.bind_ok hon _).trans ?_)
  show (do
    let levels ← subtract l.consumed p.levels.consumed
    let values ← subtract v.consumed p.values.consumed
    Step.update fun s => (s.1, s.2.cover count mask)
    pure (levels + values) : Step (OpenPage × Batch) Failure Nat) (⟨l, v⟩, b') = _
  rw [subtract_ok hl, subtract_ok hv]
  rfl

end

/-- a part of a page goes into a batch, and fails only where the whole page does -/
theorem takeSlots_spec (dictionary : List Value) (count : Nat) {p : OpenPage} {b : Batch}
    {s : List (Option Value)} (hl : p.levels.width = 1)
    (hwidth : p.values.width * batchSize < 2 ^ 64) (hb : b.Holds s)
    (hcount : s.length + count ≤ batchSize) :
    (∃ bytes q b' S, takeSlots dictionary count (p, b) = (.ok bytes, (q, b')) ∧
      Took dictionary count p q b' s bytes S) ∨
    ((∃ x t, takeSlots dictionary count (p, b) = (.error x, t)) ∧
      ∀ m, ∃ x, p.slots dictionary (count + m) = .error x) := by
  have hmask := Hybrid.Decoder.nullMask_eq count hl (by
    have : Hybrid.Decoder.maskSize = batchSize := rfl
    omega)
  rcases e : Step.times count Hybrid.Decoder.next p.levels with ⟨x | ls, l⟩
  · rw [e] at hmask
    refine Or.inr ⟨⟨_, _, takeSlots_unread hmask⟩, fun m => ⟨.error x, ?_⟩⟩
    apply slots_of_error (l := l)
    rw [Step.times_add, Step.bind_error e]
  · rw [e] at hmask
    have hlen := Hybrid.Decoder.length_times e
    have hle : ls.countP (· != 0) ≤ count := hlen ▸ List.countP_le_length
    have hroom : b.values.length + ls.countP (· != 0) ≤ batchSize := by
      have := hb.length_values
      omega
    have hw : p.values.width * ls.countP (· != 0) < 2 ^ 64 :=
      Nat.lt_of_le_of_lt (Nat.mul_le_mul_left _ (by omega)) hwidth
    have hputs := takeValues_puts dictionary hw b hroom
    rcases e' : Step.times (ls.countP (· != 0)) (PageValues.next dictionary) p.values with
      ⟨x | vs, t⟩
    · rw [e'] at hputs
      obtain ⟨x', t', hputs⟩ := hputs
      exact Or.inr ⟨⟨x', _, takeSlots_error hmask hputs⟩, slots_add_error e e'⟩
    · rw [e'] at hputs
      have hfl := ((Step.maintains_times (Hybrid.Decoder.next_maintains p.levels) count).of_eq
        (.refl _) e).1
      have hfv := ((Step.maintains_times (PageValues.next_maintains dictionary p.values) _).of_eq
        (.refl _) e').1
      have hcl : p.levels.consumed ≤ l.consumed := hfl.stream.pos
      have hcv := hfv.consumed
      refine Or.inl ⟨_, ⟨l, t⟩, _, weave ls vs, takeSlots_ok hmask hputs hcl hcv,
        (length_weave ls vs).trans hlen, hlen ▸ hb.cover (Hybrid.Decoder.length_times e'),
        ⟨hfl, hfv⟩, ?_, slots_add (q := ⟨l, t⟩) e e'⟩
      -- what was consumed is what is no longer left
      have hlevels := hfl.stream.remaining
      have hvalues := hfv.size
      show p.levels.stream.remaining + p.values.remaining =
        l.stream.remaining + t.remaining + (l.stream.pos - p.levels.stream.pos +
          (t.consumed - p.values.consumed))
      have hpos : p.levels.stream.pos ≤ l.stream.pos := hcl
      omega

end OpenPage

end Columnar
