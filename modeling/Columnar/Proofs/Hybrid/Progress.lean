import Columnar.Proofs.Hybrid.Bounds

/-!
# How far levels take a decoder

Levels take a decoder further on in its stream or in its run, whether as many can be read as are
asked for or not.  There is one place that it does not leave: in front of a run whose header
cannot be read.

* `Decoder.Passes d e`         `e` is further on than `d`;
* `Decoder.Blocked d`          `d` stands in front of a run that cannot be begun;
* `Decoder.nullMask_blocked`   no levels are read there, and the decoder stays;
* `Decoder.nullMask_passes`    anywhere else it goes on, even where levels are missing.
-/

namespace Columnar.Hybrid.Decoder

open Step

variable {d e f : Decoder}

/-- `e` is further on than `d`: in the stream, or at the same place of it in the run -/
structure Passes (d e : Decoder) : Prop where
  follows : d.Follows e
  further : e.stream.remaining < d.stream.remaining ∨
    e.stream.remaining = d.stream.remaining ∧ e.run.left < d.run.left

theorem Passes.trans (h : d.Passes e) (h' : e.Passes f) : d.Passes f := by
  refine ⟨h.follows.trans h'.follows, ?_⟩
  have h1 := h.further
  have h2 := h'.further
  omega

/-- what was read of the stream is no longer left -/
theorem passes_of_pos (h : d.Follows e) (hpos : d.stream.pos < e.stream.pos) : d.Passes e := by
  refine ⟨h, Or.inl ?_⟩
  have hrem := h.stream.remaining
  omega

/-- no run is open, and the next one has no header that could be read -/
structure Blocked (d : Decoder) : Prop where
  left : d.run.left = 0
  header : ∃ x, (header d).1 = .error x

/-! ## runs -/

theorem header_error {x : Error} (h : header d = (.error x, e)) : e = d := by
  unfold header at h
  split at h
  · cases h
    rfl
  · split at h
    · cases h
    · cases h
      rfl

/-- a run cannot be begun, or something of it is read -/
theorem readRun_passes (d : Decoder) :
    (∃ x, (header d).1 = .error x ∧ readRun d = (.error x, d)) ∨
      d.stream.pos < (readRun d).2.stream.pos := by
  rcases hhead : header d with ⟨x | n, d₁⟩
  · obtain rfl := header_error hhead
    exact Or.inl ⟨x, rfl, bind_error hhead _⟩
  · have hlt := header_pos hhead
    have hrest {x : Step Decoder Error Run} (hx : Maintains d₁.Follows Any x) :
        d.stream.pos < (x d₁).2.stream.pos :=
      Nat.lt_of_lt_of_le hlt (hx d₁ (.refl d₁)).1.stream.pos
    have hbody (n : Nat) : Maintains d₁.Follows Any (body n) :=
      .of_forall fun e h => h.trans (body_follows n e)
    rw [readRun, bind_ok hhead]
    refine Or.inr (hrest (maintains_bind (P := Any) (maintains_look fun _ _ => trivial) ?_))
    intro width _
    dsimp only
    split
    · split
      · exact maintains_bind (hbody _) fun _ _ => maintains_pure trivial
      · exact maintains_fail _
    · exact maintains_bind (hbody _) fun _ _ => maintains_pure trivial

theorem advance_passes (fuel : Nat) (d : Decoder) :
    (∃ x, (header d).1 = .error x ∧ advance (fuel + 1) d = (.error x, d)) ∨
      d.Passes (advance (fuel + 1) d).2 := by
  have hfollows := (advance_maintains d (fuel + 1) d (.refl d)).1
  rcases readRun_passes d with ⟨x, hx, hrun⟩ | hlt
  · exact Or.inl ⟨x, hx, bind_error hrun _⟩
  · refine Or.inr (passes_of_pos hfollows ?_)
    rw [advance]
    rcases hrun : readRun d with ⟨x | run, d₁⟩
    · rw [hrun] at hlt
      rw [bind_error hrun]
      exact hlt
    · rw [hrun] at hlt
      rw [bind_ok hrun, update_bind]
      split
      · exact Nat.lt_of_lt_of_le hlt (advance_maintains { d₁ with run } fuel _ (.refl _)).1.stream.pos
      · exact hlt

/-- a decoder without an open run is blocked, or goes on -/
theorem ready_passes (h : d.run.left = 0) :
    (d.Blocked ∧ ∃ x, ready d = (.error x, d)) ∨ d.Passes (ready d).2 := by
  have hready : ready d = advance (d.stream.remaining + 1) d := by
    rw [ready, state_bind, if_pos h]
  rw [hready]
  rcases advance_passes d.stream.remaining d with ⟨x, hx, hrun⟩ | hpasses
  · exact Or.inl ⟨⟨h, x, hx⟩, x, hrun⟩
  · exact Or.inr hpasses

/-- a decoder that comes to no value was blocked, or went on -/
theorem ready_fails {x : Error} (h : ready d = (.error x, e)) :
    d.Blocked ∧ e = d ∨ d.Passes e := by
  rcases Nat.eq_zero_or_pos d.run.left with hzero | hpos
  · rcases ready_passes hzero with ⟨hblocked, y, hrun⟩ | hpasses
    · rw [h] at hrun
      cases hrun
      exact Or.inl ⟨hblocked, rfl⟩
    · rw [h] at hpasses
      exact Or.inr hpasses
  · rw [ready_eq hpos] at h
    cases h

theorem ready_blocked (h : d.Blocked) : ∃ x, ready d = (.error x, d) := by
  obtain ⟨x, hx⟩ := h.header
  rcases hhead : header d with ⟨y | n, e⟩
  · obtain rfl := header_error hhead
    refine ⟨y, ?_⟩
    rw [ready, state_bind, if_pos h.left]
    exact bind_error (bind_error hhead _) _
  · rw [hhead] at hx
    cases hx

/-- values that are taken of the run that a decoder comes to -/
theorem passes_take {n : Nat} (h : ready d = (.ok (), e)) (hn : 0 < n) :
    d.Passes { e with run := e.run.drop (min e.run.left n) } := by
  have hleft := ready_left h
  have hdrop : (e.run.drop (min e.run.left n)).left < e.run.left := by
    rw [Run.left_drop]
    omega
  refine ⟨((ready_maintains d).of_eq (.refl d) h).1.setRun _, ?_⟩
  rcases Nat.eq_zero_or_pos d.run.left with hzero | hpos
  · rcases ready_passes hzero with ⟨-, y, hrun⟩ | hpasses
    · rw [h] at hrun
      cases hrun
    · rw [h] at hpasses
      have hread : e.stream.remaining < d.stream.remaining :=
        hpasses.further.resolve_right fun hrun => by omega
      exact Or.inl hread
  · rw [ready_eq hpos] at h
    cases h
    exact Or.inr ⟨rfl, hdrop⟩

/-! ## levels -/

/-- levels take a decoder on, unless none are asked for or it is blocked -/
theorem fillMask_passes (count fuel : Nat) : ∀ (filled mask : Nat) (d : Decoder),
    (fillMask count fuel filled mask d).2 = d ∧ (0 < fuel → filled < count → d.Blocked) ∨
      d.Passes (fillMask count fuel filled mask d).2 := by
  induction fuel with
  | zero => exact fun _ _ _ => Or.inl ⟨rfl, fun h => absurd h (Nat.lt_irrefl 0)⟩
  | succ fuel ih =>
    intro filled mask d
    rw [fillMask]
    by_cases hlt : filled < count
    · rw [if_pos hlt]
      rcases hready : ready d with ⟨x | ⟨⟩, e⟩
      · rw [bind_error hready]
        exact (ready_fails hready).imp_left fun h => ⟨h.2, fun _ _ => h.1⟩
      · have htake := passes_take hready (Nat.sub_pos_of_lt hlt)
        rw [bind_ok hready, state_bind, put_bind]
        rcases ih (filled + min e.run.left (count - filled)) (mask ||| (e.run.zeros
          (min e.run.left (count - filled)) <<< filled)) _ with ⟨hstays, -⟩ | hpasses
        · exact Or.inr (hstays ▸ htake)
        · exact Or.inr (htake.trans hpasses)
    · rw [if_neg hlt]
      exact Or.inl ⟨rfl, fun _ h => absurd h hlt⟩

variable {count : Nat}

theorem nullMask_state (hcount : count ≤ maskSize) (d : Decoder) :
    (nullMask count d).2 = (fillMask count count 0 0 d).2 := by
  rw [nullMask, if_neg (Nat.not_lt.mpr hcount)]
  rcases hrun : fillMask count count 0 0 d with ⟨x | mask, e⟩
  · rw [bind_error (lift_error hrun)]
  · rw [bind_ok (lift_ok hrun)]
    rfl

/-- in front of a run that cannot be begun, no levels are read -/
theorem nullMask_blocked (hpos : 0 < count) (hcount : count ≤ maskSize) (h : d.Blocked) :
    ∃ x, nullMask count d = (.error x, d) := by
  obtain ⟨x, hx⟩ := ready_blocked h
  obtain ⟨fuel, rfl⟩ := Nat.exists_eq_succ_of_ne_zero (Nat.ne_of_gt hpos)
  have hfill : fillMask (fuel + 1) (fuel + 1) 0 0 d = (.error x, d) := by
    rw [fillMask, if_pos hpos, bind_error hx]
  refine ⟨.error x, ?_⟩
  rw [nullMask, if_neg (Nat.not_lt.mpr hcount)]
  exact bind_error (lift_error hfill) _

/-- levels take a decoder on that is not blocked, whether there are enough of them or not -/
theorem nullMask_passes (hpos : 0 < count) (hcount : count ≤ maskSize) (d : Decoder) :
    d.Blocked ∧ (nullMask count d).2 = d ∨ d.Passes (nullMask count d).2 := by
  rw [nullMask_state hcount]
  rcases fillMask_passes count count 0 0 d with ⟨hstays, hblocked⟩ | hpasses
  · exact Or.inl ⟨hblocked hpos hpos, hstays⟩
  · exact Or.inr hpasses

end Columnar.Hybrid.Decoder
