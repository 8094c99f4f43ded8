import Columnar.Proofs.Failures
import Columnar.Proofs.Hybrid.Decoder

/-!
# Where the runs of a stream lie

A packed run that was read lies in its stream with all its values, so that the place of a value
can be told in as many bits as the size of the stream takes.  Whatever is read of a stream, and
whether it can be read or not, leaves a run of which this is true.

* `Run.Within w n r`       the values of `r`, of `w` bits each, lie in a stream of `n` bytes;
* `Decoder.Onward d e`     `e` is `d` moved on, with a run that lies in its stream;
* `Decoder.ready_ends`, `Decoder.next_ends`, `Decoder.nullMask_ends`   how each step ends.
-/

namespace Columnar.Hybrid

open Step

/-- the values of a run, of `w` bits each, lie in a stream of `n` bytes and can be counted in 64
bits -/
def Run.Within (w n : Nat) : Run → Prop
  | repeated _ _ => True
  | packed _ index left => (index + left) * w ≤ 8 * n ∧ index + left < 2 ^ 64

theorem Run.Within.drop {w n k : Nat} {r : Run} (h : r.Within w n) (hk : k ≤ r.left) :
    (r.drop k).Within w n := by
  cases r with
  | repeated v left => trivial
  | packed bs index left =>
    have hsum : index + k + (left - k) = index + left := by
      have : k ≤ left := hk
      omega
    show (index + k + (left - k)) * w ≤ 8 * n ∧ index + k + (left - k) < 2 ^ 64
    rw [hsum]
    exact h

namespace Decoder

variable {d e : Decoder}

/-- the run of a decoder lies in its stream, and its values are not too wide -/
structure Bounded (d : Decoder) : Prop where
  width : d.width ≤ maxWidth
  run : d.run.Within d.width d.stream.size

/-- `e` is `d` moved on, with a run that lies in its stream -/
structure Onward (d e : Decoder) : Prop where
  follows : d.Follows e
  bounded : e.Bounded

theorem Onward.refl (h : d.Bounded) : d.Onward d := ⟨.refl d, h⟩

theorem Onward.trans {f : Decoder} (h : d.Onward e) (h' : e.Onward f) : d.Onward f :=
  ⟨h.follows.trans h'.follows, h'.bounded⟩

/-- a run that lies in the stream is taken up -/
theorem Bounded.setRun {run : Run} (hd : d.Bounded) (h : d.Follows e)
    (hrun : run.Within d.width d.stream.size) : d.Onward { e with run } := by
  refine ⟨h.setRun run, h.width ▸ hd.width, ?_⟩
  show run.Within e.width e.stream.size
  rw [h.width, h.stream.size]
  exact hrun

theorem Bounded.drop {n : Nat} (hd : d.Bounded) (hn : n ≤ d.run.left) :
    d.Onward { d with run := d.run.drop n } := hd.setRun (.refl d) (hd.run.drop hn)

/-- a decoder starts in front of its bytes, without a run -/
theorem ofBytes_start {bs : Bytes} {w : Nat} (h : ofBytes bs w = .ok d) :
    d.stream = .ofBytes bs ∧ d.Bounded := by
  unfold ofBytes at h
  split at h
  · rename_i hwidth
    cases h
    exact ⟨rfl, hwidth, trivial⟩
  · cases h

/-! ## runs -/

theorem header_run (d : Decoder) : (header d).2.run = d.run := by
  unfold header
  split
  · rfl
  · split <;> rfl

theorem header_fails (I : Decoder → Prop) : Fails I Error.Regular header := by
  intro d _ e he
  unfold header at he
  split at he
  · cases he
    exact fun h => h
  · have hv := Varint.read_fails (.ofBytes d.stream.rest) trivial
    split at he
    · cases he
    · rename_i e' c hread
      rw [hread] at hv
      cases he
      exact hv e rfl

theorem body_run (n : Nat) (d : Decoder) : (body n d).2.run = d.run := by
  unfold body
  split <;> rfl

theorem body_fails (I : Decoder → Prop) (n : Nat) : Fails I Error.Regular (body n) := by
  intro d _ e he
  unfold body at he
  split at he
  · cases he
  · cases he
    exact fun h => h

/-- bytes that were read lie in the stream -/
theorem body_le {n : Nat} {bs : Bytes} (h : body n d = (.ok bs, e)) : n ≤ d.stream.size := by
  unfold body at h
  split at h
  · rename_i bs' c hview
    have hpos := (Cursor.view_pos hview).2
    have hrem := (Cursor.view_follows n d.stream).remaining
    have hd := Cursor.pos_add_remaining d.stream
    rw [hview] at hrem
    dsimp only at hrem
    omega
  · cases h

/-- `e` is `d` moved on within its run -/
structure Keeps (d e : Decoder) : Prop where
  follows : d.Follows e
  run : e.run = d.run

theorem Keeps.onward (h : d.Keeps e) (hd : d.Bounded) : d.Onward e := by
  refine ⟨h.follows, h.follows.width ▸ hd.width, ?_⟩
  rw [h.run, h.follows.width, h.follows.stream.size]
  exact hd.run

theorem header_maintains (d : Decoder) : Maintains d.Keeps Any header :=
  .of_forall fun e h => ⟨h.follows.trans (header_follows e), (header_run e).trans h.run⟩

/-- bytes of the stream, of which there are no more than it has -/
theorem body_maintains (d : Decoder) (n : Nat) :
    Maintains d.Keeps (fun _ => n ≤ d.stream.size) (body n) := by
  intro e h
  refine ⟨⟨h.follows.trans (body_follows n e), (body_run n e).trans h.run⟩, fun bs hbs => ?_⟩
  rw [← h.follows.stream.size]
  exact body_le (e := (body n e).2) (Prod.ext hbs rfl)

/-- a run that was read lies in the stream -/
theorem readRun_maintains_run (d : Decoder) :
    Maintains d.Keeps (fun run => run.Within d.width d.stream.size) readRun := by
  refine maintains_bind (header_maintains d) fun h _ => ?_
  refine maintains_bind (P := (· = d.width)) (maintains_look fun e he => he.follows.width)
    fun width hwidth => ?_
  subst hwidth
  dsimp only
  split
  · split
    · rename_i hfits
      refine maintains_bind (body_maintains d _) fun bs hle => maintains_pure ?_
      have hgroup : groupSize = 8 := rfl
      show (0 + h / 2 * groupSize) * d.width ≤ 8 * d.stream.size ∧ 0 + h / 2 * groupSize < 2 ^ 64
      refine ⟨?_, by rw [Nat.zero_add]; exact hfits.2⟩
      calc (0 + h / 2 * groupSize) * d.width = 8 * (h / 2 * d.width) := by
            rw [Nat.zero_add, hgroup, Nat.mul_comm _ 8, Nat.mul_assoc]
        _ ≤ 8 * d.stream.size := Nat.mul_le_mul_left 8 hle
    · exact maintains_fail _
  · exact maintains_bind (body_maintains d _) fun _ _ => maintains_pure trivial

theorem readRun_fails (d : Decoder) : Fails d.Keeps Error.Regular readRun := by
  refine fails_bind (header_maintains d) (header_fails _) fun h _ => ?_
  refine fails_bind (P := Any) (maintains_look fun _ _ => trivial) (fails_look _) fun width _ => ?_
  dsimp only
  split
  · split
    · exact fails_bind (body_maintains d _) (body_fails _ _) fun _ _ => fails_pure _
    · exact fails_fail fun h => h
  · exact fails_bind (body_maintains d _) (body_fails _ _) fun _ _ => fails_pure _

/-! ## values and levels -/

/-- a step ends further on, with an answer that satisfies `P` or with a regular failure -/
abbrev EndsOnward {α : Type} (d : Decoder) (P : α → Decoder → Prop) :
    Except Error α × Decoder → Prop :=
  Ends (fun a e => d.Onward e ∧ P a e) fun x e => d.Onward e ∧ x.Regular

theorem advance_ends (fuel : Nat) : ∀ {d : Decoder}, d.Bounded →
    d.EndsOnward (fun _ _ => True) (advance fuel d) := by
  induction fuel with
  | zero => exact fun h => ⟨.refl h, trivial⟩
  | succ fuel ih =>
    intro d hd
    refine ends_bind (((readRun_maintains_run d).ends (readRun_fails d) ⟨.refl d, rfl⟩).mono
      (fun _ _ h => h) fun _ _ h => ⟨h.1.onward hd, h.2⟩) ?_
    rintro run e ⟨hkeeps, hrun⟩
    have honward := hd.setRun hkeeps.follows hrun
    rw [update_bind]
    split
    · exact (ih honward.bounded).mono (fun _ _ h => ⟨honward.trans h.1, trivial⟩)
        fun _ _ h => ⟨honward.trans h.1, h.2⟩
    · exact ⟨honward, trivial⟩

theorem ready_ends (hd : d.Bounded) :
    d.EndsOnward (fun _ e => 0 < e.run.left) (ready d) := by
  have hends : d.EndsOnward (fun _ _ => True) (ready d) := by
    rw [ready, state_bind]
    split
    · exact advance_ends _ hd
    · exact ⟨.refl hd, trivial⟩
  rcases h : ready d with ⟨x | ⟨⟩, e⟩
  · rw [h] at hends
    exact hends
  · rw [h] at hends
    exact ⟨hends.1, ready_left h⟩

/-- a value is read, or there is none -/
theorem next_ends (hd : d.Bounded) : d.EndsOnward (fun _ _ => True) (next d) := by
  refine ends_bind (ready_ends hd) ?_
  rintro ⟨⟩ e ⟨honward, hleft⟩
  rw [state_bind, put_bind]
  exact ⟨honward.trans (honward.bounded.drop hleft), trivial⟩

theorem fillMask_ends (count fuel : Nat) : ∀ (filled mask : Nat) {d : Decoder}, d.Bounded →
    d.EndsOnward (fun _ _ => True) (fillMask count fuel filled mask d) := by
  induction fuel with
  | zero => exact fun _ _ _ hd => ⟨.refl hd, trivial⟩
  | succ fuel ih =>
    intro filled mask d hd
    unfold fillMask
    split
    · refine ends_bind (ready_ends hd) ?_
      rintro ⟨⟩ e ⟨honward, -⟩
      rw [state_bind, put_bind]
      have hdrop := honward.bounded.drop (Nat.min_le_left e.run.left (count - filled))
      exact (ih _ _ hdrop.bounded).mono (fun _ _ h => ⟨(honward.trans hdrop).trans h.1, trivial⟩)
        fun _ _ h => ⟨(honward.trans hdrop).trans h.1, h.2⟩
    · exact ⟨.refl hd, trivial⟩

/-- a mask of up to sixteen levels is read, or there are too few -/
theorem nullMask_ends {count : Nat} (hcount : count ≤ maskSize) (hd : d.Bounded) :
    Ends (fun (a : Nat × Nat) e => d.Onward e ∧ a.2 ≤ count)
      (fun x e => d.Onward e ∧ x.Regular) (nullMask count d) := by
  rw [nullMask, if_neg (Nat.not_lt.mpr hcount)]
  refine ends_bind (ends_mapError (fillMask_ends count count 0 0 hd) fun _ _ h => h) ?_
  rintro mask e ⟨honward, -⟩
  exact ⟨honward, Nat.sub_le _ _⟩

end Decoder

end Columnar.Hybrid
