import Columnar.Proofs.Column.Opening

/-!
# A batch is the front of what a reader has still to give

* `ColumnReader.Fills`       a step puts some slots into a batch and takes them off what is ahead,
                             or fails where what is ahead does;
* `ColumnReader.takePage_spec`   the slots of one page;
* `ColumnReader.fill_spec`       a batch, of as many pages as it takes.
-/

namespace Columnar

namespace ColumnReader

variable {b : Binding} {r : ColumnReader} {batch : Batch} {s : List (Option Value)}

/-- from a reader `r` and a batch with the slots `s`, `x` puts `n` slots into the batch and takes
them off what is ahead, or fails where what is ahead does -/
def Fills (b : Binding) (n : Nat) (x : Step (ColumnReader × Batch) Failure Nat)
    (r : ColumnReader) (batch : Batch) (s : List (Option Value)) : Prop :=
  (∃ bytes r' batch' S, x (r, batch) = (.ok bytes, (r', batch')) ∧ S.length = n ∧
    batch'.Holds (s ++ S) ∧ Gave b r r' S) ∨
  ((∃ e t, x (r, batch) = (.error e, t)) ∧ ∃ e, r.ahead b = .error e)

/-! ## one page -/

theorem turnPage_opens (h : r.pageValues = 0) :
    turnPage b r = openPage.within (.readingPage b.column) r := by
  rw [turnPage, Step.state_bind, if_pos h]

theorem turnPage_stays (h : 0 < r.pageValues) : turnPage b r = (.ok 0, r) := by
  rw [turnPage, Step.state_bind, if_neg (Nat.ne_of_gt h)]
  rfl

/-- where nothing is left of a page, the next one is opened -/
theorem turnPage_spec (hr : r.Reading b) (hb : b.Bounded) (hpos : 0 < r.columnValues) :
    (∃ n r', turnPage b r = (.ok n, r') ∧ Gave b r r' [] ∧ 0 < r'.pageValues) ∨
    ((∃ x t, turnPage b r = (.error x, t)) ∧ ∃ x, r.ahead b = .error x) := by
  rcases Nat.eq_zero_or_pos r.pageValues with hzero | hleft
  · rw [turnPage_opens hzero]
    obtain ⟨n, r', h, hgave⟩ | ⟨⟨x, t, h⟩, hahead⟩ := openPage_spec hr hb hzero hpos
    · exact Or.inl ⟨n, r', Step.within_ok h, hgave⟩
    · exact Or.inr ⟨⟨_, t, Step.within_error h⟩, hahead⟩
  · exact Or.inl ⟨0, r, turnPage_stays hleft, .refl hr, hleft⟩

theorem takeBatch_apply {p : OpenPage} (hp : r.page = some p) {count : Nat}
    {a : Except Failure Nat} {q : OpenPage} {batch' : Batch}
    (h : OpenPage.takeSlots r.dictionary count (p, batch) = (a, (q, batch'))) :
    takeBatch count (r, batch) = (a, ({ r with page := some q }, batch')) := by
  simp only [takeBatch, hp, h]

/-- a reader that took `count` slots and `bytes` bytes of its page, of which `q` is left -/
def after (r : ColumnReader) (q : OpenPage) (count bytes : Nat) : ColumnReader :=
  { r with
    page := some q
    pageBytes := r.pageBytes - bytes
    columnBytes := r.columnBytes - bytes
    pageValues := r.pageValues - count
    columnValues := r.columnValues - count }

section
variable {p q : OpenPage} {batch' : Batch}

/-- slots that were taken off the open page are taken off the counts -/
theorem takePage_ok {bytes : Nat} (hp : r.page = some p)
    (h : OpenPage.takeSlots r.dictionary (min r.pageValues (batchSize - batch.total)) (p, batch) =
      (.ok bytes, (q, batch'))) (hpage : bytes ≤ r.pageBytes) (hbytes : bytes ≤ r.columnBytes)
    (hvalues : r.pageValues ≤ r.columnValues) : takePage b (r, batch) = (.ok bytes,
      (r.after q (min r.pageValues (batchSize - batch.total)) bytes, batch')) := by
  have hcount := Nat.min_le_left r.pageValues (batchSize - batch.total)
  rw [takePage, Step.state_bind]
  refine (Step.bind_ok (Step.within_ok (takeBatch_apply hp h)) _).trans ?_
  rw [if_neg (Nat.not_lt.mpr hpage)]
  refine (Step.subtract_bind hbytes _ _).trans ?_
  refine (Step.subtract_bind hcount _ _).trans ?_
  exact Step.subtract_bind (Nat.le_trans hcount hvalues) _ _

/-- slots that cannot be taken leave the page where the failure was met -/
theorem takePage_error {x : Failure} (hp : r.page = some p)
    (h : OpenPage.takeSlots r.dictionary (min r.pageValues (batchSize - batch.total)) (p, batch) =
      (.error x, (q, batch'))) : takePage b (r, batch) =
      (.error (Contextual.within (.decodingColumn b.column) x),
        ({ r with page := some q }, batch')) := by
  rw [takePage, Step.state_bind]
  exact Step.bind_error (Step.within_error (takeBatch_apply hp h)) _

end

theorem gave_after (hr : r.Reading b) {p q : OpenPage} (hp : r.page = some p)
    (hread : p.Readable) (hleft : r.pageBytes = p.left) {count bytes : Nat}
    (hcount : count ≤ r.pageValues) {batch' : Batch} {S : List (Option Value)}
    (h : OpenPage.Took r.dictionary count p q batch' s bytes S) :
    Gave b r (r.after q count bytes) S := by
  have hbytes := hr.bytes
  have hvalues := hr.values
  have hq := h.left
  have hlen := h.length
  refine ⟨⟨hr.binding, ?_, ?_, fun _ => ⟨q, rfl, ⟨?_, ?_⟩, ?_⟩⟩, ⟨rfl, rfl, rfl⟩, ?_, ?_⟩
  · exact Nat.sub_le_sub_right hvalues count
  · show r.columnBytes - bytes = r.chunk.remaining + (r.pageBytes - bytes)
    omega
  · rw [h.follows.levels.width]
    exact hread.levels
  · rw [h.follows.values.width]
    exact hread.values
  · show r.pageBytes - bytes = q.left
    omega
  · show S.length + (r.columnValues - count) = r.columnValues
    omega
  · refine ahead_of_here ?_ ?_
    · have hslots := h.slots (r.pageValues - count)
      rw [Nat.add_sub_cancel' hcount] at hslots
      unfold here
      rw [hp]
      exact hslots
    · have hsub : r.columnValues - count - (r.pageValues - count) =
          r.columnValues - r.pageValues := by omega
      show r.behind b = (Whole.slots r.options b r.dictionary
        (r.columnValues - count - (r.pageValues - count))).answer r.chunk
      rw [hsub]
      rfl

/-- the next slots of the open page -/
theorem takePage_spec (hr : r.Reading b) (hpos : 0 < r.pageValues) (hs : batch.Holds s)
    (hroom : s.length ≤ batchSize) :
    Fills b (min r.pageValues (batchSize - s.length)) (takePage b) r batch s := by
  obtain ⟨p, hp, hread, hleft⟩ := hr.page hpos
  have hvalues := hr.values
  have hbytes := hr.bytes
  rw [← hs.total] at hroom ⊢
  have hcount : min r.pageValues (batchSize - batch.total) ≤ r.pageValues := Nat.min_le_left _ _
  obtain ⟨bytes, q, batch', S, h, htook⟩ | ⟨⟨x, t, h⟩, herror⟩ :=
    OpenPage.takeSlots_spec r.dictionary (min r.pageValues (batchSize - batch.total))
      hread.levels hread.values hs (by rw [← hs.total]; omega)
  · have hq := htook.left
    have htake := takePage_ok (b := b) hp h (by omega) (by omega) hvalues
    exact Or.inl ⟨bytes, r.after q _ bytes, batch', S, htake, htook.length, htook.holds,
      gave_after hr hp hread hleft hcount htook⟩
  · obtain ⟨q, batch'⟩ := t
    obtain ⟨x', hx⟩ := herror (r.pageValues - min r.pageValues (batchSize - batch.total))
    rw [Nat.add_sub_cancel' hcount] at hx
    have hhere : r.here = .error x' := by
      unfold here
      rw [hp]
      exact hx
    exact Or.inr ⟨⟨_, _, takePage_error hp h⟩, x', ahead_of_here_error hhere⟩

/-! ## a batch -/

/-- slots that are put into a batch behind others -/
theorem Fills.after {n m : Nat} {x : Step (ColumnReader × Batch) Failure Nat} {r' : ColumnReader}
    {batch' : Batch} {S : List (Option Value)} (hgave : Gave b r r' S) (hlen : S.length + m = n)
    (h : Fills b m x r' batch' (s ++ S)) {y : Step (ColumnReader × Batch) Failure Nat}
    (heq : y (r, batch) = x (r', batch')) : Fills b n y r batch s := by
  obtain ⟨bytes, r₁, batch₁, T, hx, hT, hholds, hgave'⟩ | ⟨⟨e, t, hx⟩, herror⟩ := h
  · refine Or.inl ⟨bytes, r₁, batch₁, S ++ T, heq.trans hx, ?_, ?_, hgave.trans hgave'⟩
    · rw [List.length_append, hT, hlen]
    · rw [← List.append_assoc]
      exact hholds
  · exact Or.inr ⟨⟨e, t, heq.trans hx⟩, hgave.error herror⟩

theorem fill_stop {fuel taken : Nat} (h : ¬ (batch.total < batchSize ∧ 0 < r.columnValues)) :
    fill (fuel + 1) taken (r, batch) = (.ok taken, (r, batch)) := by
  rw [fill, Step.state_bind]
  dsimp only
  rw [if_neg h]
  rfl

theorem fill_go (fuel taken : Nat) (hr : r.Reading b) (hroom : batch.total < batchSize)
    (hpos : 0 < r.columnValues) :
    fill (fuel + 1) taken (r, batch) = (do
      let upfront ← (turnPage b).onFst
      let bytes ← takePage b
      fill fuel (taken + upfront + bytes) : Step (ColumnReader × Batch) Failure Nat)
        (r, batch) := by
  rw [fill, Step.state_bind]
  dsimp only
  rw [if_pos ⟨hroom, hpos⟩, Step.bind_ok (Step.onFst_ok (bound_ok hr.binding) batch)]

/-- a batch is filled, or takes all that is left of the chunk -/
theorem fill_spec (hb : b.Bounded) (fuel : Nat) : ∀ (taken : Nat) {r : ColumnReader}
    {batch : Batch} {s : List (Option Value)}, r.Reading b → batch.Holds s →
    s.length ≤ batchSize → batchSize ≤ s.length + fuel →
    Fills b (min (batchSize - s.length) r.columnValues) (fill fuel taken) r batch s := by
  induction fuel with
  | zero =>
    intro taken r batch s hr hs hroom hfuel
    have hfull : min (batchSize - s.length) r.columnValues = 0 := by omega
    rw [hfull]
    refine Or.inl ⟨taken, r, batch, [], rfl, rfl, ?_, .refl hr⟩
    rw [List.append_nil]
    exact hs
  | succ fuel ih =>
    intro taken r batch s hr hs hroom hfuel
    have htotal := hs.total
    by_cases hgo : batch.total < batchSize ∧ 0 < r.columnValues
    · obtain ⟨hless, hpos⟩ := hgo
      have hstep := fill_go fuel taken hr hless hpos
      obtain ⟨n, r₁, hturn, hgave₁, hpage⟩ | ⟨⟨x, t, hturn⟩, herror⟩ := turnPage_spec hr hb hpos
      · rw [Step.bind_ok (Step.onFst_ok hturn batch)] at hstep
        obtain ⟨m, r₂, batch₂, S, htake, hS, hholds, hgave₂⟩ | ⟨⟨x, t, htake⟩, herror⟩ :=
          takePage_spec hgave₁.reading hpage hs hroom
        · rw [Step.bind_ok htake] at hstep
          have hvalues := hgave₁.reading.values
          have hleft₁ : r₁.columnValues = r.columnValues := by
            rw [← hgave₁.left, List.length_nil, Nat.zero_add]
          have hleft₂ := hgave₂.left
          have hlen : (s ++ S).length = s.length + S.length := List.length_append
          refine Fills.after (hgave₁.trans hgave₂) ?_ (ih _ hgave₂.reading hholds ?_ ?_) hstep
          · rw [List.nil_append, hlen]
            omega
          · rw [List.nil_append, hlen]
            omega
          · rw [List.nil_append, hlen]
            omega
        · rw [Step.bind_error htake] at hstep
          exact Or.inr ⟨⟨x, t, hstep⟩, hgave₁.error herror⟩
      · rw [Step.bind_error (Step.onFst_error hturn batch)] at hstep
        exact Or.inr ⟨⟨x, _, hstep⟩, herror⟩
    · have hnone : min (batchSize - s.length) r.columnValues = 0 := by omega
      rw [hnone]
      refine Or.inl ⟨taken, r, batch, [], fill_stop hgo, rfl, ?_, .refl hr⟩
      rw [List.append_nil]
      exact hs

end ColumnReader

end Columnar
