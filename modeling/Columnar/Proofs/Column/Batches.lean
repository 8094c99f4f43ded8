import Columnar.Proofs.Column.Finality

/-!
# What a read leaves in its batch

The values of a share of slots go into a batch one by one, and the slots are covered when all of
them are in.  A read that succeeds therefore leaves a well-formed batch.  A read that fails leaves
one just where it had put no value of its last share into the batch; the values that it had put
there stand in no slot.

* `Batch.WellFormed b`         the counts, the mask, the values and the slots of `b` agree;
* `Step.Breaks x n s as`       of `n` times `x` those that answer `as` succeed, the next one fails;
* `ColumnReader.Stops s vs`    a column reader cannot go on at `s`, where it put `vs` into the batch;
* `ColumnReader.Torn b s vs t` what a read from `s` leaves that stops so;
* `DeltaReader.Breaks n p vs`  a run of at most `n` values breaks off behind `vs`;
* `read_wellFormed`            of column readers and of delta readers: what a read leaves.
-/

namespace Columnar

open Step

/-- of `n` times `x` those that answer `as` succeed, and the next one fails -/
inductive Step.Breaks {σ ε α : Type} (x : Step σ ε α) : Nat → σ → List α → Prop where
  | here {n : Nat} {s t : σ} {e : ε} (h : x s = (.error e, t)) : Breaks x (n + 1) s []
  | there {n : Nat} {s t : σ} {a : α} {as : List α} (h : x s = (.ok a, t))
      (hrest : Breaks x n t as) : Breaks x (n + 1) s (a :: as)

/-! ## batches -/

namespace Batch

/-- a batch whose counts, mask, values and slots agree -/
structure WellFormed (b : Batch) : Prop where
  /-- each slot has a value or is empty -/
  total : b.values.length + Hybrid.Decoder.popCount b.nulls = b.total
  room : b.total ≤ batchSize
  /-- behind the slots, the mask says nothing -/
  clear : ∀ i, b.total ≤ i → b.nulls.testBit i = false
  length : b.slots.length = b.total
  /-- the slots that are not empty hold the values in order -/
  values : b.slots.filterMap id = b.values
  empty : ∀ i, i < b.total → (b.slots[i]? = some none ↔ b.nulls.testBit i = true)

/-- of slots, each holds a value or is empty -/
theorem length_filterMap_add (s : List (Option Value)) :
    (s.filterMap id).length + s.countP (fun x => decide (x = none)) = s.length := by
  induction s with
  | nil => rfl
  | cons x s ih =>
    cases x with
    | none =>
      rw [List.filterMap_cons_none rfl, List.countP_cons_of_pos rfl, List.length_cons, ← ih]
      rfl
    | some v =>
      rw [List.filterMap_cons_some (f := id) rfl, List.countP_cons_of_neg (by simp),
        List.length_cons, List.length_cons, ← ih]
      omega

/-- a batch that says of its slots what they are is well-formed -/
theorem Holds.wellFormed {b : Batch} {s : List (Option Value)} (h : b.Holds s)
    (hroom : s.length ≤ batchSize) : b.WellFormed := by
  have hslots := h.slots_eq
  refine ⟨?_, h.total ▸ hroom, fun i hi => ?_, ?_, ?_, fun i _ => ?_⟩
  · have hbit : b.nulls.testBit = fun i => decide (s[i]? = some none) := funext h.nulls
    rw [Hybrid.Decoder.popCount, hbit, Hybrid.countP_range none s 16 hroom, h.values, h.total]
    exact length_filterMap_add s
  · rw [h.nulls, List.getElem?_eq_none (h.total ▸ hi)]
    rfl
  · rw [hslots, h.total]
  · rw [hslots, h.values]
  · rw [hslots, h.nulls, decide_eq_true_iff]

theorem WellFormed.holds {b : Batch} (h : b.WellFormed) : b.Holds b.slots := by
  refine ⟨h.length.symm, h.values.symm, fun i => ?_⟩
  rcases Nat.lt_or_ge i b.total with hi | hi
  · rw [Bool.eq_iff_iff, decide_eq_true_iff]
    exact (h.empty i hi).symm
  · rw [h.clear i hi, List.getElem?_eq_none (h.length ▸ hi)]
    rfl

theorem wellFormed_empty : WellFormed {} := holds_nil.wellFormed (Nat.zero_le _)

/-- values that stand in no slot are too many -/
theorem WellFormed.putAll_iff {b : Batch} (h : b.WellFormed) (vs : List Value) :
    (b.putAll vs).WellFormed ↔ vs = [] := by
  constructor
  · intro h'
    have htotal := h.total
    have htotal' : (b.values ++ vs).length + Hybrid.Decoder.popCount b.nulls = b.total := h'.total
    rw [List.length_append] at htotal'
    exact List.length_eq_zero_iff.mp (by omega)
  · rintro rfl
    rwa [putAll_nil]

section
variable {σ : Type} {x : Step σ Failure Value}

/-- where a value cannot be read, those in front of it are in the batch -/
theorem pushEach_breaks (n : Nat) : ∀ {s : σ} {b : Batch} {e : Failure} {t : σ × Batch},
    b.values.length + n ≤ batchSize → pushEach x n (s, b) = (.error e, t) →
    ∃ vs, x.Breaks n s vs ∧ t.2 = b.putAll vs := by
  induction n with
  | zero => exact fun _ h => nomatch h
  | succ n ih =>
    intro s b e t hroom h
    rw [pushEach] at h
    rcases hx : x s with ⟨e' | v, s'⟩
    · rw [bind_error (onFst_error hx b)] at h
      cases h
      exact ⟨[], .here hx, (putAll_nil b).symm⟩
    · have hmore : (b.putAll [v]).values.length = b.values.length + 1 := List.length_append
      have hlt : b.values.length < batchSize := by omega
      rw [bind_ok (onFst_ok hx b), bind_ok (onSnd_ok (push_ok hlt) s')] at h
      obtain ⟨vs, hbreaks, ht⟩ := ih (by omega) h
      exact ⟨v :: vs, .there hx hbreaks, by rw [ht, putAll_cons]⟩

end

end Batch

/-! ## pages -/

/-- values of one width are read all at once -/
def PageValues.AtOnce : PageValues → Prop
  | plain d => d.type ≠ .boolean ∧ d.type ≠ .byteArray
  | indices _ => False

namespace OpenPage

variable {dictionary : List Value} {count n : Nat} {p : PageValues} {b : Batch}

/-- values that are read all at once are in the batch with the last of them -/
theorem takeValues_atOnce (hp : p.AtOnce) (hwidth : p.width * n < 2 ^ 64)
    (hroom : b.values.length + n ≤ batchSize) {e : Failure} {t : PageValues × Batch}
    (h : takeValues dictionary n (p, b) = (.error e, t)) :
    p.remaining < p.width * n ∧ t.2 = b := by
  match p, hp with
  | .plain d, ⟨hbool, harray⟩ =>
    rw [takeValues_plain, Plain.Decoder.values_fixed hbool harray hwidth] at h
    by_cases hlen : d.width * n ≤ d.remaining
    · rw [bind_ok (onFst_ok (lift_ok (Plain.Decoder.view_ok hlen)) b),
        onSnd_ok (Plain.Decoder.pushFixed_ok hroom)] at h
      cases h
    · have hshort : d.remaining < d.width * n := Nat.lt_of_not_le hlen
      obtain ⟨e', hview⟩ := Plain.Decoder.view_error hshort
      rw [bind_error (onFst_error (lift_error hview) b)] at h
      cases h
      exact ⟨hshort, rfl⟩

/-- plain values that are read one by one are single values of the decoder -/
theorem pushEach_plain {d : Plain.Decoder} :
    Batch.pushEach (PageValues.next dictionary) n (.plain d, b) =
      ((Batch.pushEach (Plain.Decoder.value : Step Plain.Decoder Failure Value) n (d, b)).1,
        (.plain
          (Batch.pushEach (Plain.Decoder.value : Step Plain.Decoder Failure Value) n (d, b)).2.1,
          (Batch.pushEach (Plain.Decoder.value : Step Plain.Decoder Failure Value) n
            (d, b)).2.2)) := by
  refine Batch.pushEach_embed (f := PageValues.plain) (I := Any) (fun e _ => ⟨?_, trivial⟩) n b
    trivial
  rcases hrun : Plain.Decoder.value e with ⟨y | v, e'⟩
  · rw [lift_error hrun, PageValues.next, lift_error hrun, hrun]
  · rw [lift_ok hrun, PageValues.next, lift_ok hrun, hrun]

/-- values that are not read at once are read one by one -/
theorem takeValues_eq_pushEach (hp : ¬ p.AtOnce) :
    takeValues dictionary n (p, b) = Batch.pushEach (PageValues.next dictionary) n (p, b) := by
  match p with
  | .indices d =>
    rw [takeValues_indices]
    exact (Batch.pushEach_embed (I := Any) (fun _ _ => ⟨rfl, trivial⟩) n b trivial).symm
  | .plain d =>
    have hsingle : d.type = .boolean ∨ d.type = .byteArray := by
      by_contra h
      exact hp (not_or.mp h)
    rw [takeValues_plain, Plain.Decoder.values_single hsingle, pushEach_plain]

/-- the next `count` slots of a page cannot be taken, and of their values `vs` were put into the
batch -/
inductive Breaks (dictionary : List Value) (count : Nat) (p : OpenPage) : List Value → Prop where
  /-- a level is missing -/
  | levels {x : Failure} {l : Hybrid.Decoder}
      (h : Hybrid.Decoder.nullMask count p.levels = (.error x, l)) : Breaks dictionary count p []
  /-- there are too few bytes for the values, which are read all at once -/
  | values {mask n : Nat} {l : Hybrid.Decoder}
      (h : Hybrid.Decoder.nullMask count p.levels = (.ok (mask, n), l)) (hp : p.values.AtOnce)
      (hshort : p.values.remaining < p.values.width * n) : Breaks dictionary count p []
  /-- the value behind `vs` cannot be read -/
  | value {mask n : Nat} {l : Hybrid.Decoder} {vs : List Value}
      (h : Hybrid.Decoder.nullMask count p.levels = (.ok (mask, n), l)) (hp : ¬ p.values.AtOnce)
      (hbreaks : (PageValues.next dictionary).Breaks n p.values vs) : Breaks dictionary count p vs

/-- slots that cannot be taken leave in the batch what was put into it of their values -/
theorem takeSlots_breaks {size : Nat} {p : OpenPage} {s : List (Option Value)} (hp : p.Sound size)
    (hb : b.Holds s) (hcount : s.length + count ≤ batchSize) {x : Failure} {t : OpenPage × Batch}
    (h : takeSlots dictionary count (p, b) = (.error x, t)) :
    ∃ vs, p.Breaks dictionary count vs ∧ t.2 = b.putAll vs := by
  have hmask := Hybrid.Decoder.nullMask_ends (show count ≤ Hybrid.Decoder.maskSize from
    Nat.le_trans (Nat.le_add_left ..) hcount) hp.levels
  have hvalues := hb.length_values
  rcases hl : Hybrid.Decoder.nullMask count p.levels with ⟨e | ⟨mask, n⟩, l⟩
  · rw [takeSlots_unread hl] at h
    cases h
    exact ⟨[], .levels hl, (Batch.putAll_nil b).symm⟩
  rw [hl] at hmask
  obtain ⟨honward, hn⟩ := hmask
  have hn' : n ≤ count := hn
  have hroom : b.values.length + n ≤ batchSize := by omega
  have hwidth : p.values.width * n < 2 ^ 64 :=
    Nat.lt_of_le_of_lt (Nat.mul_le_mul_left _ (show n ≤ batchSize by omega)) hp.readable.values
  rcases hv : takeValues dictionary n (p.values, b) with ⟨e | ⟨⟩, v, b'⟩
  · rw [takeSlots_error hl hv] at h
    cases h
    by_cases hatOnce : p.values.AtOnce
    · obtain ⟨hshort, hb'⟩ := takeValues_atOnce hatOnce hwidth hroom hv
      exact ⟨[], .values hl hatOnce hshort, hb'.trans (Batch.putAll_nil b).symm⟩
    · rw [takeValues_eq_pushEach hatOnce] at hv
      obtain ⟨vs, hbreaks, hb'⟩ := Batch.pushEach_breaks n hroom hv
      exact ⟨vs, .value hl hatOnce hbreaks, hb'⟩
  · have htake := takeValues_ends dictionary (b := b) hp.values hwidth hroom
    rw [hv] at htake
    rw [takeSlots_ok hl hv honward.follows.stream.pos htake.follows.consumed] at h
    cases h

end OpenPage

/-! ## column readers -/

namespace ColumnReader

variable {b : Binding} {r : ColumnReader} {g : Progress} {clean : Prop} {batch : Batch}

/-- a column reader cannot go on, where it put the values `vs` into the batch -/
inductive Stops : ColumnReader × Batch → List Value → Prop where
  /-- the next page cannot be opened -/
  | page {r t : ColumnReader} {batch : Batch} {x : Failure} (hleft : r.pageValues = 0)
      (h : openPage r = (.error x, t)) : Stops (r, batch) []
  /-- the slots of the open page cannot be taken -/
  | slots {r : ColumnReader} {batch : Batch} {p : OpenPage} {vs : List Value}
      (hleft : 0 < r.pageValues) (hp : r.page = some p)
      (h : p.Breaks r.dictionary (min r.pageValues (batchSize - batch.total)) vs) :
      Stops (r, batch) vs

/-- what is left of the batch of `s` by a read that failed: the slots that it took, and behind
their values the values `vs`, which stand in no slot -/
def Torn (b : Binding) (s : ColumnReader × Batch) (vs : List Value) (batch : Batch) : Prop :=
  ∃ ls u, Turns b s ls u ∧ u.2.WellFormed ∧ Stops u vs ∧ batch = u.2.putAll vs

theorem Torn.wellFormed_iff {s : ColumnReader × Batch} {vs : List Value}
    (h : Torn b s vs batch) : batch.WellFormed ↔ vs = [] := by
  obtain ⟨_, _, -, hformed, -, rfl⟩ := h
  exact hformed.putAll_iff vs

/-- a page that cannot be opened leaves nothing -/
theorem turnPage_breaks {x : Failure} {t : ColumnReader} (h : turnPage b r = (.error x, t)) :
    Stops (r, batch) [] := by
  rcases Nat.eq_zero_or_pos r.pageValues with hzero | hpos
  · rw [turnPage_opens hzero] at h
    obtain ⟨y, hopen⟩ := within_eq_error h
    exact .page hzero hopen
  · rw [turnPage_stays hpos] at h
    cases h

/-- a page that is opened is in front of what follows -/
theorem Turns.turn {n : Nat} {r' : ColumnReader} {ls : List ColumnReader}
    {u : ColumnReader × Batch} (h : turnPage b r = (.ok n, r')) (hturns : Turns b (r', batch) ls u) :
    ∃ ls', Turns b (r, batch) ls' u := by
  rcases Nat.eq_zero_or_pos r.pageValues with hzero | hpos
  · rw [turnPage_opens hzero] at h
    exact ⟨r :: ls, .page hzero (within_eq_ok h) hturns⟩
  · rw [turnPage_stays hpos] at h
    cases h
    exact ⟨ls, hturns⟩

/-- slots of the open page that cannot be taken leave some of their values -/
theorem takePage_breaks (hr : r.Kept clean g b) (hpos : 0 < r.pageValues)
    (hs : batch.WellFormed) (hroom : batch.total < batchSize) {x : Failure}
    {t : ColumnReader × Batch} (h : takePage b (r, batch) = (.error x, t)) :
    ∃ vs, Stops (r, batch) vs ∧ t.2 = batch.putAll vs := by
  obtain ⟨p, hp⟩ := Option.isSome_iff_exists.mp (hr.accounts.page hpos)
  have hcount : batch.slots.length + min r.pageValues (batchSize - batch.total) ≤ batchSize := by
    rw [hs.length]
    omega
  rcases htake : OpenPage.takeSlots r.dictionary (min r.pageValues (batchSize - batch.total))
    (p, batch) with ⟨e | bytes, q, batch'⟩
  · rw [takePage_error hp htake] at h
    cases h
    obtain ⟨vs, hbreaks, hbatch⟩ := OpenPage.takeSlots_breaks (hr.sound p hp) hs.holds hcount htake
    exact ⟨vs, .slots hpos hp hbreaks, hbatch⟩
  · have hends := OpenPage.takeSlots_ends r.dictionary (hr.sound p hp) hs.holds hcount
    rw [htake] at hends
    rw [takePage_taken hr hp hends.2.1 htake] at h
    cases h

/-- a batch that is filled is well-formed, and one that cannot be is torn -/
theorem fill_leaves (fuel : Nat) : ∀ (taken : Nat) {r : ColumnReader} {batch : Batch},
    r.Kept clean g b → batch.WellFormed →
    Ends (fun _ t => t.2.WellFormed) (fun _ t => ∃ vs, Torn b (r, batch) vs t.2)
      (fill fuel taken (r, batch)) := by
  induction fuel with
  | zero => exact fun _ _ _ _ hs => hs
  | succ fuel ih =>
    intro taken r batch hr hs
    by_cases hgo : batch.total < batchSize ∧ 0 < r.columnValues
    · rw [fill, state_bind]
      dsimp only
      rw [if_pos hgo, bind_ok (onFst_ok (bound_ok hr.binding) batch)]
      rcases hturn : turnPage b r with ⟨x | upfront, r₁⟩
      · rw [bind_error (onFst_error hturn batch)]
        exact ⟨[], [], (r, batch), .done _, hs, turnPage_breaks hturn, (Batch.putAll_nil batch).symm⟩
      have hopened := turnPage_ends hr
      rw [hturn] at hopened
      obtain ⟨hr₁, hpos, -⟩ := hopened
      rw [bind_ok (onFst_ok hturn batch)]
      have htaken := takePage_ends hr₁ hpos hs.holds (hs.length ▸ hgo.1)
      rcases htake : takePage b (r₁, batch) with ⟨x | bytes, r₂, batch₂⟩
      · obtain ⟨vs, hstops, hbatch⟩ := takePage_breaks hr₁ hpos hs hgo.1 htake
        obtain ⟨ls, hturns⟩ := Turns.turn hturn (.done (r₁, batch))
        rw [bind_error htake]
        exact ⟨vs, ls, (r₁, batch), hturns, hs, hstops, hbatch⟩
      rw [htake] at htaken
      obtain ⟨hr₂, -, S, hholds, -, hfits, -⟩ := htaken
      rw [bind_ok htake]
      have hs₂ : batch₂.WellFormed := hholds.wellFormed (by rw [List.length_append]; exact hfits)
      refine (ih _ hr₂ hs₂).mono (fun _ _ h => h) ?_
      rintro x t ⟨vs, ls, u, hturns, hformed, hstops, hbatch⟩
      obtain ⟨ls', hturns'⟩ := Turns.turn hturn (.slots hpos htake hturns)
      exact ⟨vs, ls', u, hturns', hformed, hstops, hbatch⟩
    · rw [fill_stop hgo]
      exact hs

/-- a read that succeeds leaves a well-formed batch, and one that fails a torn one -/
theorem read_leaves (hr : r.Kept clean g b) (hg : g ≠ .uninitialized) (v : Batch) :
    Ends (fun _ t => t.2.WellFormed) (fun _ t => ∃ vs, Torn b (r, {}) vs t.2) (read (r, v)) := by
  cases g with
  | uninitialized => exact absurd rfl hg
  | exhausted =>
    rw [read_exhausted hr.progress]
    exact Batch.wellFormed_empty
  | ready =>
    by_cases hzero : r.columnValues = 0
    · rw [read_end hr.progress hzero]
      exact Batch.wellFormed_empty
    · rw [read_fill hr.progress (Nat.pos_of_ne_zero hzero)]
      exact fill_leaves batchSize 0 hr Batch.wellFormed_empty

end ColumnReader

/-! ## delta readers -/

namespace DeltaReader

variable {r : DeltaReader}

/-- of a run of at most `n` values `vs` are read, and the next one cannot be -/
inductive Breaks : Nat → DeltaPage → List Value → Prop where
  | here {n : Nat} {p q : DeltaPage} {x : Failure} (hleft : ¬ p.left < terminatorSize)
      (h : next p = (.error x, q)) : Breaks (n + 1) p []
  | there {n : Nat} {p q : DeltaPage} {v : Value} {vs : List Value}
      (hleft : ¬ p.left < terminatorSize) (h : next p = (.ok v, q))
      (hv : ¬ v.byteLen = terminatorSize) (hrest : Breaks n q vs) : Breaks (n + 1) p (v :: vs)

/-- the values of a run are in the batch, up to one that cannot be read -/
theorem takeRun_leaves (room : Nat) : ∀ (taken : Nat) {p : DeltaPage} {b : Batch},
    b.values.length + room ≤ batchSize →
    Ends (fun _ t => ∃ vs : List Value, vs.length ≤ room ∧ t.2 = b.putAll vs)
      (fun _ t => ∃ vs, Breaks room p vs ∧ t.2 = b.putAll vs) (takeRun room taken (p, b)) := by
  induction room with
  | zero => exact fun _ _ b _ => ⟨[], Nat.le_refl 0, (Batch.putAll_nil b).symm⟩
  | succ room ih =>
    intro taken p b hroom
    by_cases hleft : p.left < terminatorSize
    · rw [takeRun_stop hleft]
      exact ⟨[], Nat.zero_le _, (Batch.putAll_nil b).symm⟩
    rcases hnext : next p with ⟨x | v, q⟩
    · rw [takeRun_unread hleft hnext]
      exact ⟨[], .here hleft hnext, (Batch.putAll_nil b).symm⟩
    by_cases hv : v.byteLen = terminatorSize
    · rw [takeRun_end hleft hnext hv]
      exact ⟨[], Nat.zero_le _, (Batch.putAll_nil b).symm⟩
    have hmore : (b.putAll [v]).values.length = b.values.length + 1 := List.length_append
    rw [takeRun_next hleft hnext hv (by omega)]
    refine (ih _ (by omega)).mono ?_ ?_
    · rintro n t ⟨vs, hlen, ht⟩
      exact ⟨v :: vs, Nat.succ_le_succ hlen, by rw [ht, Batch.putAll_cons]⟩
    · rintro x t ⟨vs, hbreaks, ht⟩
      exact ⟨v :: vs, .there hleft hnext hv hbreaks, by rw [ht, Batch.putAll_cons]⟩

/-- a read that succeeds leaves a well-formed batch, and one that fails the values in front of the
one that cannot be read, in no slot -/
theorem read_leaves (hr : r.progress ≠ .uninitialized) (v : Batch) :
    Ends (fun _ t => t.2.WellFormed)
      (fun _ t => ∃ p vs, r.page = some p ∧ Breaks batchSize p vs ∧
        t.2 = ({} : Batch).putAll vs) (read (r, v)) := by
  cases hready : r.progress with
  | uninitialized => exact absurd hready hr
  | exhausted =>
    rw [read_exhausted hready]
    exact Batch.wellFormed_empty
  | ready =>
    cases hpage : r.page with
    | none =>
      rw [read_none hready hpage]
      exact Batch.wellFormed_empty
    | some p =>
      have hleaves := takeRun_leaves batchSize 0 (p := p) (b := {}) (Nat.le_refl _)
      rcases hrun : takeRun batchSize 0 (p, {}) with ⟨x | n, q, b⟩
      · rw [hrun] at hleaves
        obtain ⟨vs, hbreaks, hb⟩ := hleaves
        rw [read_unread hready hpage hrun]
        exact ⟨p, vs, rfl, hbreaks, hb⟩
      · rw [hrun] at hleaves
        obtain ⟨vs, hlen, rfl⟩ := hleaves
        rw [read_taken hready hpage hrun, settle_putAll]
        exact (holds_values vs).wellFormed (by rw [List.length_map]; exact hlen)

end DeltaReader

/-! ## reads -/

/-- a read that succeeds leaves a well-formed batch; one that fails leaves the slots that it took,
and the values that it put behind them, and so a well-formed batch just where it put none there -/
theorem read_wellFormed (v : Batch) :
    (∀ {buffer : Bytes} {o : Options} {st : ColumnReader.Standing} {r : ColumnReader},
      ColumnReader.Reached buffer o st r → st ≠ .closed →
      ∃ b, r.binding = some b ∧ Ends (fun _ t => t.2.WellFormed)
        (fun _ t => ∃ vs, ColumnReader.Torn b (r, {}) vs t.2 ∧ (t.2.WellFormed ↔ vs = []))
        (ColumnReader.read (r, v))) ∧
    (∀ {r : DeltaReader}, r.progress ≠ .uninitialized →
      Ends (fun _ t => t.2.WellFormed)
        (fun _ t => ∃ p vs, r.page = some p ∧ DeltaReader.Breaks batchSize p vs ∧
          t.2 = ({} : Batch).putAll vs ∧ (t.2.WellFormed ↔ vs = []))
        (DeltaReader.read (r, v))) := by
  refine ⟨fun {buffer o st r} h hst => ?_, fun {r} hr => ?_⟩
  · obtain ⟨g, b, hg, hr⟩ := h.kept.2 hst
    refine ⟨b, hr.binding, (ColumnReader.read_leaves hr hg v).mono (fun _ _ h => h) ?_⟩
    rintro x t ⟨vs, htorn⟩
    exact ⟨vs, htorn, htorn.wellFormed_iff⟩
  · refine (DeltaReader.read_leaves hr v).mono (fun _ _ h => h) ?_
    rintro x t ⟨p, vs, hpage, hbreaks, ht⟩
    refine ⟨p, vs, hpage, hbreaks, ht, ?_⟩
    rw [ht]
    exact Batch.wellFormed_empty.putAll_iff vs

/-- two slots of one page and two of the next, of which the second has an index outside the
dictionary: a read takes the first page, and leaves one value of the second in no slot; and a run
of one value, which a read takes -/
theorem read_wellFormed_twoPages :
    let column := ColumnReader.prepare 0 (.optional "n" .int32)
      (soleChunk "n" .int32 4 73 17 (some 0))
      (.ofBuffer [21, 4, 21, 8, 21, 8, 76, 21, 2, 21, 0, 0, 0, 7, 0, 0, 0,
        21, 0, 21, 22, 21, 22, 44, 21, 4, 21, 16, 21, 6, 21, 6, 0, 0,
        4, 0, 0, 0, 2, 0, 2, 1, 1, 2, 0,
        21, 0, 21, 22, 21, 22, 44, 21, 4, 21, 16, 21, 6, 21, 6, 0, 0,
        2, 0, 0, 0, 4, 1, 1, 2, 0, 2, 1] {})
    let delta := DeltaReader.prepare 0 (.optional "d" .byteArray)
      (soleChunk "d" .byteArray 1 22 0 (some 0))
      (.ofBuffer [21, 4, 21, 18, 21, 18, 76, 21, 2, 21, 0, 0, 0,
        1, 0, 0, 0, 97, 0, 0, 0, 0] {})
    let t := ColumnReader.read (column.2, {})
    let u := DeltaReader.read (delta.2, {})
    (column.1 = .ok () ∧ t.1 = .error (.error ⟨.indexOutOfRange 1 1, [.decodingColumn 0]⟩) ∧
      t.2.2 = ⟨[.int32 [7, 0, 0, 0], .int32 [7, 0, 0, 0]], 2, 1⟩ ∧
      ∃ b vs, ColumnReader.Torn b (column.2, {}) vs t.2.2 ∧ vs.length = 1) ∧
    (delta.1 = .ok () ∧ u.1 = .ok 9 ∧ u.2.2.WellFormed) := by
  intro column delta t u
  have hcolumn : column.1 = .ok () ∧
      t.1 = .error (.error ⟨.indexOutOfRange 1 1, [.decodingColumn 0]⟩) ∧
      t.2.2 = ⟨[.int32 [7, 0, 0, 0], .int32 [7, 0, 0, 0]], 2, 1⟩ := by
    decide +kernel +zetaReduce
  have hdelta : delta.1 = .ok () ∧ delta.2.progress = .ready ∧ u.1 = .ok 9 := by
    decide +kernel +zetaReduce
  have hprepare : ColumnReader.prepare _ _ _ _ = column := rfl
  have hread : ColumnReader.read (column.2, {}) = t := rfl
  have hread' : DeltaReader.read (delta.2, {}) = u := rfl
  clear_value column delta t u
  obtain ⟨_, r⟩ := column
  obtain ⟨_, r', batch⟩ := t
  obtain ⟨_, s', batch'⟩ := u
  obtain ⟨hprepared, hfailed, hbatch⟩ := hcolumn
  obtain ⟨hprepared', hready, hok⟩ := hdelta
  cases hprepared
  cases hfailed
  cases hok
  obtain ⟨b, -, hends⟩ := (read_wellFormed {}).1 (.prepared .new hprepare) (by decide)
  rw [hread] at hends
  obtain ⟨vs, htorn, -⟩ := hends
  have hends' := (read_wellFormed {}).2 (r := delta.2) (by rw [hready]; decide)
  rw [hread'] at hends'
  refine ⟨⟨rfl, rfl, hbatch, b, vs, htorn, ?_⟩, hprepared', rfl, hends'⟩
  obtain ⟨ls, s, -, hformed, -, hput⟩ := htorn
  have hparts : s.2.putAll vs = _ := hput.symm.trans hbatch
  have hlen : (s.2.values ++ vs).length = 2 := congrArg (fun b => b.values.length) hparts
  have hcount : s.2.total = 2 := congrArg Batch.total hparts
  have hnulls : s.2.nulls = 1 := congrArg Batch.nulls hparts
  have htotal := hformed.total
  rw [hcount, hnulls, show Hybrid.Decoder.popCount 1 = 1 from by decide] at htotal
  rw [List.length_append] at hlen
  omega

/-- a dictionary index in front of another one outside the dictionary, and a byte array in front of
another one that says to be longer than its page: the read that meets the second leaves the first,
with no slot for it -/
theorem not_wellFormed_read :
    let column := ColumnReader.prepare 0 (.optional "n" .int32)
      (soleChunk "n" .int32 2 45 17 (some 0))
      (.ofBuffer [21, 4, 21, 8, 21, 8, 76, 21, 2, 21, 0, 0, 0, 7, 0, 0, 0,
        21, 0, 21, 22, 21, 22, 44, 21, 4, 21, 16, 21, 6, 21, 6, 0, 0,
        2, 0, 0, 0, 4, 1, 1, 2, 0, 2, 1] {})
    let delta := DeltaReader.prepare 0 (.optional "d" .byteArray)
      (soleChunk "d" .byteArray 1 22 0 (some 0))
      (.ofBuffer [21, 4, 21, 18, 21, 18, 76, 21, 2, 21, 0, 0, 0,
        1, 0, 0, 0, 97, 255, 0, 0, 0] {})
    let t := ColumnReader.read (column.2, {})
    let u := DeltaReader.read (delta.2, {})
    (column.1 = .ok () ∧ t.1 = .error (.error ⟨.indexOutOfRange 1 1, [.decodingColumn 0]⟩) ∧
      t.2.2 = ⟨[.int32 [7, 0, 0, 0]], 0, 0⟩ ∧ ¬ t.2.2.WellFormed) ∧
    (delta.1 = .ok () ∧
      u.1 = .error (.error ⟨.readPastEnd 255 9 9, [.decodingDelta 9, .byteArrayAt 255 5]⟩) ∧
      u.2.2 = ⟨[.byteArray [1, 0, 0, 0, 97]], 0, 0⟩ ∧ ¬ u.2.2.WellFormed) := by
  intro column delta t u
  have hcolumn : column.1 = .ok () ∧
      t.1 = .error (.error ⟨.indexOutOfRange 1 1, [.decodingColumn 0]⟩) ∧
      t.2.2 = ⟨[.int32 [7, 0, 0, 0]], 0, 0⟩ := by
    decide +kernel +zetaReduce
  have hdelta : delta.1 = .ok () ∧
      u.1 = .error (.error ⟨.readPastEnd 255 9 9, [.decodingDelta 9, .byteArrayAt 255 5]⟩) ∧
      u.2.2 = ⟨[.byteArray [1, 0, 0, 0, 97]], 0, 0⟩ := by
    decide +kernel +zetaReduce
  clear_value column delta t u
  obtain ⟨hprepare, ht, hbatch⟩ := hcolumn
  obtain ⟨hprepare', hu, hbatch'⟩ := hdelta
  refine ⟨⟨hprepare, ht, hbatch, fun h => ?_⟩, hprepare', hu, hbatch', fun h => ?_⟩
  · rw [hbatch] at h
    exact absurd h.total (by decide)
  · rw [hbatch'] at h
    exact absurd h.total (by decide)

end Columnar
