import Mathlib.Data.Prod.Lex
import Columnar.Proofs.Column.Rebinding
import Columnar.Proofs.Hybrid.Progress
import Columnar.Proofs.Record.Delimited

/-!
# What is read behind a failed read

A read that fails leaves the reader where the failure was met, and the next read goes on from
there.  It fails as well where nothing can be read of that place, and then the reader stays; from
anywhere else the reader has gone on, and it may come to slots again.

* `Silent read r`              nothing is read of `r` any more;
* `FailsTo read r t`           reads that fail lead from `r` to `t`;
* `silent_iff`                 a reader falls silent just where failed reads lead it to a place
                               that it does not leave;
* `ColumnReader.Barren r`      nothing can be read of a column where `r` stands;
* `ColumnReader.exhaustible`   column readers at slots that are still to be read.
-/

namespace Columnar

open Step

/-! ## readers that fall silent -/

section
variable {ρ : Type} {read : Step (ρ × Batch) Failure Nat}

/-- no read from now on gives a slot -/
def Silent (read : Step (ρ × Batch) Failure Nat) (r : ρ) : Prop :=
  ∀ vs, ∀ u ∈ runs read r vs, ∀ n, u.1 = .ok n → u.2.2.total = 0

/-- reads that fail, one after the other, lead from one reader to another -/
inductive FailsTo (read : Step (ρ × Batch) Failure Nat) : ρ → ρ → Prop where
  | refl (r : ρ) : FailsTo read r r
  | step {r s t : ρ} {v v' : Batch} {x : Failure} (h : read (r, v) = (.error x, (s, v')))
      (hrest : FailsTo read s t) : FailsTo read r t

/-- a reader that gives no slot and stays such a reader -/
theorem silent_of_stays {J : ρ → Prop} (h : ∀ r v, J r → J (read (r, v)).2.1 ∧
    ∀ n, (read (r, v)).1 = .ok n → (read (r, v)).2.2.total = 0) {r : ρ} (hr : J r) :
    Silent read r := by
  intro vs
  induction vs generalizing r with
  | nil => exact List.forall_mem_nil _
  | cons v vs ih =>
    obtain ⟨hkeeps, hempty⟩ := h r v hr
    rw [runs]
    exact List.forall_mem_cons.mpr ⟨hempty, ih hkeeps⟩

theorem Silent.next {r : ρ} (h : Silent read r) (v : Batch) : Silent read (read (r, v)).2.1 :=
  fun vs u hu => h (v :: vs) u (List.mem_cons_of_mem _ hu)

theorem Silent.empty {r : ρ} (h : Silent read r) {v : Batch} {n : Nat} {t : ρ × Batch}
    (hread : read (r, v) = (.ok n, t)) : t.2.total = 0 := by
  have hfirst := h [v] (read (r, v)) (List.mem_singleton_self _) n
  rw [hread] at hfirst
  exact hfirst rfl

/-- a reader that falls silent behind a read that fails was silent before -/
theorem Silent.failed {r s : ρ} {v v' : Batch} {x : Failure}
    (hblind : ∀ w, read (r, w) = read (r, v)) (hread : read (r, v) = (.error x, (s, v')))
    (h : Silent read s) : Silent read r := by
  intro vs
  cases vs with
  | nil => exact List.forall_mem_nil _
  | cons w vs =>
    rw [runs, hblind w, hread]
    refine List.forall_mem_cons.mpr ⟨fun n hn => ?_, h vs⟩
    cases hn

/-- readers that satisfy `I` and overwrite their batches.  One that is barren gives no slot and
stays barren, one that is not gives a slot or fails, and a read that fails leaves one that is
barren or further on -/
structure Exhaustible {α : Type} [LT α] (read : Step (ρ × Batch) Failure Nat) (I Barren : ρ → Prop)
    (rank : ρ → α) : Prop where
  blind : ∀ r v v', I r → read (r, v) = read (r, v')
  fails : ∀ r v x t, I r → read (r, v) = (.error x, t) →
    I t.1 ∧ (Barren t.1 ∨ rank t.1 < rank r)
  gives : ∀ r v n t, I r → ¬ Barren r → read (r, v) = (.ok n, t) → t.2.total ≠ 0
  stays : ∀ r, I r → Barren r → Silent read r

/-- a reader falls silent just where reads that fail lead it to a place that it does not leave -/
theorem silent_iff {α : Type} [LT α] [WellFoundedLT α] {I Barren : ρ → Prop} {rank : ρ → α}
    (h : Exhaustible read I Barren rank) {r : ρ} (hr : I r) :
    Silent read r ↔ ∃ t, FailsTo read r t ∧ Barren t := by
  constructor
  · -- a read that fails ends at a barren place, or takes the reader on, which cannot go on for ever
    intro hsilent
    induction hk : rank r using WellFoundedLT.induction generalizing r with
    | ind k ih =>
      subst hk
      by_cases hbarren : Barren r
      · exact ⟨r, .refl r, hbarren⟩
      rcases hread : read (r, {}) with ⟨x | n, s, v'⟩
      · obtain ⟨hs, hplace⟩ := h.fails r {} x (s, v') hr hread
        have hnext := hsilent.next {}
        rw [hread] at hnext
        rcases hplace with hbarren' | hless
        · exact ⟨s, .step hread (.refl s), hbarren'⟩
        · obtain ⟨t, hfails, ht⟩ := ih _ hless hs hnext rfl
          exact ⟨t, .step hread hfails, ht⟩
      · exact absurd (hsilent.empty hread) (h.gives r {} n (s, v') hr hbarren hread)
  · rintro ⟨t, hfails, ht⟩
    induction hfails with
    | refl r => exact h.stays r hr ht
    | @step r s t v v' x hread _ ih =>
      have hs := (h.fails r v x (s, v') hr hread).1
      exact (ih hs ht).failed (fun w => h.blind r w v hr) hread

end

/-! ## page headers -/

section
variable {o : Options} {c : Cursor} {header : PageHeader} {n : Nat}

/-- a header takes a byte at least -/
theorem PageHeader.decode_pos {bs : Bytes}
    (h : PageHeader.format.decode o bs = .ok (header, n)) : 0 < n ∧ n ≤ bs.length := by
  have hbuilt := RecordKind.built .pageHeader
  obtain ⟨front, behind, r', rfl, rfl, hd⟩ :=
    Format.delimits_of_decode (Format.delimited fun f hf => (hbuilt f hf).delimited) h
  refine ⟨?_, ?_⟩
  · cases front with
    | nil =>
      have hnone := Format.decode_of_delimits hd []
      cases hnone
    | cons b front => exact Nat.succ_pos _
  · rw [List.length_append]
    exact Nat.le_add_right _ _

/-- a header that cannot be read is not passed -/
theorem DataPage.read_unread {x : Failure}
    (h : PageHeader.format.decode o c.rest = .error x) : DataPage.read o c = (.error x, c) := by
  have hread : PageHeader.read o c = (.error x, c) :=
    (bind_ok (look_apply _ _) _).trans (bind_error (by rw [h]; rfl) _)
  exact bind_error hread _

/-- a header that can be read is passed, whatever becomes of its page -/
theorem DataPage.read_passes (h : PageHeader.format.decode o c.rest = .ok (header, n)) :
    c.pos < (DataPage.read o c).2.pos := by
  obtain ⟨hpos, hle⟩ := PageHeader.decode_pos h
  obtain ⟨c', hview, hc'⟩ : ∃ c', Cursor.view n c = (.ok (c.rest.take n), c') ∧ c.pos < c'.pos := by
    refine ⟨_, (Cursor.view_eq n c).trans (if_pos hle), ?_⟩
    show c.before.length < ((c.rest.take n).reverse ++ c.before).length
    rw [List.length_append, List.length_reverse, List.length_take]
    omega
  have hskip : Cursor.skip n c = (.ok (), c') := bind_ok hview _
  have hread : PageHeader.read o c = (.ok header, c') := by
    refine (bind_ok (look_apply _ _) _).trans ?_
    refine (bind_ok (by rw [h]; rfl) _).trans ?_
    exact bind_ok (lift_ok hskip) _
  have hrest {α : Type} {x : Step Cursor Failure α} (hx : Maintains c'.Follows Any x) :
      c.pos < (x c').2.pos := Nat.lt_of_lt_of_le hc' (hx c' (.refl c')).1.pos
  rw [DataPage.read, bind_ok hread]
  apply hrest
  refine maintains_bind (P := Any) (maintains_lift fun _ _ => trivial) fun size _ => ?_
  refine maintains_bind (P := Any) (maintains_lift fun _ _ => trivial) fun d _ => ?_
  exact maintains_bind (view_maintains c' size) fun _ _ => maintains_pure trivial

end

namespace ColumnReader

variable {b : Binding} {r r' : ColumnReader} {g : Progress} {clean : Prop}

/-- nothing can be read where the reader stands: in front of a page no header, and in a page no
run of levels -/
def Barren (r : ColumnReader) : Prop :=
  r.pageValues = 0 ∧ (∃ x, PageHeader.format.decode r.options r.chunk.rest = .error x) ∨
    0 < r.pageValues ∧ ∀ p ∈ r.page, p.levels.Blocked

/-! ## how far a reader has come -/

/-- what is left of the chunk, in slots and in bytes, and of the levels of the open page, in bytes
and in their run -/
def rank (r : ColumnReader) : Nat ×ₗ Nat ×ₗ Nat ×ₗ Nat :=
  toLex (r.columnValues, toLex (r.chunk.remaining,
    toLex ((r.page.map fun p => p.levels.stream.remaining).getD 0,
      (r.page.map fun p => p.levels.run.left).getD 0)))

theorem rank_lt_of_values (h : r'.columnValues < r.columnValues) : r'.rank < r.rank :=
  Prod.Lex.toLex_lt_toLex.mpr (Or.inl h)

theorem rank_lt_of_chunk (hvalues : r'.columnValues = r.columnValues)
    (h : r'.chunk.remaining < r.chunk.remaining) : r'.rank < r.rank :=
  Prod.Lex.toLex_lt_toLex.mpr (Or.inr ⟨hvalues, Prod.Lex.toLex_lt_toLex.mpr (Or.inl h)⟩)

theorem rank_lt_of_levels {p q : OpenPage} (hp : r.page = some p)
    (h : p.levels.Passes q.levels) : ({ r with page := some q } : ColumnReader).rank < r.rank := by
  refine Prod.Lex.toLex_lt_toLex.mpr (Or.inr ⟨rfl, Prod.Lex.toLex_lt_toLex.mpr (Or.inr ⟨rfl, ?_⟩)⟩)
  rw [hp]
  exact Prod.Lex.toLex_lt_toLex.mpr h.further

/-! ## pages -/

theorem enterPage_chunk (page : DataPage) (size values : Nat) (c : Cursor) :
    Maintains (fun r => r.columnValues = values ∧ r.chunk = c) Any (enterPage page size) := by
  refine maintains_bind maintains_state fun r hr => ?_
  split
  · exact maintains_fail _
  split
  · exact maintains_fail _
  refine maintains_bind bound_maintains fun b _ => ?_
  refine maintains_bind (P := Any) (maintains_lift fun _ _ => trivial) fun opened _ => ?_
  refine maintains_bind (subtract_maintains _ _) fun header _ => ?_
  refine maintains_bind (subtract_maintains _ _) fun columnBytes _ => ?_
  refine maintains_bind (subtract_maintains _ _) fun pageBytes _ => ?_
  exact maintains_bind (maintains_put hr) fun _ _ => maintains_pure trivial

/-- in front of no header, no page is opened -/
theorem openPage_barren (hr : r.Kept clean g b) {x : Failure}
    (h : PageHeader.format.decode r.options r.chunk.rest = .error x) :
    openPage r = (.error x, r.pageLeft) := by
  have hbytes := hr.accounts.bytes
  rw [openPage_apply (by omega)]
  exact bind_error (onChunk_apply (r := r.pageLeft) (DataPage.read_unread h)) _

/-- in front of a header the reader goes on in its chunk, whatever becomes of the page -/
theorem openPage_passes (hr : r.Kept clean g b) {header : PageHeader} {n : Nat}
    (h : PageHeader.format.decode r.options r.chunk.rest = .ok (header, n)) :
    (openPage r).2.columnValues = r.columnValues ∧
      (openPage r).2.chunk.remaining < r.chunk.remaining := by
  have hbytes := hr.accounts.bytes
  have hpasses := DataPage.read_passes h
  have hfollows := (DataPage.read_maintains r.options r.chunk r.chunk (.refl _)).1
  have hrem := hfollows.remaining
  have hless : (DataPage.read r.options r.chunk).2.remaining < r.chunk.remaining := by omega
  rw [openPage_apply (by omega)]
  rcases hread : DataPage.read r.options r.chunk with ⟨x | page, c⟩
  · rw [hread] at hless
    rw [bind_error (onChunk_apply (r := r.pageLeft) hread)]
    exact ⟨rfl, hless⟩
  · rw [hread] at hless
    rw [bind_ok (onChunk_apply (r := r.pageLeft) hread)]
    have hkeeps {x : Step ColumnReader Failure Nat}
        (hx : Maintains (fun t => t.columnValues = r.columnValues ∧ t.chunk = c) Any x) :
        (x { r.pageLeft with chunk := c }).2.columnValues = r.columnValues ∧
          (x { r.pageLeft with chunk := c }).2.chunk.remaining < r.chunk.remaining := by
      obtain ⟨hvalues, hchunk⟩ := (hx { r.pageLeft with chunk := c } ⟨rfl, rfl⟩).1
      refine ⟨hvalues, ?_⟩
      rw [hchunk]
      exact hless
    exact hkeeps (maintains_bind (passed_maintains _) fun size _ => enterPage_chunk page size.1 _ c)

/-- a page that cannot be opened leaves the reader at a barren place, or further on -/
theorem turnPage_passes (hr : r.Kept clean g b) :
    Ends (fun _ t => t = r ∨ t.rank < r.rank)
      (fun _ t => t.columnValues = r.columnValues ∧ (t.Barren ∨ t.rank < r.rank))
      (turnPage b r) := by
  rcases Nat.eq_zero_or_pos r.pageValues with hzero | hleft
  · rw [turnPage_opens hzero]
    refine ends_mapError (E := fun _ t => t.columnValues = r.columnValues ∧
      (t.Barren ∨ t.rank < r.rank)) ?_ fun _ _ h => h
    rcases hhead : PageHeader.format.decode r.options r.chunk.rest with x | ⟨header, n⟩
    · rw [openPage_barren hr hhead]
      exact ⟨rfl, Or.inl (Or.inl ⟨hzero, x, hhead⟩)⟩
    · obtain ⟨hvalues, hless⟩ := openPage_passes hr hhead
      have hrank := rank_lt_of_chunk hvalues hless
      rcases hopen : openPage r with ⟨x | n, t⟩
      · rw [hopen] at hvalues hrank
        exact ⟨hvalues, Or.inr hrank⟩
      · rw [hopen] at hrank
        exact Or.inr hrank
  · rw [turnPage_stays hleft]
    exact Or.inl rfl

/-- however the slots of a page are taken, the levels go on as their mask takes them -/
theorem takeSlots_levels (dictionary : List Value) (count : Nat) (p : OpenPage) (batch : Batch) :
    (OpenPage.takeSlots dictionary count (p, batch)).2.1.levels =
      (Hybrid.Decoder.nullMask count p.levels).2 := by
  rcases hl : Hybrid.Decoder.nullMask count p.levels with ⟨x | ⟨mask, present⟩, l⟩
  · rw [OpenPage.takeSlots_unread hl]
  · rw [OpenPage.takeSlots, state_bind]
    dsimp only
    rw [bind_ok (OpenPage.onLevels_ok hl)]
    have hkeeps {x : Step (OpenPage × Batch) Failure Nat}
        (hx : Maintains (fun s => s.1.levels = l) Any x) :
        (x ({ p with levels := l }, batch)).2.1.levels = l := (hx _ rfl).1
    apply hkeeps
    refine maintains_bind (maintains_on fun _ _ h => h) fun _ _ => ?_
    refine maintains_bind (P := Any) (.of_forall fun _ h => h) fun after _ => ?_
    refine maintains_bind (P := Any) (maintains_ofExcept fun _ _ => trivial) fun _ _ => ?_
    refine maintains_bind (P := Any) (maintains_ofExcept fun _ _ => trivial) fun _ _ => ?_
    exact maintains_bind (maintains_update fun _ h => h) fun _ _ => maintains_pure trivial

/-- slots that cannot be taken leave the reader at a barren place, or further on -/
theorem takePage_passes {batch : Batch} {s : List (Option Value)} (hr : r.Kept clean g b)
    (hpos : 0 < r.pageValues) (hs : batch.Holds s) (hroom : s.length < batchSize) :
    Ends (fun _ _ => True)
      (fun _ t => t.1.columnValues = r.columnValues ∧ (t.1.Barren ∨ t.1.rank < r.rank))
      (takePage b (r, batch)) := by
  obtain ⟨p, hp⟩ := Option.isSome_iff_exists.mp (hr.accounts.page hpos)
  have htotal := hs.total
  have hsome : 0 < min r.pageValues (batchSize - batch.total) := by omega
  have hmask : min r.pageValues (batchSize - batch.total) ≤ Hybrid.Decoder.maskSize :=
    Nat.le_trans (Nat.min_le_right ..) (Nat.sub_le ..)
  have hends := OpenPage.takeSlots_ends r.dictionary (hr.sound p hp) hs
    (show s.length + min r.pageValues (batchSize - batch.total) ≤ batchSize by omega)
  have hlevels := takeSlots_levels r.dictionary (min r.pageValues (batchSize - batch.total)) p batch
  rcases h : OpenPage.takeSlots r.dictionary (min r.pageValues (batchSize - batch.total))
    (p, batch) with ⟨x | bytes, q, batch'⟩
  · rw [h] at hlevels
    have hq : q.levels = _ := hlevels
    rw [takePage_error hp h]
    refine ⟨rfl, ?_⟩
    rcases Hybrid.Decoder.nullMask_passes hsome hmask p.levels with ⟨hblocked, hstays⟩ | hpasses
    · refine Or.inl (Or.inr ⟨hpos, fun q' hq' => ?_⟩)
      cases hq'
      rw [hq, hstays]
      exact hblocked
    · rw [← hq] at hpasses
      exact Or.inr (rank_lt_of_levels hp hpasses)
  · rw [h] at hends
    obtain ⟨-, hsum, -⟩ := hends
    rw [takePage_taken hr hp hsum h]
    trivial

/-! ## reads -/

/-- a batch gets a slot more, unless it is full or nothing is left; one that cannot be filled
leaves the reader at a barren place, or further on -/
theorem fill_passes (fuel : Nat) : ∀ (taken : Nat) {r : ColumnReader} {batch : Batch}
    {s : List (Option Value)}, r.Kept clean g b → batch.Holds s → s.length ≤ batchSize →
    Ends (fun _ t => s.length ≤ t.2.total ∧
        (0 < fuel → s.length < batchSize → 0 < r.columnValues → s.length < t.2.total))
      (fun _ t => 0 < t.1.columnValues ∧ (t.1.Barren ∨ t.1.rank < r.rank))
      (fill fuel taken (r, batch)) := by
  induction fuel with
  | zero => exact fun _ _ _ _ _ hs _ => ⟨Nat.le_of_eq hs.total.symm, fun h => absurd h (by decide)⟩
  | succ fuel ih =>
    intro taken r batch s hr hs hroom
    have htotal := hs.total
    by_cases hgo : batch.total < batchSize ∧ 0 < r.columnValues
    · have hleft := hgo.2
      rw [fill, state_bind]
      dsimp only
      rw [if_pos hgo, bind_ok (onFst_ok (bound_ok hr.binding) batch)]
      have hturn := turnPage_ends hr
      have hturn' := turnPage_passes hr
      rcases h : turnPage b r with ⟨x | upfront, r₁⟩
      · rw [h] at hturn'
        obtain ⟨hvalues, hplace⟩ := hturn'
        rw [bind_error (onFst_error h batch)]
        exact ⟨hvalues ▸ hleft, hplace⟩
      rw [h] at hturn hturn'
      obtain ⟨hr₁, hpos, hcount, -⟩ := hturn
      have hrank : r₁.rank ≤ r.rank := hturn'.elim (fun h => h ▸ le_rfl) le_of_lt
      rw [bind_ok (onFst_ok h batch)]
      have htake := takePage_ends hr₁ hpos hs (by omega)
      have htake' := takePage_passes hr₁ hpos hs (by omega)
      rcases h' : takePage b (r₁, batch) with ⟨x | bytes, r₂, batch₂⟩
      · rw [h'] at htake'
        obtain ⟨hvalues, hplace⟩ := htake'
        rw [bind_error h']
        refine ⟨?_, hplace.imp_right fun h => h.trans_le hrank⟩
        rw [hvalues, hcount]
        exact hleft
      rw [h'] at htake
      obtain ⟨hr₂, -, S, hholds, hsome, hfits, hvalues⟩ := htake
      have hvalues' : r₁.columnValues = r₂.columnValues + S.length := hvalues
      -- slots were taken, so that a failure further on is further on from here too
      have hrank₂ : r₂.rank < r.rank := rank_lt_of_values (by omega)
      have hlen : (s ++ S).length = s.length + S.length := List.length_append
      rw [bind_ok h']
      refine (ih _ hr₂ hholds (by omega)).mono ?_ ?_
      · rintro n t ⟨hmore, -⟩
        exact ⟨by omega, fun _ _ _ => by omega⟩
      · exact fun x t h => ⟨h.1, h.2.imp_right fun h => h.trans hrank₂⟩
    · rw [fill_stop hgo]
      refine ⟨Nat.le_of_eq htotal.symm, fun _ hless hleft => absurd ⟨?_, hleft⟩ hgo⟩
      omega

/-- the reader is at slots that are still to be read, whatever failed before -/
def AtSlots (r : ColumnReader) : Prop := (∃ b, r.Kept False .ready b) ∧ 0 < r.columnValues

/-- where slots are left, a read gives one, or it leaves the reader at a barren place or further
on -/
theorem read_passes (hr : r.Kept clean .ready b) (hpos : 0 < r.columnValues) (v : Batch) :
    Ends (fun _ t => t.2.total ≠ 0)
      (fun _ t => AtSlots t.1 ∧ (t.1.Barren ∨ t.1.rank < r.rank)) (read (r, v)) := by
  have hkept := read_ends hr (by decide) v
  have hfill := fill_passes batchSize 0 hr Batch.holds_nil (Nat.zero_le _)
  rw [read_fill hr.progress hpos] at hkept ⊢
  rcases h : fill batchSize 0 (r, {}) with ⟨x | n, t⟩
  · rw [h] at hkept hfill
    exact ⟨⟨⟨b, hkept.1⟩, hfill.1⟩, hfill.2⟩
  · rw [h] at hfill
    exact Nat.ne_of_gt (hfill.2 (by decide) (by decide) hpos)

/-- where nothing can be read, a read fails and the reader stays -/
theorem read_barren (hr : r.Kept clean .ready b) (hpos : 0 < r.columnValues) (h : r.Barren)
    (v : Batch) : ∃ x t, read (r, v) = (.error x, t) ∧ t.1.Barren := by
  have hfill : read (r, v) = fill (15 + 1) 0 (r, {}) := read_fill hr.progress hpos v
  rw [hfill, fill, state_bind]
  dsimp only
  rw [if_pos ⟨by decide, hpos⟩, bind_ok (onFst_ok (bound_ok hr.binding) _)]
  rcases h with ⟨hzero, x, hhead⟩ | ⟨hsome, hblocked⟩
  · have hturn := within_error (c := .readingPage b.column) (openPage_barren hr hhead)
    rw [← turnPage_opens hzero] at hturn
    exact ⟨_, _, bind_error (onFst_error hturn _) _, Or.inl ⟨hzero, x, hhead⟩⟩
  · obtain ⟨p, hp⟩ := Option.isSome_iff_exists.mp (hr.accounts.page hsome)
    have hcount : 0 < min r.pageValues batchSize := Nat.lt_min.mpr ⟨hsome, by decide⟩
    obtain ⟨x, hmask⟩ := Hybrid.Decoder.nullMask_blocked hcount (Nat.min_le_right ..)
      (hblocked p hp)
    have htake : takePage b (r, {}) = _ := takePage_error hp (OpenPage.takeSlots_unread hmask)
    refine ⟨_, _, (bind_ok (onFst_ok (turnPage_stays hsome) _) _).trans (bind_error htake _),
      Or.inr ⟨hsome, ?_⟩⟩
    intro q hq
    cases hq
    exact hblocked p hp

/-- column readers at slots that are still to be read -/
theorem exhaustible : Exhaustible read AtSlots Barren rank where
  blind := by
    rintro r v v' ⟨⟨b, hr⟩, -⟩
    exact read_blind (by rw [hr.progress]; decide) v v'
  fails := by
    rintro r v x t ⟨⟨b, hr⟩, hpos⟩ hread
    have hends := read_passes hr hpos v
    rwa [hread] at hends
  gives := by
    rintro r v n t ⟨⟨b, hr⟩, hpos⟩ - hread
    have hends := read_passes hr hpos v
    rwa [hread] at hends
  stays := by
    intro r hr hbarren
    refine silent_of_stays (J := fun r => AtSlots r ∧ Barren r) ?_ ⟨hr, hbarren⟩
    rintro r v ⟨⟨⟨b, hr⟩, hpos⟩, hbarren⟩
    obtain ⟨x, t, hread, hstays⟩ := read_barren hr hpos hbarren v
    have hends := read_passes hr hpos v
    rw [hread] at hends ⊢
    exact ⟨⟨hends.1, hstays⟩, nofun⟩

/-- a read that fails has slots that are still to be read in front of it -/
theorem atSlots_of_failed (hr : r.Kept clean g b) (hg : g ≠ .uninitialized) {v : Batch}
    {x : Failure} {t : ColumnReader × Batch} (h : read (r, v) = (.error x, t)) : AtSlots t.1 := by
  cases g with
  | uninitialized => exact absurd rfl hg
  | exhausted =>
    rw [read_exhausted hr.progress] at h
    cases h
  | ready =>
    rcases Nat.eq_zero_or_pos r.columnValues with hzero | hpos
    · rw [read_end hr.progress hzero] at h
      cases h
    · have hends := read_passes hr hpos v
      rw [h] at hends
      exact hends.1

end ColumnReader

end Columnar
