import Columnar.Proofs.Column.Opening
import Columnar.Proofs.Hybrid.Bounds
import Columnar.Proofs.Plain.Bounds

/-!
# What is left of a page

Slots are taken off a page or cannot be taken, and either way what is left of the page can be
read on.  Only bytes that were taken are no longer left.

* `OpenPage.Sound n p`          `p` can be read on, and lies in `n` bytes;
* `OpenPage.takeSlots_ends`     some slots of a page into a batch with room for them;
* `ColumnReader.openBody_sound` a page that is opened.
-/

namespace Columnar

open Step

namespace PageValues

/-- what values are read with can be read on -/
def Bounded : PageValues → Prop
  | plain d => d.bitOffset < 8
  | indices d => d.Bounded

/-- `q` is `p` read on, and can be read on -/
structure Onward (p q : PageValues) : Prop where
  follows : p.Follows q
  bounded : q.Bounded

theorem Onward.refl {p : PageValues} (h : p.Bounded) : p.Onward p := ⟨.refl p, h⟩

theorem onward_plain {d e : Plain.Decoder} (h : d.Onward e) : (plain d).Onward (plain e) :=
  ⟨follows_plain h.follows, h.bounded⟩

theorem onward_indices {d e : Hybrid.Decoder} (h : d.Onward e) : (indices d).Onward (indices e) :=
  ⟨follows_indices h.follows, h.bounded⟩

/-- the bytes that values are read from -/
def size (p : PageValues) : Nat := p.consumed + p.remaining

end PageValues

namespace OpenPage

/-! ## values -/

theorem lookUp_ends (dictionary : List Value) {d : Hybrid.Decoder} (hd : d.Bounded) :
    Ends (fun _ e => d.Onward e) (fun x e => d.Onward e ∧ x.Regular) (lookUp dictionary d) := by
  refine ends_bind (ends_mapError (Hybrid.Decoder.next_ends hd) fun _ _ h => h) ?_
  rintro i e ⟨honward, -⟩
  cases dictionary[i]? with
  | none => exact ⟨honward, fun h => h⟩
  | some v => exact honward

theorem lookUp_onward (dictionary : List Value) (d : Hybrid.Decoder) :
    Maintains d.Onward Any (lookUp dictionary) := by
  refine .of_forall fun e he => ?_
  have h := lookUp_ends dictionary he.bounded
  rcases hrun : lookUp dictionary e with ⟨x | v, e'⟩
  · rw [hrun] at h
    exact he.trans h.1
  · rw [hrun] at h
    exact he.trans h

theorem lookUp_fails (dictionary : List Value) (d : Hybrid.Decoder) :
    Fails d.Onward Failure.Regular (lookUp dictionary) := by
  intro e he x hx
  have h := lookUp_ends dictionary he.bounded
  rcases hrun : lookUp dictionary e with ⟨x' | v, e'⟩
  · rw [hrun] at h hx
    cases hx
    exact h.2
  · rw [hrun] at hx
    cases hx

theorem takeValues_plain (dictionary : List Value) (n : Nat) (d : Plain.Decoder) (b : Batch) :
    takeValues dictionary n (.plain d, b) = ((Plain.Decoder.values n (d, b)).1,
      (.plain (Plain.Decoder.values n (d, b)).2.1, (Plain.Decoder.values n (d, b)).2.2)) := rfl

theorem takeValues_indices (dictionary : List Value) (n : Nat) (d : Hybrid.Decoder) (b : Batch) :
    takeValues dictionary n (.indices d, b) = ((Batch.pushEach (lookUp dictionary) n (d, b)).1,
      (.indices (Batch.pushEach (lookUp dictionary) n (d, b)).2.1,
        (Batch.pushEach (lookUp dictionary) n (d, b)).2.2)) := rfl

/-- into a batch with room for them, values of a page are read as long as there are any -/
theorem takeValues_ends (dictionary : List Value) {n : Nat} {p : PageValues} {b : Batch}
    (hp : p.Bounded) (hwidth : p.width * n < 2 ^ 64) (hroom : b.values.length + n ≤ batchSize) :
    Ends (fun _ t => p.Onward t.1) (fun x t => p.Onward t.1 ∧ x.Regular)
      (takeValues dictionary n (p, b)) := by
  match p with
  | .plain d =>
    have h := Plain.Decoder.values_ends (d := d) hp hwidth hroom
    rw [takeValues_plain]
    rcases hrun : Plain.Decoder.values n (d, b) with ⟨x | ⟨⟩, e, b'⟩
    · rw [hrun] at h
      exact ⟨PageValues.onward_plain h.1, h.2⟩
    · rw [hrun] at h
      exact PageValues.onward_plain (e := e) h
  | .indices d =>
    have h := Batch.pushEach_ends (lookUp_onward dictionary d) (lookUp_fails dictionary d) n d b
      (.refl hp) hroom
    rw [takeValues_indices]
    rcases hrun : Batch.pushEach (lookUp dictionary) n (d, b) with ⟨x | ⟨⟩, e, b'⟩
    · rw [hrun] at h
      exact ⟨PageValues.onward_indices h.1, h.2⟩
    · rw [hrun] at h
      exact PageValues.onward_indices (e := e) h

/-! ## slots -/

/-- the bytes that a page is read from -/
def size (p : OpenPage) : Nat := p.levels.stream.size + p.values.size

/-- a page that can be read on, and lies in `n` bytes -/
structure Sound (n : Nat) (p : OpenPage) : Prop where
  readable : p.Readable
  levels : p.levels.Bounded
  values : p.values.Bounded
  size : p.size ≤ n

variable {n : Nat} {p q : OpenPage}

/-- a page that was read on can be read on -/
theorem Sound.onward (h : p.Sound n) (hl : p.levels.Onward q.levels)
    (hv : p.values.Onward q.values) : q.Sound n := by
  refine ⟨⟨?_, ?_⟩, hl.bounded, hv.bounded, ?_⟩
  · rw [hl.follows.width]
    exact h.readable.levels
  · rw [hv.follows.width]
    exact h.readable.values
  · have hsize := h.size
    have hlevels := hl.follows.stream.size
    have hvalues := hv.follows.size
    unfold OpenPage.size PageValues.size at *
    omega

/-- what is left of a page that was read on was left before -/
theorem left_le (hl : p.levels.Onward q.levels) (hv : p.values.Onward q.values) :
    q.left ≤ p.left := by
  have hlevels := hl.follows.stream.remaining
  have hpos := hl.follows.stream.pos
  have hvalues := hv.follows.size
  have hconsumed := hv.follows.consumed
  unfold left
  omega

/-- the next slots of a page go into a batch with room for them, and the bytes that they take
are no longer left; or there are too few, or they are not what they should be -/
theorem takeSlots_ends (dictionary : List Value) {count : Nat} {b : Batch}
    {s : List (Option Value)} (hp : p.Sound n) (hb : b.Holds s)
    (hcount : s.length + count ≤ batchSize) :
    Ends (fun bytes t => t.1.Sound n ∧ p.left = t.1.left + bytes ∧
        ∃ S : List (Option Value), S.length = count ∧ t.2.Holds (s ++ S))
      (fun x t => t.1.Sound n ∧ t.1.left ≤ p.left ∧ x.Regular)
      (takeSlots dictionary count (p, b)) := by
  have hmask := Hybrid.Decoder.nullMask_ends (show count ≤ Hybrid.Decoder.maskSize from
    Nat.le_trans (Nat.le_add_left ..) hcount) hp.levels
  have hvalues := hb.length_values
  rcases hl : Hybrid.Decoder.nullMask count p.levels with ⟨x | ⟨mask, m⟩, l⟩
  · rw [hl] at hmask
    obtain ⟨honward, hx⟩ := hmask
    have hstay : p.values.Onward p.values := .refl hp.values
    rw [takeSlots_unread hl]
    exact ⟨hp.onward (q := { p with levels := l }) honward hstay,
      left_le (q := { p with levels := l }) honward hstay, hx⟩
  · rw [hl] at hmask
    obtain ⟨honward, hm⟩ := hmask
    have hm' : m ≤ count := hm
    have hw : p.values.width * m < 2 ^ 64 :=
      Nat.lt_of_le_of_lt (Nat.mul_le_mul_left _ (show m ≤ batchSize by omega)) hp.readable.values
    have htake := takeValues_ends dictionary (b := b) hp.values hw (by omega)
    rcases hv : takeValues dictionary m (p.values, b) with ⟨x | ⟨⟩, v, b'⟩
    · rw [hv] at htake
      obtain ⟨hvalues', hx⟩ := htake
      rw [takeSlots_error hl hv]
      exact ⟨hp.onward (q := ⟨l, v⟩) honward hvalues', left_le (q := ⟨l, v⟩) honward hvalues', hx⟩
    · rw [hv] at htake
      have hok := takeSlots_ok hl hv honward.follows.stream.pos htake.follows.consumed
      obtain ⟨bytes, q, b'', S, hspec, htook⟩ | ⟨⟨x, t, hspec⟩, -⟩ :=
        takeSlots_spec dictionary count hp.readable.levels hp.readable.values hb hcount
      · rw [hok] at hspec ⊢
        cases hspec
        exact ⟨hp.onward (q := ⟨l, v⟩) honward htake, htook.left, S, htook.length, htook.holds⟩
      · rw [hok] at hspec
        cases hspec

end OpenPage

/-! ## opening a page -/

theorem splitLevels_regular {bs : Bytes} : ∀ e, splitLevels bs = .error e → e.Regular := by
  intro e he
  unfold splitLevels at he
  repeat' split at he
  all_goals cases he
  all_goals exact fun h => h

theorem Plain.Decoder.ofBytes_regular {bs : Bytes} {t : PhysicalType} {len : Option Nat} :
    ∀ e, ofBytes bs t len = .error e → e.Regular := by
  intro e he
  unfold ofBytes at he
  split at he <;> cases he <;> exact fun h => h

theorem Hybrid.Decoder.ofBytes_regular {bs : Bytes} {w : Nat} :
    ∀ e, ofBytes bs w = .error e → e.Regular := by
  intro e he
  unfold ofBytes at he
  split at he <;> cases he
  exact fun h => h

namespace ColumnReader

variable {b : Binding}

theorem openValues_regular {encoding : Encoding} {bs : Bytes} :
    ∀ e, openValues b encoding bs = .error e → e.Regular := by
  intro e he
  unfold openValues at he
  split at he
  · split at he
    · cases he
      exact fun h => h
    · split at he
      · cases he
        exact fun h => h
      · exact Except.error_of_bind Hybrid.Decoder.ofBytes_regular (fun _ => pure_regular) e he
  · exact Except.error_of_bind Plain.Decoder.ofBytes_regular (fun _ => pure_regular) e he

/-- values that are opened lie in the bytes behind the levels -/
theorem openValues_sound {encoding : Encoding} {bs : Bytes} {values : PageValues} {width : Nat}
    (h : openValues b encoding bs = .ok (values, width)) :
    values.Bounded ∧ values.size ≤ bs.length := by
  unfold openValues at h
  split at h
  · split at h
    · cases h
    · split at h
      · cases h
      · rename_i w rest
        obtain ⟨d, hd, h₁⟩ := Except.bind_eq_ok.mp h
        cases h₁
        obtain ⟨hstream, hbounded⟩ := Hybrid.Decoder.ofBytes_start hd
        refine ⟨hbounded, ?_⟩
        show d.stream.pos + d.stream.remaining ≤ (w :: rest).length
        rw [hstream]
        show 0 + rest.length ≤ rest.length + 1
        omega
  · obtain ⟨d, hd, h₁⟩ := Except.bind_eq_ok.mp h
    cases h₁
    obtain ⟨hcursor, hbit⟩ := Plain.Decoder.ofBytes_start hd
    refine ⟨show d.bitOffset < 8 by omega, ?_⟩
    show d.cursor.pos + d.cursor.remaining ≤ bs.length
    rw [hcursor]
    show 0 + bs.length ≤ bs.length
    omega

/-- a page that was opened lies in its body -/
theorem openBody_sound (hb : b.Bounded) {page : DataPage} {p : OpenPage} {front : Nat}
    (h : openBody b page = .ok (p, front)) : p.Sound page.body.length := by
  have hread := (openBody_left hb h).1
  unfold openBody at h
  obtain ⟨⟨levels, rest⟩, h₁, h₂⟩ := Except.bind_eq_ok.mp h
  obtain ⟨⟨values, width⟩, h₃, h₄⟩ := Except.bind_eq_ok.mp h₂
  obtain ⟨levels', h₅, h₆⟩ := Except.bind_eq_ok.mp h₄
  cases h₆
  obtain ⟨hbounded, hsize⟩ := openValues_sound h₃
  obtain ⟨hstream, hlevels⟩ := Hybrid.Decoder.ofBytes_start h₅
  refine ⟨hread, hlevels, hbounded, ?_⟩
  have hlen := splitLevels_length h₁
  show levels'.stream.size + values.size ≤ page.body.length
  rw [hstream]
  show 0 + levels.length + values.size ≤ page.body.length
  omega

theorem openBody_regular {page : DataPage} :
    ∀ e, openBody b page = .error e → e.Regular := by
  unfold openBody
  refine Except.error_of_bind splitLevels_regular fun a => ?_
  refine Except.error_of_bind openValues_regular fun a => ?_
  exact Except.error_of_bind Hybrid.Decoder.ofBytes_regular fun _ => pure_regular

end ColumnReader

end Columnar
