import Columnar.Proofs.Column.Whole
import Columnar.Proofs.Page

/-!
# Opening the next page of a chunk

What a reader has still to give is known before it gives it: the slots that are left of the open
page, and the pages behind it read as a whole.  A page that is opened moves from the second part
to the first.

* `ColumnReader.Reading r b`   the counters of a reader agree with each other and with the place
                               in the chunk;
* `ColumnReader.ahead b r`     what the reader has still to give;
* `ColumnReader.Gave b r r' S`   `r'` has given `S` on the way from `r`.
-/

namespace Columnar

/-- fixed lengths are numbers of 31 bits -/
def Binding.Bounded (b : Binding) : Prop := ∀ n ∈ b.typeLength, n < 2 ^ 31

/-- a page whose slots can be taken in batches -/
structure OpenPage.Readable (p : OpenPage) : Prop where
  levels : p.levels.width = 1
  values : p.values.width * batchSize < 2 ^ 64

/-! ## opening a page -/

theorem splitLevels_length {page levels rest : Bytes}
    (h : splitLevels page = .ok (levels, rest)) :
    page.length = 4 + levels.length + rest.length := by
  unfold splitLevels at h
  rw [splitFirst?_eq] at h
  split at h
  · cases h
  · rename_i len rest' h₁
    rw [splitFirst?_eq] at h
    split at h₁
    · rename_i h4
      cases h₁
      split at h
      · rename_i split h₂
        split at h₂
        · rename_i hlen
          cases h
          cases h₂
          simp only [List.length_take, List.length_drop] at *
          omega
        · cases h₂
      · cases h
    · cases h₁

theorem ofBytes_plain {bs : Bytes} {t : PhysicalType} {len : Option Nat} {d : Plain.Decoder}
    (hlen : ∀ n ∈ len, n < 2 ^ 31) (h : Plain.Decoder.ofBytes bs t len = .ok d) :
    d.remaining = bs.length ∧ d.width * batchSize < 2 ^ 64 := by
  unfold Plain.Decoder.ofBytes at h
  split at h
  · rename_i width
    cases h
    have := hlen width rfl
    refine ⟨rfl, ?_⟩
    show width * 16 < 2 ^ 64
    omega
  · cases h
  · cases h
  · cases h
    refine ⟨rfl, ?_⟩
    show t.fixedWidth?.getD 0 * 16 < 2 ^ 64
    cases t <;> decide

theorem ofBytes_hybrid {bs : Bytes} {w : Nat} {d : Hybrid.Decoder}
    (h : Hybrid.Decoder.ofBytes bs w = .ok d) : d.stream.remaining = bs.length ∧ d.width = w := by
  unfold Hybrid.Decoder.ofBytes at h
  split at h
  · cases h
    exact ⟨rfl, rfl⟩
  · cases h

theorem openValues_left {b : Binding} (hb : b.Bounded) {encoding : Encoding} {bs : Bytes}
    {values : PageValues} {width : Nat}
    (h : ColumnReader.openValues b encoding bs = .ok (values, width)) :
    values.remaining + width = bs.length ∧ values.width * batchSize < 2 ^ 64 := by
  unfold ColumnReader.openValues at h
  split at h
  · split at h
    · cases h
    · split at h
      · cases h
      · rename_i w rest
        cases e : Hybrid.Decoder.ofBytes rest w.toNat with
        | error x =>
          rw [e] at h
          cases h
        | ok d =>
          rw [e] at h
          cases h
          refine ⟨?_, by show 0 * 16 < 2 ^ 64; decide⟩
          show d.stream.remaining + 1 = (w :: rest).length
          rw [(ofBytes_hybrid e).1, List.length_cons]
  · cases e : Plain.Decoder.ofBytes bs b.type b.typeLength with
    | error x =>
      rw [e] at h
      cases h
    | ok d =>
      rw [e] at h
      cases h
      exact ofBytes_plain hb e

/-- a page that was opened can be taken in batches, and what was not passed is left of it -/
theorem openBody_left {b : Binding} (hb : b.Bounded) {page : DataPage} {p : OpenPage}
    {front : Nat} (h : ColumnReader.openBody b page = .ok (p, front)) :
    p.Readable ∧ p.left + front = page.body.length := by
  unfold ColumnReader.openBody at h
  obtain ⟨⟨levels, rest⟩, h₁, h₂⟩ := Except.bind_eq_ok.mp h
  obtain ⟨⟨values, width⟩, h₃, h₄⟩ := Except.bind_eq_ok.mp h₂
  obtain ⟨levels', h₅, h₆⟩ := Except.bind_eq_ok.mp h₄
  cases h₆
  have h1 := splitLevels_length h₁
  obtain ⟨h2, h3⟩ := openValues_left hb h₃
  obtain ⟨h4, h5⟩ := ofBytes_hybrid h₅
  refine ⟨⟨h5, h3⟩, ?_⟩
  show levels'.stream.remaining + values.remaining + (4 + width) = _
  omega

namespace ColumnReader

/-- the counters of a reader agree with each other and with the place in the chunk -/
structure Reading (r : ColumnReader) (b : Binding) : Prop where
  binding : r.binding = some b
  values : r.pageValues ≤ r.columnValues
  bytes : r.columnBytes = r.chunk.remaining + r.pageBytes
  page : 0 < r.pageValues → ∃ p, r.page = some p ∧ p.Readable ∧ r.pageBytes = p.left

/-- two states of a reader within one chunk -/
structure Within (r r' : ColumnReader) : Prop where
  options : r'.options = r.options
  dictionary : r'.dictionary = r.dictionary
  progress : r'.progress = r.progress

theorem Within.refl (r : ColumnReader) : r.Within r := ⟨rfl, rfl, rfl⟩

theorem Within.trans {r s t : ColumnReader} (h : r.Within s) (h' : s.Within t) : r.Within t :=
  ⟨h'.options.trans h.options, h'.dictionary.trans h.dictionary, h'.progress.trans h.progress⟩

/-- the slots that are left of the open page -/
def here (r : ColumnReader) : Except Failure (List (Option Value)) :=
  match r.page with
  | none => pure []
  | some p => p.slots r.dictionary r.pageValues

/-- the slots of the pages behind the open one -/
def behind (b : Binding) (r : ColumnReader) : Except Failure (List (Option Value)) :=
  (Whole.slots r.options b r.dictionary (r.columnValues - r.pageValues)).answer r.chunk

/-- what the reader has still to give -/
def ahead (b : Binding) (r : ColumnReader) : Except Failure (List (Option Value)) := do
  let first ← r.here
  let rest ← r.behind b
  pure (first ++ rest)

theorem here_of_zero {r : ColumnReader} (h : r.pageValues = 0) : r.here = .ok [] := by
  unfold here
  split
  · rfl
  · rw [h]
    rfl

/-- slots that are taken off the open page are taken off all that is ahead -/
theorem ahead_of_here {b : Binding} {r r' : ColumnReader} {S : List (Option Value)}
    (h : r.here = (S ++ ·) <$> r'.here) (h' : r.behind b = r'.behind b) :
    r.ahead b = (S ++ ·) <$> r'.ahead b := by
  rw [ahead, ahead, h, h']
  cases r'.here with
  | error x => rfl
  | ok first =>
    cases r'.behind b with
    | error x => rfl
    | ok rest =>
      show Except.ok (S ++ first ++ rest) = Except.ok (S ++ (first ++ rest))
      rw [List.append_assoc]

theorem nil_append_answer {ε α : Type} (x : Except ε (List α)) : ([] ++ ·) <$> x = x := by
  cases x <;> rfl

/-- `r'` has given the slots `S` on the way from `r` -/
structure Gave (b : Binding) (r r' : ColumnReader) (S : List (Option Value)) : Prop where
  reading : r'.Reading b
  within : r.Within r'
  left : S.length + r'.columnValues = r.columnValues
  ahead : r.ahead b = (S ++ ·) <$> r'.ahead b

theorem Gave.refl {b : Binding} {r : ColumnReader} (h : r.Reading b) : Gave b r r [] :=
  ⟨h, .refl r, Nat.zero_add _, (nil_append_answer _).symm⟩

theorem Gave.trans {b : Binding} {r s t : ColumnReader} {S T : List (Option Value)}
    (h : Gave b r s S) (h' : Gave b s t T) : Gave b r t (S ++ T) := by
  refine ⟨h'.reading, h.within.trans h'.within, ?_, ?_⟩
  · have h1 := h.left
    have h2 := h'.left
    rw [List.length_append]
    omega
  · rw [h.ahead, h'.ahead]
    cases t.ahead b with
    | error x => rfl
    | ok slots =>
      show Except.ok (S ++ (T ++ slots)) = Except.ok (S ++ T ++ slots)
      rw [List.append_assoc]

/-- what fails behind slots that were given failed in front of them -/
theorem Gave.error {b : Binding} {r r' : ColumnReader} {S : List (Option Value)}
    (h : Gave b r r' S) (h' : ∃ x, r'.ahead b = .error x) : ∃ x, r.ahead b = .error x := by
  obtain ⟨x, hx⟩ := h'
  refine ⟨x, ?_⟩
  rw [h.ahead, hx]
  rfl

theorem ahead_of_here_error {b : Binding} {r : ColumnReader} {x : Failure}
    (h : r.here = .error x) : r.ahead b = .error x := by
  rw [ahead, h]
  rfl

theorem bound_ok {r : ColumnReader} {b : Binding} (h : r.binding = some b) :
    bound r = (.ok b, r) := by
  rw [bound, Step.state_bind, h]
  rfl

theorem onChunk_apply {α : Type} {r : ColumnReader} {x : Step Cursor Failure α}
    {a : Except Failure α} {c : Cursor} (h : x r.chunk = (a, c)) :
    onChunk x r = (a, { r with chunk := c }) := by
  rw [onChunk, Step.on_apply, h]

theorem passed_ok {r : ColumnReader} {start : Nat} (h : start ≤ r.chunk.pos)
    (h' : r.chunk.pos - start ≤ r.columnBytes) :
    passed start r =
      (.ok (r.chunk.pos - start, r.columnBytes - (r.chunk.pos - start)), r) := by
  rw [passed, Step.state_bind, Step.subtract_bind h,
    if_neg (Nat.not_lt.mpr h')]
  rfl

/-- a reader behind a page, with the cursor at `c` -/
def between (r : ColumnReader) (c : Cursor) : ColumnReader :=
  { r with columnBytes := r.chunk.remaining, pageBytes := 0, page := none, chunk := c }

theorem openPage_unread {r : ColumnReader} {b : Binding} (hr : r.Reading b) {x : Failure}
    {c : Cursor} (h : DataPage.read r.options r.chunk = (.error x, c)) :
    openPage r = (.error x, r.between c) := by
  have hbytes := hr.bytes
  have hsub : r.pageBytes ≤ r.columnBytes := by omega
  have hcol : r.columnBytes - r.pageBytes = r.chunk.remaining := by omega
  rw [openPage, Step.state_bind, Step.subtract_bind hsub, hcol]
  refine (Step.put_bind _ _ _).trans ?_
  exact Step.bind_error (onChunk_apply (r := r.between r.chunk) h) _

/-- what follows a page that was read -/
theorem openPage_read {r : ColumnReader} {b : Binding} (hr : r.Reading b) {page : DataPage}
    {c : Cursor} (h : DataPage.read r.options r.chunk = (.ok page, c)) :
    openPage r = enterPage page (c.pos - r.chunk.pos) (r.between c) := by
  have hbytes := hr.bytes
  have hsub : r.pageBytes ≤ r.columnBytes := by omega
  have hcol : r.columnBytes - r.pageBytes = r.chunk.remaining := by omega
  have hfollows := ((DataPage.read_maintains r.options r.chunk).of_eq (.refl _) h).1
  have hpos := hfollows.pos
  have hrem := hfollows.remaining
  rw [openPage, Step.state_bind, Step.subtract_bind hsub, hcol]
  refine (Step.put_bind _ _ _).trans ?_
  refine (Step.bind_ok (onChunk_apply (r := r.between r.chunk) h) _).trans ?_
  refine Step.bind_ok (passed_ok hpos ?_) _
  show c.pos - r.chunk.pos ≤ r.chunk.remaining
  omega

/-- a reader in front of the slots of a page of `size` bytes -/
def entered (r : ColumnReader) (page : DataPage) (p : OpenPage) (upfront size : Nat) :
    ColumnReader :=
  { r with
    columnBytes := r.columnBytes - upfront
    pageBytes := size - upfront
    pageValues := page.numValues
    page := some p }

theorem enterPage_count {r : ColumnReader} {page : DataPage} (size : Nat)
    (h : page.numValues = 0 ∨ r.columnValues < page.numValues) :
    ∃ x, enterPage page size r = (.error x, r) := by
  rw [enterPage, Step.state_bind]
  by_cases hnone : page.numValues = 0
  · rw [if_pos hnone]
    exact ⟨_, rfl⟩
  · rw [if_neg hnone, if_pos (h.resolve_left hnone)]
    exact ⟨_, rfl⟩

theorem enterPage_body {r : ColumnReader} {b : Binding} {page : DataPage} {size : Nat} {x : Error}
    (hbind : r.binding = some b) (hnone : page.numValues ≠ 0)
    (hmany : page.numValues ≤ r.columnValues) (hopen : openBody b page = .error x) :
    enterPage page size r = (.error (.error x), r) := by
  rw [enterPage, Step.state_bind, if_neg hnone,
    if_neg (Nat.not_lt.mpr hmany), Step.bind_ok (bound_ok hbind), hopen]
  rfl

theorem enterPage_ok {r : ColumnReader} {b : Binding} {page : DataPage} {p : OpenPage}
    {front : Nat} (size : Nat) (hbind : r.binding = some b) (hnone : page.numValues ≠ 0)
    (hmany : page.numValues ≤ r.columnValues) (hopen : openBody b page = .ok (p, front))
    (hfront : front ≤ page.body.length) (hbody : page.body.length ≤ size)
    (hsize : size ≤ r.columnBytes) :
    enterPage page size r = (.ok (size - page.body.length + front),
      r.entered page p (size - page.body.length + front) size) := by
  rw [enterPage, Step.state_bind, if_neg hnone,
    if_neg (Nat.not_lt.mpr hmany), Step.bind_ok (bound_ok hbind)]
  refine (Step.bind_ok (Step.liftM_ok hopen r) _).trans ?_
  refine (Step.subtract_bind hbody _ r).trans ?_
  refine (Step.subtract_bind (by omega) _ r).trans ?_
  exact Step.subtract_bind (by omega) _ r

/-- between two pages, all that is ahead is behind -/
theorem ahead_of_zero {r : ColumnReader} (b : Binding) (hzero : r.pageValues = 0) :
    r.ahead b = (Whole.slots r.options b r.dictionary r.columnValues).answer r.chunk := by
  rw [ahead, here_of_zero hzero, behind, hzero, Nat.sub_zero]
  cases (Whole.slots r.options b r.dictionary r.columnValues).answer r.chunk <;> rfl

/-- a page that was opened is the first of those that were behind -/
theorem openPage_spec {r : ColumnReader} {b : Binding} (hr : r.Reading b) (hb : b.Bounded)
    (hzero : r.pageValues = 0) (hpos : 0 < r.columnValues) :
    (∃ n r', openPage r = (.ok n, r') ∧ Gave b r r' [] ∧ 0 < r'.pageValues) ∨
    ((∃ x t, openPage r = (.error x, t)) ∧ ∃ x, r.ahead b = .error x) := by
  have hahead := ahead_of_zero b hzero
  rw [Step.answer, Whole.slots, if_neg (Nat.ne_of_gt hpos)] at hahead
  rcases h : DataPage.read r.options r.chunk with ⟨x | page, c⟩
  · rw [Step.bind_error h] at hahead
    exact Or.inr ⟨⟨x, r.between c, openPage_unread hr h⟩, x, hahead⟩
  · have hrem := ((DataPage.read_maintains r.options r.chunk).of_eq (.refl _) h).1.remaining
    have hbody := DataPage.read_pos h
    rw [Step.bind_ok h] at hahead
    rw [openPage_read hr h]
    by_cases hcount : page.numValues = 0 ∨ r.columnValues < page.numValues
    · rw [dif_pos hcount] at hahead
      obtain ⟨x, hx⟩ := enterPage_count (r := r.between c) (c.pos - r.chunk.pos) hcount
      exact Or.inr ⟨⟨x, _, hx⟩, _, hahead⟩
    · rw [dif_neg hcount] at hahead
      obtain ⟨hnone, hmany⟩ := not_or.mp hcount
      rcases hopen : openBody b page with x | ⟨p, front⟩
      · rw [hopen] at hahead
        exact Or.inr ⟨⟨.error x, _, enterPage_body hr.binding hnone (Nat.not_lt.mp hmany) hopen⟩,
          .error x, hahead⟩
      · rw [hopen] at hahead
        obtain ⟨hread, hleft⟩ := openBody_left hb hopen
        have henter := enterPage_ok (r := r.between c) (c.pos - r.chunk.pos) hr.binding
          hnone (Nat.not_lt.mp hmany) hopen (by omega) (by omega)
          (show c.pos - r.chunk.pos ≤ r.chunk.remaining by omega)
        refine Or.inl ⟨_, _, henter, ⟨⟨hr.binding, Nat.not_lt.mp hmany, ?_,
          fun _ => ⟨p, rfl, hread, ?_⟩⟩, ⟨rfl, rfl, rfl⟩, Nat.zero_add _, ?_⟩,
          Nat.pos_of_ne_zero hnone⟩
        · show r.chunk.remaining - (c.pos - r.chunk.pos - page.body.length + front) =
            c.remaining + (c.pos - r.chunk.pos - (c.pos - r.chunk.pos - page.body.length + front))
          omega
        · show c.pos - r.chunk.pos - (c.pos - r.chunk.pos - page.body.length + front) = p.left
          omega
        · rw [nil_append_answer, hahead]
          exact Step.answer_two (p.slots r.dictionary page.numValues)
            (Whole.slots r.options b r.dictionary (r.columnValues - page.numValues))
            (fun first rest => first ++ rest) c

end ColumnReader

end Columnar
