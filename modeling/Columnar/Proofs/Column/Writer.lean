import Columnar.Proofs.Column.Body
import Columnar.Proofs.Column.Whole
import Columnar.Proofs.Page
import Columnar.Proofs.Record.RoundTrip

/-!
# A chunk that was written, read as a whole

* `piecesOf_flatten`          the pieces of a list, put together;
* `takes_writePage`           the header of a page that was written is found in front of its body;
* `Whole.takes_pages`         data pages are read as their slots;
* `Whole.takes_dictionary`    a dictionary page is read as its entries.
-/

namespace Columnar

/-! ## pieces -/

theorem piecesOf_nil {α : Type} (n : Nat) : piecesOf n ([] : List α) = [] := by
  rw [piecesOf, dif_pos (Or.inr rfl)]

theorem piecesOf_of_ne {α : Type} {n : Nat} {xs : List α} (hn : 0 < n) (h : xs ≠ []) :
    piecesOf n xs = xs.take n :: piecesOf n (xs.drop n) := by
  rw [piecesOf, dif_neg (not_or.mpr ⟨Nat.ne_of_gt hn, h⟩)]

/-- what holds of no list, and of a list when it holds of what is left behind its first piece -/
theorem piecesOf_induction {α : Type} {n : Nat} (hn : 0 < n) {P : List α → Prop} (nil : P [])
    (step : ∀ xs, xs ≠ [] → P (xs.drop n) → P xs) (xs : List α) : P xs := by
  by_cases h : xs = []
  · rw [h]
    exact nil
  · exact step xs h (piecesOf_induction hn nil step (xs.drop n))
termination_by xs.length
decreasing_by
  have := List.length_pos_iff.mpr h
  rw [List.length_drop]
  omega

theorem piecesOf_flatten {α : Type} {n : Nat} (hn : 0 < n) (xs : List α) :
    (piecesOf n xs).flatten = xs := by
  refine piecesOf_induction (P := fun xs => (piecesOf n xs).flatten = xs) hn ?_ ?_ xs
  · rw [piecesOf_nil]
    rfl
  · intro xs h ih
    rw [piecesOf_of_ne hn h, List.flatten_cons, ih, List.take_append_drop]

/-- a piece is not empty, and has no more than `n` members, nor more than there are -/
theorem length_of_mem_piecesOf {α : Type} {n : Nat} (hn : 0 < n) (xs : List α) :
    ∀ p ∈ piecesOf n xs, 0 < p.length ∧ p.length ≤ min n xs.length := by
  refine piecesOf_induction (P := fun xs => ∀ p ∈ piecesOf n xs,
    0 < p.length ∧ p.length ≤ min n xs.length) hn ?_ ?_ xs
  · rw [piecesOf_nil]
    exact List.forall_mem_nil _
  · intro xs h ih
    have hpos := List.length_pos_iff.mpr h
    rw [piecesOf_of_ne hn h]
    refine List.forall_mem_cons.mpr ⟨?_, fun p hp => ?_⟩
    · rw [List.length_take]
      omega
    · have hlen := ih p hp
      rw [List.length_drop] at hlen
      omega

/-! ## pages -/

/-- the header of a page with a body of `size` bytes -/
def PageHeader.ofSize (h : PageHeader) (size : Nat) : PageHeader :=
  { h with uncompressedPageSize := Int32.ofNat size, compressedPageSize := Int32.ofNat size }

theorem PageHeader.bodySize_ofSize (h : PageHeader) {size : Nat} (hlt : size < 2 ^ 31) :
    (h.ofSize size).bodySize = .ok size := by
  have hsize : (Int32.ofNat size).toInt = size := Int32.toInt_ofNat_of_lt hlt
  rw [bodySize]
  show (if (Int32.ofNat size).toInt < 0 ∨ (Int32.ofNat size).toInt < 0 then _
    else if (Int32.ofNat size).toInt ≠ (Int32.ofNat size).toInt then _ else _) = _
  rw [hsize, if_neg (by omega), if_neg (fun h => h rfl)]
  show Except.ok (Int32.ofNat size).toInt.toNat = _
  rw [hsize, Int.toNat_natCast]

/-- a page that was written is its header and its body -/
theorem takes_writePage {header : PageHeader} {body bytes : Bytes} {o : Options}
    (h : writePage header body = .ok bytes) (hwithin : (header.ofSize body.length).Within o) :
    body.length < 2 ^ 31 ∧ ∃ front, bytes = front ++ body ∧
      Cursor.Takes (PageHeader.read o) front (header.ofSize body.length) := by
  rw [writePage] at h
  split at h
  · cases h
  · rename_i hlt
    obtain ⟨front, hwrite, hread⟩ := Format.roundTrips_of_carried (d := 3) (by decide)
      (PageHeader.carried (d := 0) hwithin)
    have hencode : PageHeader.format.encode (header.ofSize body.length) =
        .ok (front, front.length) := hwrite []
    obtain ⟨⟨front', len⟩, hencode', h₁⟩ := Except.bind_eq_ok.mp h
    cases h₁
    obtain ⟨rfl, -⟩ := Prod.mk.inj (Except.ok.inj (hencode.symm.trans hencode'))
    refine ⟨Nat.not_le.mp hlt, front, rfl, fun before rest => ?_⟩
    rw [PageHeader.read, Step.bind_ok (Step.look_apply _ _)]
    refine (Step.bind_ok (Step.ofExcept_ok (hread rest) _) _).trans ?_
    exact Step.bind_ok (Step.lift_ok (Step.bind_ok (Cursor.view_append before front _) _)) _

theorem length_writePage {header : PageHeader} {body bytes : Bytes}
    (h : writePage header body = .ok bytes) :
    body.length < 2 ^ 31 ∧ body.length ≤ bytes.length := by
  rw [writePage] at h
  split at h
  · cases h
  · rename_i hlt
    obtain ⟨⟨front, len⟩, -, h₁⟩ := Except.bind_eq_ok.mp h
    cases h₁
    rw [List.length_append]
    exact ⟨Nat.not_le.mp hlt, Nat.le_add_left _ _⟩

/-! ## data pages -/

namespace ColumnWriter

variable {b : Binding} {d : Option Dictionary} {slots : List (Option Bytes)}

/-- a data page has the length of its levels at least -/
theorem length_dataPage {w : ColumnWriter} {t : PhysicalType} {bytes : Bytes}
    (h : w.dataPage t d slots = .ok bytes) : 4 ≤ bytes.length := by
  obtain ⟨⟨body, encoding⟩, hbody, hwrite⟩ := Except.bind_eq_ok.mp h
  refine Nat.le_trans ?_ (length_writePage hwrite).2
  obtain ⟨levels, hlevels, h₁⟩ := Except.bind_eq_ok.mp hbody
  have hlen : 4 ≤ levels.length := by
    obtain ⟨bs, -, h₂⟩ := Except.bind_eq_ok.mp hlevels
    cases h₂
    rw [List.length_append, toLE_length]
    exact Nat.le_add_right _ _
  have hle : levels.length ≤ body.length := by
    cases d with
    | none =>
      cases h₁
      rw [List.length_append]
      exact Nat.le_add_right _ _
    | some d =>
      obtain ⟨indices, -, h₂⟩ := Except.bind_eq_ok.mp h₁
      cases h₂
      rw [List.length_append]
      exact Nat.le_add_right _ _
  exact Nat.le_trans hlen hle

theorem DataPageHeader.check_ofSize {h : DataPageHeader} {n : Nat} (hn : n < 2 ^ 31)
    (hcount : h.numValues = Int32.ofNat n) (hlevels : h.definitionLevelEncoding = .rle)
    (hencoding : h.encoding = .plain ∨ h.encoding.isDictionary) (size : Nat) :
    DataPage.check (PageHeader.ofSize
      { PageHeader.ofType .dataPage with dataPageHeader := some h } size) = .ok h := by
  have hnum : ¬ h.numValues < 0 := by
    rw [hcount, Int32.lt_iff_toInt_lt, Int32.toInt_ofNat_of_lt hn]
    exact Int.not_lt.mpr (Int.natCast_nonneg n)
  show (if h.numValues < 0 then _ else if h.definitionLevelEncoding ≠ .rle then _
    else if h.encoding ≠ .plain ∧ ¬ h.encoding.isDictionary then _ else _) = _
  rw [if_neg hnum, if_neg (fun hne => hne hlevels),
    if_neg (fun hne => hencoding.elim hne.1 hne.2)]

theorem within_note (w : ColumnWriter) (o : Options) (slots : List (Option Bytes)) :
    ∀ s ∈ w.note slots, s.Within o := by
  rw [note]
  split
  · rintro _ ⟨⟩
    exact ⟨(fun _ h => nomatch h), (fun _ h => nomatch h), (fun _ h => nomatch h),
      (fun _ h => nomatch h)⟩
  · exact fun _ h => nomatch h

/-- a data page that was written is read and opened, and its slots are found -/
theorem takes_dataPage {w : ColumnWriter} {bytes : Bytes} (o : Options) (hr : b.Reads d slots)
    (hlen : slots.length < 2 ^ 31) (h : w.dataPage b.type d slots = .ok bytes) :
    ∃ page p front, Cursor.Takes (DataPage.read o) bytes page ∧ page.numValues = slots.length ∧
      ColumnReader.openBody b page = .ok (p, front) ∧
      p.slots (Dictionary.values b.type d) slots.length =
        .ok (slots.map (·.map (.ofPlain b.type))) := by
  obtain ⟨⟨body, encoding⟩, hbody, hwrite⟩ := Except.bind_eq_ok.mp h
  obtain ⟨hsize, head, rfl, hhead⟩ := takes_writePage (o := o) hwrite
    ⟨forall_mem_some ⟨within_note w o slots⟩, (fun _ h => nomatch h)⟩
  obtain ⟨hencoding, p, front, hopen, hslots⟩ :=
    openBody_body hr (by omega) hsize hbody (Int32.ofNat slots.length).toInt.toNat
  refine ⟨_, p, front, takes_page hhead (PageHeader.bodySize_ofSize _ hsize)
    (DataPageHeader.check_ofSize hlen rfl rfl hencoding _), ?_, hopen, hslots⟩
  show (Int32.ofNat slots.length).toInt.toNat = _
  rw [Int32.toInt_ofNat_of_lt hlen, Int.toNat_natCast]

end ColumnWriter

/-- pages one behind the other are read as all their slots -/
theorem Whole.takes_pages {w : ColumnWriter} {b : Binding} {d : Option Dictionary} (o : Options)
    (hrows : 0 < w.pageRows) (slots : List (Option Bytes)) : ∀ pages, b.Reads d slots →
    (∀ page ∈ piecesOf w.pageRows slots, page.length < 2 ^ 31) →
    (piecesOf w.pageRows slots).mapM (w.dataPage b.type d) = .ok pages →
    Cursor.Takes (Whole.slots o b (Dictionary.values b.type d) slots.length) pages.flatten
      (slots.map (·.map (.ofPlain b.type))) := by
  refine piecesOf_induction (P := fun slots => ∀ pages, b.Reads d slots →
    (∀ page ∈ piecesOf w.pageRows slots, page.length < 2 ^ 31) →
    (piecesOf w.pageRows slots).mapM (w.dataPage b.type d) = .ok pages →
    Cursor.Takes (Whole.slots o b (Dictionary.values b.type d) slots.length) pages.flatten
      (slots.map (·.map (.ofPlain b.type)))) hrows ?_ ?_ slots
  · intro pages _ _ h
    rw [piecesOf_nil] at h
    cases h
    rw [Whole.slots, List.length_nil, if_pos rfl]
    exact Cursor.takes_pure []
  · intro slots hne ih pages hr hlen h
    rw [piecesOf_of_ne hrows hne] at hlen h
    rw [List.mapM_cons] at h
    obtain ⟨first, hfirst, h₁⟩ := Except.bind_eq_ok.mp h
    obtain ⟨rest, hrest, h₂⟩ := Except.bind_eq_ok.mp h₁
    cases h₂
    obtain ⟨hlen, hlens⟩ := List.forall_mem_cons.mp hlen
    obtain ⟨page, p, front, hpage, hcount, hopen, hslots⟩ := ColumnWriter.takes_dataPage o
      (hr.mono fun _ => List.mem_of_mem_take) hlen hfirst
    have hpos : 0 < slots.length := List.length_pos_iff.mpr hne
    have htake : (slots.take w.pageRows).length = min w.pageRows slots.length := List.length_take
    have hdrop : (slots.drop w.pageRows).length = slots.length - page.numValues := by
      rw [List.length_drop]
      omega
    have hih := ih rest (hr.mono fun _ => List.mem_of_mem_drop) hlens hrest
    rw [hdrop] at hih
    rw [Whole.slots, if_neg (Nat.ne_of_gt hpos), List.flatten_cons]
    apply Cursor.takes_bind hpage
    rw [dif_neg (by omega)]
    intro before behind
    refine (Step.bind_ok (Step.liftM_ok hopen _) _).trans ?_
    refine (Step.bind_ok (Step.ofExcept_ok (hcount ▸ hslots) _) _).trans ?_
    refine (Step.bind_ok (hih before behind) _).trans ?_
    rw [← List.map_append, List.take_append_drop]
    rfl

/-! ## dictionary pages -/

theorem DictionaryPageHeader.check_ofSize {h : DictionaryPageHeader} {n : Nat} (hn : n < 2 ^ 31)
    (hcount : h.numValues = Int32.ofNat n)
    (hencoding : h.encoding = .plain ∨ h.encoding = .plainDictionary) (size : Nat) :
    DictionaryPage.check (PageHeader.ofSize
      { PageHeader.ofType .dictionaryPage with dictionaryPageHeader := some h } size) = .ok h := by
  have hnum : ¬ h.numValues < 0 := by
    rw [hcount, Int32.lt_iff_toInt_lt, Int32.toInt_ofNat_of_lt hn]
    exact Int.not_lt.mpr (Int.natCast_nonneg n)
  show (if h.numValues < 0 then _
    else if h.encoding ≠ .plain ∧ h.encoding ≠ .plainDictionary then _ else _) = _
  rw [if_neg hnum, if_neg (fun hne => hencoding.elim hne.1 hne.2)]

/-- a page with the header of a dictionary that was written is read -/
theorem takes_writePage_dictionary {h : DictionaryPageHeader} {n : Nat} {body bytes : Bytes}
    (o : Options) (hn : n < 2 ^ 31) (hcount : h.numValues = Int32.ofNat n)
    (hencoding : h.encoding = .plain ∨ h.encoding = .plainDictionary)
    (hwrite : writePage { PageHeader.ofType .dictionaryPage with dictionaryPageHeader := some h }
      body = .ok bytes) :
    Cursor.Takes (DictionaryPage.read o) bytes ⟨n, body⟩ := by
  obtain ⟨hsize, front, rfl, hfront⟩ := takes_writePage (o := o) hwrite
    ⟨(fun _ h => nomatch h), (fun _ h => nomatch h)⟩
  have hpage := takes_page (k := fun d body => DictionaryPage.mk d.numValues.toInt.toNat body)
    hfront (PageHeader.bodySize_ofSize _ hsize)
    (DictionaryPageHeader.check_ofSize hn hcount hencoding _)
  rwa [hcount, Int32.toInt_ofNat_of_lt hn, Int.toNat_natCast] at hpage

/-- the entries of a dictionary fill its page -/
theorem entries_flatten {b : Binding} {d : Dictionary} (htype : b.type ≠ .boolean)
    (hstaged : ∀ bs ∈ d.entries, Plain.Staged b.type b.typeLength bs)
    (hopen : ∃ p, Plain.Decoder.ofBytes d.entries.flatten b.type b.typeLength = .ok p) :
    ColumnReader.entries ⟨d.entries.length, d.entries.flatten⟩ b =
      .ok (Dictionary.values b.type (some d)) := by
  obtain ⟨p, hp⟩ := hopen
  have hlayout : Plain.layout b.type d.entries = d.entries.flatten := if_neg htype
  rw [← hlayout] at hp ⊢
  obtain ⟨e, htimes, hconsumed⟩ := Plain.Decoder.times_layout hstaged hp
  refine Except.bind_eq_ok.mpr ⟨p, hp, ?_⟩
  dsimp only
  rw [htimes]
  exact if_pos hconsumed

/-- the dictionary of a chunk is found in front of its pages -/
theorem Whole.takes_dictionary {b : Binding} {d : Option Dictionary} {slots : List (Option Bytes)}
    {bytes : Bytes} (o : Options) (hr : b.Reads d slots)
    (htype : d.isSome → b.type ≠ .boolean)
    (hentries : ∀ e ∈ d, e.entries.length < 2 ^ 31 ∧ ∀ bs ∈ e.entries, some bs ∈ slots)
    (h : ColumnWriter.dictionaryPage d = .ok bytes) :
    Cursor.Takes (Whole.dictionary o b) bytes (Dictionary.values b.type d) := by
  cases d with
  | none =>
    cases h
    have hnone : ¬ b.dictionaryOffset.isSome := by
      rw [hr.dictionary]
      decide
    rw [Whole.dictionary, if_neg hnone]
    exact Cursor.takes_pure []
  | some d =>
    obtain ⟨hlen, hmem⟩ := hentries d rfl
    have hpage := takes_writePage_dictionary o hlen rfl (Or.inr rfl) h
    have hopen := entries_flatten (htype rfl) (fun bs hbs => hr.staged bs (hmem bs hbs))
      (ColumnWriter.exists_ofBytes hr _)
    have hsome : b.dictionaryOffset.isSome := hr.dictionary
    rw [Whole.dictionary, if_pos hsome]
    intro before rest
    rw [Step.bind_ok (hpage before rest)]
    exact Step.liftM_ok hopen _

end Columnar
