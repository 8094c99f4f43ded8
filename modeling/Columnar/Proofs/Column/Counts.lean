import Columnar.Proofs.Column.Delta
import Columnar.Proofs.Column.Dictionary
import Columnar.Proofs.Column.Pages
import Columnar.Proofs.Column.Silence

/-!
# What the headers of pages count

The header of a page stores how many slots or entries there are in the lower 32 bits of that
number, whether it fits them or not.  Entries always do: they are pairwise different, so that a page
with too many of them is too large and is refused.

* `PageCount`                  the slots or the entries of a page;
* `PageCount.In c h`           a header stores that many;
* `PageCount.Exact c h`        and says so when it is read;
* `PagesFrom.unique`           pages that fill a place are found there in one way only;
* `PagesFill counts bytes`     pages that count so stand one behind the other, and fill the bytes;
* `ColumnWriter.chunk_fill`    the pages of a chunk that was written;
* `DeltaWriter.chunk_fill`     the same for a delta column.
-/

namespace Columnar

/-! ## one page -/

inductive PageCount where
  /-- the slots of a data page -/
  | slots (n : Nat)
  /-- the entries of a dictionary, or the values of a delta column -/
  | entries (n : Nat)

namespace PageCount

def size : PageCount → Nat
  | slots n | entries n => n

/-- the number that a header has for it -/
def number (h : PageHeader) : PageCount → Option Int32
  | slots _ => h.dataPageHeader.map DataPageHeader.numValues
  | entries _ => h.dictionaryPageHeader.map DictionaryPageHeader.numValues

/-- a header has the lower 32 bits of the number; entries are never more than fit -/
structure In (c : PageCount) (h : PageHeader) : Prop where
  number : c.number h = some (Int32.ofNat c.size)
  entries : ∀ n, c = entries n → n < 2 ^ 31

/-- a header says how many there are -/
def Exact (c : PageCount) (h : PageHeader) : Prop :=
  (c.number h).map Int32.toInt = some (c.size : Int)

/-- a number is stored in 32 bits with a sign just when it is lower than half of their range -/
theorem toInt_ofNat_iff (n : Nat) : (Int32.ofNat n).toInt = n ↔ n < 2 ^ 31 := by
  refine ⟨fun h => ?_, Int32.toInt_ofNat_of_lt⟩
  have hlt := (Int32.ofNat n).toInt_lt
  omega

theorem In.exact_iff {c : PageCount} {h : PageHeader} (hin : c.In h) :
    c.Exact h ↔ c.size < 2 ^ 31 := by
  rw [Exact, hin.number, ← toInt_ofNat_iff]
  exact Option.some_inj

/-- the headers of pages say how many there are just when all that is counted fits -/
theorem forall₂_exact_iff {counts : List PageCount} {headers : List PageHeader}
    (h : List.Forall₂ In counts headers) :
    List.Forall₂ Exact counts headers ↔ ∀ c ∈ counts, c.size < 2 ^ 31 := by
  induction h with
  | nil => exact ⟨fun _ => List.forall_mem_nil _, fun _ => .nil⟩
  | cons hin _ ih => rw [List.forall₂_cons, hin.exact_iff, ih, List.forall_mem_cons]

theorem entries_lt {counts : List PageCount} {headers : List PageHeader}
    (h : List.Forall₂ In counts headers) : ∀ n, entries n ∈ counts → n < 2 ^ 31 := by
  induction h with
  | nil => exact fun _ h => absurd h List.not_mem_nil
  | cons hin _ ih =>
    intro n hn
    rcases List.mem_cons.mp hn with hc | hn
    · exact hin.entries n hc.symm
    · exact ih n hn

end PageCount

/-! ## pages one behind the other -/

theorem PageAt.lt {file : Bytes} {pos stop : Nat} {h : PageHeader} (hat : PageAt file pos h stop) :
    pos < stop := by
  obtain ⟨len, size, hdecode, -, hstop, -⟩ := hat
  have hpos := (PageHeader.decode_pos (hdecode {})).1
  omega

theorem PageAt.unique {file : Bytes} {pos stop stop' : Nat} {h h' : PageHeader}
    (hat : PageAt file pos h stop) (hat' : PageAt file pos h' stop') : h = h' ∧ stop = stop' := by
  obtain ⟨len, size, hdecode, hsize, hstop, -⟩ := hat
  obtain ⟨len', size', hdecode', hsize', hstop', -⟩ := hat'
  obtain ⟨rfl, rfl⟩ := Prod.mk.inj (Except.ok.inj ((hdecode {}).symm.trans (hdecode' {})))
  have hsizes : (size : Int) = size' := hsize.symm.trans hsize'
  exact ⟨rfl, by omega⟩

theorem PagesFrom.le {file : Bytes} {hs : List PageHeader} {stop : Nat} :
    ∀ {pos : Nat}, PagesFrom file pos hs stop → pos ≤ stop := by
  induction hs with
  | nil =>
    rintro pos rfl
    exact Nat.le_refl pos
  | cons h hs ih =>
    rintro pos ⟨next, hat, hrest⟩
    exact Nat.le_trans (Nat.le_of_lt hat.lt) (ih hrest)

/-- pages that fill a place are found there in one way only; the induction is on the pages, and each
of them takes a byte at least -/
theorem PagesFrom.unique {file : Bytes} {hs : List PageHeader} {stop : Nat} :
    ∀ {hs' : List PageHeader} {pos : Nat}, PagesFrom file pos hs stop →
      PagesFrom file pos hs' stop → hs = hs' := by
  induction hs with
  | nil =>
    rintro hs' pos rfl h'
    cases hs' with
    | nil => rfl
    | cons h hs' =>
      obtain ⟨next, hat, hrest⟩ := h'
      exact absurd (Nat.lt_of_lt_of_le hat.lt hrest.le) (Nat.lt_irrefl pos)
  | cons h hs ih =>
    rintro hs' pos ⟨next, hat, hrest⟩ h'
    cases hs' with
    | nil =>
      obtain rfl : pos = stop := h'
      exact absurd (Nat.lt_of_lt_of_le hat.lt hrest.le) (Nat.lt_irrefl pos)
    | cons h' hs' =>
      obtain ⟨next', hat', hrest'⟩ := h'
      obtain ⟨rfl, rfl⟩ := hat.unique hat'
      rw [ih hrest hrest']

theorem pagesFrom_append {file : Bytes} {hs hs' : List PageHeader} {mid hi : Nat}
    (h' : PagesFrom file mid hs' hi) :
    ∀ {lo : Nat}, PagesFrom file lo hs mid → PagesFrom file lo (hs ++ hs') hi := by
  induction hs with
  | nil =>
    rintro lo rfl
    exact h'
  | cons h hs ih =>
    rintro lo ⟨next, hat, hrest⟩
    exact ⟨next, hat, ih hrest⟩

/-! ## pages that fill bytes -/

/-- wherever the bytes are put, pages stand there one behind the other that count what is said, and
end where the bytes do -/
def PagesFill (counts : List PageCount) (bytes : Bytes) : Prop :=
  ∀ front behind, ∃ headers, List.Forall₂ PageCount.In counts headers ∧
    PagesFrom (front ++ bytes ++ behind) front.length headers (front.length + bytes.length)

theorem pagesFill_nil : PagesFill [] [] := fun _ _ => ⟨[], .nil, rfl⟩

theorem PagesFill.append {counts counts' : List PageCount} {bytes bytes' : Bytes}
    (h : PagesFill counts bytes) (h' : PagesFill counts' bytes') :
    PagesFill (counts ++ counts') (bytes ++ bytes') := by
  intro front behind
  obtain ⟨headers, hin, hpages⟩ := h front (bytes' ++ behind)
  obtain ⟨headers', hin', hpages'⟩ := h' (front ++ bytes) behind
  have hfile : front ++ bytes ++ (bytes' ++ behind) = front ++ (bytes ++ bytes') ++ behind := by
    simp only [List.append_assoc]
  have hfile' : front ++ bytes ++ bytes' ++ behind = front ++ (bytes ++ bytes') ++ behind := by
    simp only [List.append_assoc]
  rw [hfile] at hpages
  have hstop : (front ++ bytes).length + bytes'.length =
      front.length + (bytes ++ bytes').length := by
    rw [List.length_append, List.length_append, Nat.add_assoc]
  rw [hfile', hstop, List.length_append] at hpages'
  exact ⟨headers ++ headers', List.rel_append hin hin', pagesFrom_append hpages' hpages⟩

/-- a page that was written fills its bytes -/
theorem pagesFill_writePage {header : PageHeader} {body page : Bytes} {c : PageCount}
    (h : writePage header body = .ok page) (hwithin : ∀ o, (header.ofSize body.length).Within o)
    (hin : c.In (header.ofSize body.length)) : PagesFill [c] page := fun front behind =>
  ⟨_, .cons hin .nil, _, pageAt_writePage h hwithin front behind, rfl⟩

/-! ## different values of one type -/

namespace Plain

variable {t : PhysicalType} {length : Option Nat}

/-- a column with an empty value has no others -/
theorem eq_nil_of_staged {bs : Bytes} (ht : t ≠ .boolean) (hnil : Staged t length [])
    (h : Staged t length bs) : bs = [] := by
  cases t with
  | boolean => exact absurd rfl ht
  | byteArray =>
    obtain ⟨payload, hpayload, -⟩ := hnil
    have hlen := congrArg List.length hpayload
    rw [DeltaReader.length_byteArray, List.length_nil] at hlen
    omega
  | fixedLenByteArray =>
    have hlen : some bs.length = some 0 := Eq.trans (Eq.symm h) hnil
    exact List.length_eq_zero_iff.mp (Option.some.inj hlen)
  | int32 | int64 | int96 | float | double => cases hnil

/-- values that are pairwise different are no more than their bytes, unless there is only one -/
theorem length_le_of_staged {bss : List Bytes} (ht : t ≠ .boolean) (hnodup : bss.Nodup)
    (hstaged : ∀ bs ∈ bss, Staged t length bs) : bss.length ≤ max 1 bss.flatten.length := by
  by_cases hnil : [] ∈ bss
  · have hall : bss = List.replicate bss.length [] :=
      List.eq_replicate_iff.mpr ⟨rfl, fun bs hbs =>
        eq_nil_of_staged ht (hstaged _ hnil) (hstaged bs hbs)⟩
    rw [hall, List.nodup_replicate] at hnodup
    exact Nat.le_trans hnodup (Nat.le_max_left 1 _)
  · refine Nat.le_trans ?_ (Nat.le_max_right 1 _)
    have hpos : ∀ n ∈ bss.map List.length, 1 ≤ n := by
      intro n hn
      obtain ⟨bs, hbs, rfl⟩ := List.mem_map.mp hn
      exact List.length_pos_iff.mpr fun h => hnil (h ▸ hbs)
    have hle := List.length_le_sum_of_one_le _ hpos
    rwa [List.length_map, ← List.length_flatten] at hle

end Plain

/-! ## chunks -/

namespace ColumnWriter

variable {w : ColumnWriter} {t : PhysicalType} {d : Option Dictionary}

/-- what the pages of a column count: the entries of its dictionary if it has one, and the slots of
each data page -/
def pageCounts (w : ColumnWriter) (t : PhysicalType) (slots : List (Option Bytes)) :
    List PageCount :=
  ((w.dictionaryOf t slots).toList.map fun d => .entries d.entries.length) ++
    (piecesOf w.pageRows slots).map fun piece => .slots piece.length

theorem dictionaryPage_fill (t : PhysicalType) (length : Option Nat) {first : Bytes}
    (h : dictionaryPage d = .ok first)
    (hd : ∀ e ∈ d, t ≠ .boolean ∧ e.entries.Nodup ∧ ∀ bs ∈ e.entries, Plain.Staged t length bs) :
    PagesFill (d.toList.map fun e => .entries e.entries.length) first := by
  cases d with
  | none =>
    cases h
    exact pagesFill_nil
  | some e =>
    obtain ⟨ht, hnodup, hstaged⟩ := hd e rfl
    have hle := Plain.length_le_of_staged ht hnodup hstaged
    have hlt := (length_writePage h).1
    refine pagesFill_writePage h (fun _ => ⟨(fun _ h => nomatch h), (fun _ h => nomatch h)⟩) ⟨rfl, ?_⟩
    rintro n ⟨⟩
    omega

/-- the header of a data page counts its slots -/
theorem Heads.counts {piece : List (Option Bytes)} {header : PageHeader}
    (h : w.Heads piece header) : (PageCount.slots piece.length).In header := by
  obtain ⟨e, he, hcount, -⟩ := h.data
  refine ⟨?_, fun _ h => nomatch h⟩
  show header.dataPageHeader.map DataPageHeader.numValues = _
  rw [he]
  exact congrArg some hcount

theorem dataPages_fill {pieces : List (List (Option Bytes))} {pages : List Bytes}
    (h : pieces.mapM (w.dataPage t d) = .ok pages) :
    PagesFill (pieces.map fun piece => .slots piece.length) pages.flatten := by
  intro front behind
  obtain ⟨headers, hheads, hpages⟩ := dataPages_pages behind pieces front h
  exact ⟨headers, List.forall₂_map_left_iff.mpr (hheads.imp fun _ _ => Heads.counts), hpages⟩

/-- the pages of a chunk that was written -/
theorem chunk_fill {spec : ColumnSpec} {values : ColumnValues} {start : Nat}
    {c : Written ColumnChunk} (htype : values.type = spec.type)
    (h : w.chunk start spec values = .ok c) :
    PagesFill (w.pageCounts spec.type (values.data.map (·.map Datum.plain))) c.bytes := by
  obtain ⟨slots, first, pages, _, hslots, hfirst, hpages, hbytes, -⟩ := chunk_spec h
  obtain ⟨rfl, -, hstaged⟩ := ColumnValues.staged_ok hslots
  rw [hbytes]
  refine (dictionaryPage_fill values.type spec.length hfirst fun e he => ?_).append
    (dataPages_fill hpages)
  obtain ⟨rfl, ht⟩ := mem_dictionaryOf he
  exact ⟨htype ▸ ht, Dictionary.nodup_entries _, fun bs hbs =>
    hstaged bs (Dictionary.mem_entries.mp hbs) spec.length fun _ => rfl⟩

/-- the slots of all data pages fit just when those of the first one do, which has the most -/
theorem pieces_lt_iff {slots : List (Option Bytes)} (hrows : 0 < w.pageRows) :
    (∀ piece ∈ piecesOf w.pageRows slots, piece.length < 2 ^ 31) ↔
      min w.pageRows slots.length < 2 ^ 31 := by
  refine ⟨fun h => ?_, fun h piece hpiece =>
    Nat.lt_of_le_of_lt (length_of_mem_piecesOf hrows slots piece hpiece).2 h⟩
  by_cases hne : slots = []
  · rw [hne, List.length_nil, Nat.min_zero]
    decide
  · rw [piecesOf_of_ne hrows hne] at h
    have hfirst := h _ List.mem_cons_self
    rwa [List.length_take] at hfirst

end ColumnWriter

/-- the page of a delta column, which does not count the empty values -/
theorem DeltaWriter.chunk_fill {spec : ColumnSpec} {values : List (Option Bytes)} {start : Nat}
    {c : Written ColumnChunk} (h : DeltaWriter.chunk start spec values = .ok c) :
    PagesFill [.entries (values.countP Option.isSome)] c.bytes := by
  have hcount := (chunk_page h).1
  obtain ⟨entries, -, h₁⟩ := Except.bind_eq_ok.mp h
  obtain ⟨bytes, hwrite, h₂⟩ := Except.bind_eq_ok.mp h₁
  cases h₂
  refine pagesFill_writePage hwrite (fun _ => ⟨(fun _ h => nomatch h), (fun _ h => nomatch h)⟩)
    ⟨rfl, ?_⟩
  rintro n ⟨⟩
  exact hcount

end Columnar
