import Columnar.Proofs.Column.Rebinding
import Columnar.Proofs.Plain.Typed

/-!
# Readers without dictionaries

Where dictionaries are disabled, a chunk that declares a dictionary page is refused before a byte
of it is read.  A chunk without values or without bytes has nothing to read, and the page of a
delta column is no dictionary, though it has the header of one.

* `ColumnReader.Bare g b r`   `r` is bound to `b`, as far as `g`, and holds nothing of a dictionary;
* `ColumnReader.Direct r`     what holds between calls: nothing of a dictionary is held, and none
                              is ahead;
* `ColumnReader.prepare_disabled`, `ColumnReader.read_declared`   a chunk that declares a
                              dictionary page is refused, and gives no slot;
* `DeltaReader.allowing`      a delta reader that is told otherwise, which makes no difference.
-/

namespace Columnar

open Step

namespace ColumnReader

variable {g : Progress} {ob : Option Binding} {b : Binding} {r : ColumnReader}

/-! ## pages with values of their own -/

/-- a reader that is bound to `b`, as far as `g`, under options that disable dictionaries, and that
holds nothing of one: it has no entries, and an open page has its values in itself -/
structure Bare (g : Progress) (b : Option Binding) (r : ColumnReader) : Prop where
  disabled : r.options.dictionary = false
  progress : r.progress = g
  binding : r.binding = b
  dictionary : r.dictionary = []
  page : ∀ p ∈ r.page, ∃ d, p.values = .plain d

theorem bound_bare : Maintains (Bare g ob) (fun b => ob = some b) bound := by
  refine maintains_bind maintains_state fun r hr => ?_
  split
  · rename_i b hb
    exact maintains_pure (hr.binding.symm.trans hb)
  · exact maintains_fail _

/-- a dictionary is refused, so that a chunk that is not refused declares none -/
theorem loadDictionary_bare :
    Maintains (Bare g (some b)) (fun _ => b.dictionaryOffset = none) loadDictionary := by
  refine maintains_bind bound_bare fun c hc => ?_
  cases hc
  refine maintains_bind maintains_state fun r hr => ?_
  split
  · rw [if_pos (by rw [hr.disabled]; exact Bool.false_ne_true)]
    exact maintains_fail _
  · rename_i hnone
    exact maintains_pure (Option.not_isSome_iff_eq_none.mp hnone)

theorem openBody_plain (hb : b.dictionaryOffset = none) {page : DataPage} {opened : OpenPage × Nat}
    (h : openBody b page = .ok opened) : ∃ d, opened.1.values = .plain d := by
  obtain ⟨⟨levels, rest⟩, -, h⟩ := Except.bind_eq_ok.mp h
  obtain ⟨⟨values, width⟩, hvalues, h⟩ := Except.bind_eq_ok.mp h
  obtain ⟨d, -, h⟩ := Except.bind_eq_ok.mp h
  cases h
  unfold openValues at hvalues
  rw [hb] at hvalues
  split at hvalues
  · cases hvalues
  · obtain ⟨d, -, h⟩ := Except.bind_eq_ok.mp hvalues
    cases h
    exact ⟨d, rfl⟩

theorem enterPage_bare (hb : b.dictionaryOffset = none) (page : DataPage) (size : Nat) :
    Maintains (Bare g (some b)) Any (enterPage page size) := by
  refine maintains_bind maintains_state fun r hr => ?_
  split
  · exact maintains_fail _
  split
  · exact maintains_fail _
  refine maintains_bind bound_bare fun c hc => ?_
  cases hc
  refine maintains_bind (maintains_lift fun _ => openBody_plain hb) fun opened hopened => ?_
  refine maintains_bind (subtract_maintains _ _) fun header _ => ?_
  refine maintains_bind (subtract_maintains _ _) fun columnBytes _ => ?_
  refine maintains_bind (subtract_maintains _ _) fun pageBytes _ => ?_
  refine maintains_bind (maintains_put { hr with page := ?_ }) fun _ _ => maintains_pure trivial
  rintro p ⟨⟩
  exact hopened

theorem openPage_bare (hb : b.dictionaryOffset = none) :
    Maintains (Bare g (some b)) Any openPage := by
  refine maintains_bind maintains_state fun r hr => ?_
  refine maintains_bind (subtract_maintains _ _) fun columnBytes _ => ?_
  refine maintains_bind (maintains_put { hr with page := nofun }) fun _ _ => ?_
  refine maintains_bind (P := Any) (maintains_on fun _ _ h => { h with }) fun page _ => ?_
  exact maintains_bind (passed_maintains _) fun n _ => enterPage_bare hb page n.1

/-! ## slots -/

theorem takeValues_plain (dictionary : List Value) (n : Nat) :
    Maintains (fun s => ∃ d, s.1 = .plain d) Any (OpenPage.takeValues dictionary n) := by
  refine .of_forall fun ⟨p, batch⟩ ⟨d, hd⟩ => ?_
  cases hd
  exact ⟨_, rfl⟩

theorem takeSlots_plain (dictionary : List Value) (count : Nat) :
    Maintains (fun s => ∃ d, s.1.values = .plain d) Any (OpenPage.takeSlots dictionary count) := by
  refine maintains_bind maintains_state fun before _ => ?_
  refine maintains_bind (maintains_on fun _ _ h => h) fun mask _ => ?_
  refine maintains_bind (maintains_part (takeValues_plain dictionary _) (fun _ h => h)
    fun _ _ _ h => h) fun _ _ => ?_
  refine maintains_bind maintains_state fun after _ => ?_
  refine maintains_bind (maintains_ofExcept (P := Any) fun _ _ => trivial) fun levels _ => ?_
  refine maintains_bind (maintains_ofExcept (P := Any) fun _ _ => trivial) fun values _ => ?_
  exact maintains_bind (maintains_update fun _ h => h) fun _ _ => maintains_pure trivial

theorem takeBatch_bare (count : Nat) :
    Maintains (fun s => Bare g ob s.1) Any (takeBatch count) := by
  refine .of_forall fun ⟨r, batch⟩ hr => ?_
  unfold takeBatch
  split
  · exact hr
  · rename_i p hp
    refine { hr with page := ?_ }
    rintro q ⟨⟩
    exact (takeSlots_plain r.dictionary count (p, batch) (hr.page p hp)).1

theorem takePage_bare (b : Binding) : Maintains (fun s => Bare g ob s.1) Any (takePage b) := by
  refine maintains_bind maintains_state fun s _ => ?_
  refine maintains_bind (maintains_within (takeBatch_bare _)) fun bytes _ => ?_
  split
  · exact maintains_fail _
  refine maintains_bind (maintains_ofExcept (P := Any) fun _ _ => trivial) fun _ _ => ?_
  refine maintains_bind (maintains_ofExcept (P := Any) fun _ _ => trivial) fun _ _ => ?_
  refine maintains_bind (maintains_ofExcept (P := Any) fun _ _ => trivial) fun _ _ => ?_
  exact maintains_bind (maintains_update fun _ h => { h with }) fun _ _ => maintains_pure trivial

theorem turnPage_bare (hb : b.dictionaryOffset = none) (c : Binding) :
    Maintains (Bare g (some b)) Any (turnPage c) := by
  refine maintains_bind maintains_state fun r _ => ?_
  split
  · exact maintains_within (openPage_bare hb)
  · exact maintains_pure trivial

theorem fill_bare (hb : ∀ b ∈ ob, b.dictionaryOffset = none) (fuel : Nat) : ∀ taken,
    Maintains (fun s => Bare g ob s.1) Any (fill fuel taken) := by
  induction fuel with
  | zero => exact fun _ => maintains_pure trivial
  | succ fuel ih =>
    intro taken
    refine maintains_bind maintains_state fun s _ => ?_
    dsimp only
    split
    · refine maintains_bind (P := fun b => ob = some b) (fun s hs => bound_bare s.1 hs)
        fun b hbound => ?_
      cases hbound
      refine maintains_bind (maintains_onFst (turnPage_bare (hb b rfl) b)) fun upfront _ => ?_
      exact maintains_bind (takePage_bare b) fun bytes _ => ih _
    · exact maintains_pure trivial

/-! ## between calls -/

/-- nothing of a dictionary page is held, and none is ahead: a reader that has slots left is bound
to a chunk that declares none -/
structure Direct (r : ColumnReader) : Prop where
  dictionary : r.dictionary = []
  page : ∀ p ∈ r.page, ∃ d, p.values = .plain d
  ahead : r.progress = .ready → 0 < r.columnValues → ∀ b ∈ r.binding, b.dictionaryOffset = none

theorem direct_ofBuffer (buffer : Bytes) (o : Options) : (ofBuffer buffer o).Direct :=
  ⟨rfl, nofun, nofun⟩

theorem Bare.direct (h : r.Bare g ob) (hb : g = .ready → ∀ b ∈ ob, b.dictionaryOffset = none) :
    r.Direct :=
  ⟨h.dictionary, h.page, fun hready _ => h.binding.symm ▸ hb (h.progress.symm.trans hready)⟩

/-- where dictionaries are disabled, none is loaded -/
theorem loadDictionary_disabled (hr : r.options.dictionary = false) (hb : r.binding = some b)
    (hdeclared : b.dictionaryOffset.isSome) :
    loadDictionary r = (.error (.error Fault.dictionaryDisabled), r) := by
  rw [loadDictionary, bind_ok (bound_ok hb), state_bind, if_pos hdeclared, if_pos]
  · rfl
  · rw [hr]
    exact Bool.false_ne_true

/-- a chunk that has values and bytes and declares a dictionary page is refused -/
theorem prepare_disabled {column : Nat} {schema : SchemaElement} {chunk : ColumnChunk}
    (hr : r.options.dictionary = false)
    (h : Binding.ofChunk column schema chunk r.buffer.length = .ok b)
    (hdeclared : b.dictionaryOffset.isSome) (hvalues : 0 < b.numValues) (hsize : 0 < b.size) :
    prepare column schema chunk r = (.error (.error
      ((Fault.dictionaryDisabled : Error).within (.preparingColumn column))), r.atChunk b) :=
  prepare_unloaded h hvalues hsize (loadDictionary_disabled (r := r.atChunk b) hr rfl hdeclared)

theorem openPages_direct (h : r.Bare .uninitialized (some b)) : ((do
    loadDictionary
    let _ ← openPage
    update fun r => { r with progress := .ready } : Step ColumnReader Failure Unit) r).2.Direct := by
  have hload := loadDictionary_bare r h
  rw [bind_apply]
  rcases hrun : loadDictionary r with ⟨x | ⟨⟩, r₁⟩
  · rw [hrun] at hload
    exact hload.1.direct nofun
  rw [hrun] at hload
  -- where this succeeds there was nothing to load
  have hb : b.dictionaryOffset = none := hload.2 () rfl
  have hopen := (openPage_bare hb r₁ hload.1).1
  show ((openPage >>= _) r₁).2.Direct
  rw [bind_apply]
  rcases hrun₁ : openPage r₁ with ⟨x | n, r₂⟩
  · rw [hrun₁] at hopen
    exact hopen.direct nofun
  · rw [hrun₁] at hopen
    have hready : Bare .ready (some b) { r₂ with progress := .ready } :=
      { hopen with progress := rfl }
    refine hready.direct fun _ => ?_
    rintro c ⟨⟩
    exact hb

theorem openChunk_direct {buffer : Bytes} {o : Options} (ho : o.dictionary = false) (b : Binding)
    (bytes : Bytes) : (openChunk b bytes (ofBuffer buffer o)).2.Direct := by
  rw [openChunk, state_bind]
  split
  · exact ⟨rfl, nofun, fun _ h => absurd h (Nat.lt_irrefl 0)⟩
  · rw [put_bind]
    exact openPages_direct ⟨ho, rfl, rfl, rfl, nofun⟩

theorem prepare_direct (hr : r.options.dictionary = false) (column : Nat) (schema : SchemaElement)
    (chunk : ColumnChunk) : (prepare column schema chunk r).2.Direct := by
  rcases h : Binding.ofChunk column schema chunk r.buffer.length with x | b
  · have hunbound : prepare column schema chunk r =
        (.error ((Failure.error x).within (.preparingColumn column)),
          ofBuffer r.buffer r.options) := by
      refine within_error ((update_bind _ _ r).trans ((state_bind _ _).trans ?_))
      exact bind_error (x := liftM (Binding.ofChunk column schema chunk r.buffer.length))
        (by rw [h]; rfl) _
    rw [hunbound]
    exact direct_ofBuffer _ _
  · rw [prepare_bound h, within_snd]
    exact openChunk_direct hr b _

theorem read_direct (ho : r.options.dictionary = false) (h : r.Direct) (v : Batch) :
    (read (r, v)).2.1.Direct := by
  cases hready : r.progress with
  | uninitialized =>
    rw [read_unprepared hready]
    exact h
  | exhausted =>
    rw [read_exhausted hready]
    exact h
  | ready =>
    by_cases hzero : r.columnValues = 0
    · rw [read_end hready hzero]
      exact ⟨h.dictionary, h.page, nofun⟩
    · have hb := h.ahead hready (Nat.pos_of_ne_zero hzero)
      rw [read_fill hready (Nat.pos_of_ne_zero hzero)]
      have hbare : r.Bare .ready r.binding := ⟨ho, hready, rfl, h.dictionary, h.page⟩
      exact (fill_bare hb batchSize 0 (r, {}) hbare).1.direct fun _ => hb

/-- a chunk that declares a dictionary page gives no slot -/
theorem read_declared (h : r.Direct) (hb : b ∈ r.binding) (hdeclared : b.dictionaryOffset.isSome)
    (v : Batch) : (read (r, v)).1 = .error (.misuse .columnNotPrepared) ∨
      (read (r, v)).1 = .ok 0 ∧ (read (r, v)).2.2 = {} := by
  cases hready : r.progress with
  | uninitialized =>
    rw [read_unprepared hready]
    exact Or.inl rfl
  | exhausted =>
    rw [read_exhausted hready]
    exact Or.inr ⟨rfl, rfl⟩
  | ready =>
    have hzero : r.columnValues = 0 := by
      by_contra hpos
      rw [h.ahead hready (Nat.pos_of_ne_zero hpos) b hb] at hdeclared
      cases hdeclared
    rw [read_end hready hzero]
    exact Or.inr ⟨rfl, rfl⟩

end ColumnReader

/-! ## delta readers -/

namespace DeltaReader

/-- a delta reader that is told whether dictionaries are allowed -/
def allowing (dictionary : Bool) (r : DeltaReader) : DeltaReader :=
  { r with options := { r.options with dictionary } }

variable {d : Bool}

/-- the page of a delta chunk is no dictionary: it is taken up whether dictionaries are allowed or
not -/
theorem prepare_allowing (column : Nat) (schema : SchemaElement) (chunk : ColumnChunk) :
    Mirrors (allowing d) (prepare column schema chunk) (prepare column schema chunk) := by
  refine mirrors_within (mirrors_bind (mirrors_update fun _ => rfl) fun _ => ?_)
  refine mirrors_state fun r => mirrors_bind (mirrors_lift _) fun b => ?_
  exact mirrors_bind (mirrors_ofExcept _) fun page => mirrors_put _

/-- what a read does is not told by the options -/
theorem read_allowing : Mirrors (Prod.map (allowing d) id) read read :=
  read_under id fun o => { o with dictionary := d }

end DeltaReader

end Columnar
