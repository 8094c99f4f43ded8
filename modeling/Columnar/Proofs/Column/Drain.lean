import Mathlib
import Columnar.Proofs.Column.Reader

/-!
# Reading a chunk to its end

* `Drains read progress vs r bs r'`   reading `r` until it is exhausted gives the batches `bs`;
* `Yields read progress r data`       reading `r` to its end gives `data`;
* `ColumnReader.prepare_spec`         what a prepared reader has ahead is the chunk as a whole;
* `ColumnReader.Drains.ahead`         the batches are what was ahead, cut into sixteens;
* `ColumnReader.refines_whole`        reading in batches is reading as a whole.
-/

namespace Columnar

section
variable {ρ : Type} (read : Step (ρ × Batch) Failure Nat) (progress : ρ → Progress)

/-- reading `r` into the batches that are handed in, one after the other, until it is exhausted,
gives the batches `bs` and leaves `r'`; the last read is the one that finds it exhausted -/
inductive Drains : (Nat → Batch) → ρ → List Batch → ρ → Prop where
  | last {vs : Nat → Batch} {r r' : ρ} {v : Batch} {n : Nat}
      (h : read (r, vs 0) = (.ok n, (r', v))) (hend : progress r' = .exhausted) :
      Drains vs r [v] r'
  | more {vs : Nat → Batch} {r r' r'' : ρ} {v : Batch} {n : Nat} {bs : List Batch}
      (h : read (r, vs 0) = (.ok n, (r', v))) (hready : progress r' ≠ .exhausted)
      (hrest : Drains (fun i => vs (i + 1)) r' bs r'') : Drains vs r (v :: bs) r''

/-- `r` can be read to its end, into whichever batches, and that gives these data in this order -/
def Yields (r : ρ) (data : List (Option Datum)) : Prop :=
  ∀ vs, (∃ bs r', Drains read progress vs r bs r') ∧ ∀ bs r', Drains read progress vs r bs r' →
    (bs.flatMap Batch.slots).map (·.map Value.datum) = data.map (·.map .ok)

variable {read progress} {r : ρ}

/-- what reading to the end gives is one thing only -/
theorem Yields.unique {data data' : List (Option Datum)} (h : Yields read progress r data)
    (h' : Yields read progress r data') : data = data' := by
  obtain ⟨⟨bs, r', hdrains⟩, hall⟩ := h fun _ => {}
  have hmap := (hall bs r' hdrains).symm.trans ((h' fun _ => {}).2 bs r' hdrains)
  exact List.map_injective_iff.mpr (Option.map_injective fun _ _ h => Except.ok.inj h) hmap

/-- the read that finds the end gives the data -/
theorem Yields.last {data : List (Option Datum)}
    (h : ∀ v, ∃ n r' b, read (r, v) = (.ok n, (r', b)) ∧ progress r' = .exhausted ∧
      b.slots.map (·.map Value.datum) = data.map (·.map .ok)) :
    Yields read progress r data := by
  intro vs
  obtain ⟨n, r', b, hread, hend, hdata⟩ := h (vs 0)
  refine ⟨⟨_, _, .last hread hend⟩, fun bs q hdrains => ?_⟩
  cases hdrains with
  | last hread' =>
    rw [hread] at hread'
    cases hread'
    rw [List.flatMap_singleton, hdata]
  | more hread' hmore =>
    rw [hread] at hread'
    cases hread'
    exact absurd hend hmore

/-- a read that does not find the end gives the first data -/
theorem Yields.more {first rest : List (Option Datum)}
    (h : ∀ v, ∃ n r' b, read (r, v) = (.ok n, (r', b)) ∧ progress r' ≠ .exhausted ∧
      b.slots.map (·.map Value.datum) = first.map (·.map .ok) ∧ Yields read progress r' rest) :
    Yields read progress r (first ++ rest) := by
  intro vs
  obtain ⟨n, r', b, hread, hready, hdata, hrest⟩ := h (vs 0)
  obtain ⟨⟨bs, q, hdrains⟩, hall⟩ := hrest fun i => vs (i + 1)
  refine ⟨⟨_, q, .more hread hready hdrains⟩, fun bs q hdrains => ?_⟩
  cases hdrains with
  | last hread' hend =>
    rw [hread] at hread'
    cases hread'
    exact absurd hend hready
  | more hread' _ hdrains' =>
    rw [hread] at hread'
    cases hread'
    rw [List.flatMap_cons, List.map_append, hall _ _ hdrains', hdata, List.map_append]

end

/-! ## the binding -/

namespace Binding

theorem checkLength_bounded {schema : SchemaElement} {t : PhysicalType} {len : Option Nat}
    (h : checkLength schema t = .ok len) : ∀ n ∈ len, n < 2 ^ 31 := by
  unfold checkLength at h
  split at h
  · split at h
    · rename_i n _
      split at h
      · cases h
        intro m hm
        cases hm
        have := n.toInt_lt
        omega
      · cases h
    · cases h
  · cases h
    exact fun n hn => nomatch hn

/-- a chunk that was bound lies in its buffer -/
theorem ofChunk_spec {column size : Nat} {schema : SchemaElement} {chunk : ColumnChunk}
    {b : Binding} (h : ofChunk column schema chunk size = .ok b) :
    b.Bounded ∧ b.start + b.size ≤ size := by
  unfold ofChunk at h
  obtain ⟨m, -, h₁⟩ := Except.bind_eq_ok.mp h
  obtain ⟨t, -, h₂⟩ := Except.bind_eq_ok.mp h₁
  obtain ⟨len, hlen, h₃⟩ := Except.bind_eq_ok.mp h₂
  obtain ⟨numValues, -, h₄⟩ := Except.bind_eq_ok.mp h₃
  obtain ⟨chunkSize, -, h₅⟩ := Except.bind_eq_ok.mp h₄
  obtain ⟨offset, -, h₆⟩ := Except.bind_eq_ok.mp h₅
  obtain ⟨start, -, h₇⟩ := Except.bind_eq_ok.mp h₆
  split at h₇
  · cases h₇
  · rename_i hle
    cases h₇
    exact ⟨checkLength_bounded hlen, Nat.not_lt.mp hle⟩

theorem length_bytes {b : Binding} {buffer : Bytes} (h : b.start + b.size ≤ buffer.length) :
    (b.bytes buffer).length = b.size := by
  rw [bytes, List.length_take, List.length_drop]
  omega

end Binding

namespace ColumnReader

variable {b : Binding} {r : ColumnReader}

/-- reading a column reader to its end -/
abbrev Drains : (Nat → Batch) → ColumnReader → List Batch → ColumnReader → Prop :=
  Columnar.Drains read progress

/-! ## preparing -/

/-- a reader at the beginning of a chunk -/
def atChunk (r : ColumnReader) (b : Binding) : ColumnReader :=
  { ofBuffer r.buffer r.options with
    binding := some b
    chunk := .ofBytes (b.bytes r.buffer)
    columnValues := b.numValues
    columnBytes := b.size }

theorem loadDictionary_spec (hr : r.Reading b) (hpage : r.pageValues = 0) (hbytes : r.pageBytes = 0)
    (hdict : r.options.dictionary = true) (hempty : r.dictionary = []) :
    (∃ r', loadDictionary r = (.ok (), r') ∧ r'.Reading b ∧ r'.pageValues = 0 ∧
      r'.options = r.options ∧ r'.columnValues = r.columnValues ∧
      Whole.dictionary r.options b r.chunk = (.ok r'.dictionary, r'.chunk)) ∨
    ((∃ x t, loadDictionary r = (.error x, t)) ∧
      ∃ x t, Whole.dictionary r.options b r.chunk = (.error x, t)) := by
  rw [loadDictionary, Step.bind_ok (bound_ok hr.binding), Step.state_bind, Whole.dictionary]
  by_cases hsome : b.dictionaryOffset.isSome
  · rw [if_pos hsome, if_pos hsome, if_neg (fun h => h hdict)]
    rcases h : DictionaryPage.read r.options r.chunk with ⟨x | page, c⟩
    · refine Or.inr ⟨⟨x, { r with chunk := c }, Step.bind_error ?_ _⟩, x, c, Step.bind_error h _⟩
      exact onChunk_apply h
    · have hfollows := ((DictionaryPage.read_maintains r.options r.chunk).of_eq (.refl _) h).1
      have hpos := hfollows.pos
      have hrem := hfollows.remaining
      have hcol := hr.bytes
      rw [Step.bind_ok (onChunk_apply h), Step.bind_ok h]
      rcases he : entries page b with x | vs
      · exact Or.inr ⟨⟨.error x, _, rfl⟩, .error x, c, rfl⟩
      · refine Or.inl ⟨{ r with
          chunk := c, columnBytes := r.columnBytes - (c.pos - r.chunk.pos), dictionary := vs }, ?_,
          ⟨hr.binding, hr.values, ?_, fun h => absurd h (by rw [hpage]; decide)⟩,
          hpage, rfl, rfl, rfl⟩
        · refine (Step.bind_ok (Step.liftM_ok (rfl : Except.ok vs = _) _) _).trans ?_
          exact Step.bind_ok (passed_ok hpos (show c.pos - r.chunk.pos ≤ r.columnBytes by omega)) _
        · show r.columnBytes - (c.pos - r.chunk.pos) = c.remaining + r.pageBytes
          omega
  · rw [if_neg hsome, if_neg hsome]
    refine Or.inl ⟨r, rfl, hr, hpage, rfl, rfl, ?_⟩
    rw [hempty]
    rfl

theorem reading_atChunk (h : b.start + b.size ≤ r.buffer.length) : (r.atChunk b).Reading b := by
  refine ⟨rfl, Nat.zero_le _, ?_, fun h => absurd h (Nat.lt_irrefl 0)⟩
  show b.size = (b.bytes r.buffer).length + 0
  rw [Binding.length_bytes h, Nat.add_zero]

/-- preparing a reader for a chunk that has values and bytes -/
theorem prepare_apply {column : Nat} {schema : SchemaElement} {chunk : ColumnChunk}
    (h : Binding.ofChunk column schema chunk r.buffer.length = .ok b)
    (hvalues : 0 < b.numValues) (hsize : 0 < b.size) :
    prepare column schema chunk r = (Step.within (.preparingColumn column) do
      loadDictionary
      let _ ← openPage
      Step.update fun r => { r with progress := .ready } : Step ColumnReader Failure Unit)
        (r.atChunk b) := by
  apply Step.within_congr
  refine (Step.update_bind _ _ _).trans ?_
  refine (Step.state_bind _ _).trans ?_
  refine (Step.bind_ok (Step.liftM_ok h _) _).trans ?_
  rw [if_neg (by omega)]
  rfl

/-- a reader whose dictionary cannot be loaded is not prepared -/
theorem prepare_unloaded {column : Nat} {schema : SchemaElement} {chunk : ColumnChunk}
    {x : Failure} {t : ColumnReader}
    (h : Binding.ofChunk column schema chunk r.buffer.length = .ok b)
    (hvalues : 0 < b.numValues) (hsize : 0 < b.size)
    (hload : loadDictionary (r.atChunk b) = (.error x, t)) :
    prepare column schema chunk r = (.error (x.within (.preparingColumn column)), t) := by
  rw [prepare_apply h hvalues hsize]
  exact Step.within_error (Step.bind_error hload _)

/-- a prepared reader has the chunk ahead -/
theorem prepare_spec {column : Nat} {schema : SchemaElement} {chunk : ColumnChunk}
    (h : Binding.ofChunk column schema chunk r.buffer.length = .ok b)
    (hvalues : 0 < b.numValues) (hsize : 0 < b.size) (hdict : r.options.dictionary = true) :
    (∃ r', prepare column schema chunk r = (.ok (), r') ∧ r'.Reading b ∧ r'.progress = .ready ∧
      r'.columnValues = b.numValues ∧ r'.ahead b = Whole.chunk r.options b r.buffer) ∨
    ((∃ x t, prepare column schema chunk r = (.error x, t)) ∧
      ∃ x, Whole.chunk r.options b r.buffer = .error x) := by
  obtain ⟨hb, hlies⟩ := Binding.ofChunk_spec h
  rw [prepare_apply h hvalues hsize, Whole.chunk, Step.answer]
  obtain ⟨r₁, hload, hr₁, hpage, hopt, hcount, hwhole⟩ | ⟨⟨x, t, hload⟩, x', t', hwhole⟩ :=
    loadDictionary_spec (reading_atChunk hlies) rfl rfl hdict rfl
  · have hwhole' : Whole.dictionary r.options b (.ofBytes (b.bytes r.buffer)) = _ := hwhole
    have hahead : r₁.ahead b = (Whole.slots r.options b r₁.dictionary b.numValues r₁.chunk).1 := by
      rw [ahead_of_zero b hpage, hopt, hcount]
      rfl
    rw [Step.bind_ok hwhole', ← hahead]
    have hcount' : r₁.columnValues = b.numValues := hcount
    obtain ⟨n, r₂, hopen, hgave, -⟩ | ⟨⟨x, t, hopen⟩, herror⟩ :=
      openPage_spec hr₁ hb hpage (hcount' ▸ hvalues)
    · refine Or.inl ⟨{ r₂ with progress := .ready }, Step.within_ok ?_, ?_, rfl, ?_, ?_⟩
      · exact (Step.bind_ok hload _).trans (Step.bind_ok hopen _)
      · exact ⟨hgave.reading.binding, hgave.reading.values, hgave.reading.bytes,
          hgave.reading.page⟩
      · have hleft := hgave.left
        rw [List.length_nil, Nat.zero_add, hcount'] at hleft
        exact hleft
      · rw [hgave.ahead, nil_append_answer]
        rfl
    · refine Or.inr ⟨⟨Contextual.within (.preparingColumn column) x, t, Step.within_error ?_⟩,
        herror⟩
      exact (Step.bind_ok hload _).trans (Step.bind_error hopen _)
  · refine Or.inr ⟨⟨_, t, Step.within_error (Step.bind_error hload _)⟩, x', ?_⟩
    have hwhole' : Whole.dictionary r.options b (.ofBytes (b.bytes r.buffer)) = _ := hwhole
    rw [Step.bind_error hwhole']

/-! ## reading to the end -/

theorem read_unprepared (h : r.progress = .uninitialized) (v : Batch) :
    read (r, v) = (.error (.misuse .columnNotPrepared), (r, v)) := by
  rw [read, Step.state_bind]
  dsimp only
  rw [if_pos h]
  rfl

theorem read_exhausted (h : r.progress = .exhausted) (v : Batch) :
    read (r, v) = (.ok 0, (r, {})) := by
  rw [read, Step.state_bind]
  dsimp only
  rw [h, if_neg (by decide), Step.put_bind, if_pos rfl]
  rfl

theorem read_end (h : r.progress = .ready) (hzero : r.columnValues = 0) (v : Batch) :
    read (r, v) = (.ok 0, ({ r with progress := .exhausted }, {})) := by
  rw [read, Step.state_bind]
  dsimp only
  rw [h, if_neg (by decide), Step.put_bind, if_neg (by decide), if_pos hzero]
  rfl

theorem read_fill (h : r.progress = .ready) (hpos : 0 < r.columnValues) (v : Batch) :
    read (r, v) = fill batchSize 0 (r, {}) := by
  rw [read, Step.state_bind]
  dsimp only
  rw [h, if_neg (by decide), Step.put_bind, if_neg (by decide), if_neg (Nat.ne_of_gt hpos)]

/-- one read is a batch of the next slots -/
theorem read_spec (hb : b.Bounded) (hr : r.Reading b) (h : r.progress = .ready)
    (hpos : 0 < r.columnValues) (v : Batch) :
    Fills b (min batchSize r.columnValues) read r v [] := by
  have hfill := fill_spec hb batchSize 0 hr Batch.holds_nil (Nat.zero_le _)
    (Nat.le_refl _)
  rw [Fills, read_fill h hpos]
  exact hfill

/-! ## the batches -/

/-- `n` slots cut into batches, all of them full but the last, and none empty -/
structure Cuts (n : Nat) (slots : List (Option Value)) (bs : List Batch) : Prop where
  count : bs.length = (n + (batchSize - 1)) / batchSize
  full : ∀ v ∈ bs.dropLast, v.slots.length = batchSize
  nonempty : ∀ v ∈ bs, v.slots ≠ []
  slots : bs.flatMap Batch.slots = slots

theorem cuts_nil : Cuts 0 [] [] :=
  ⟨rfl, List.forall_mem_nil _, List.forall_mem_nil _, rfl⟩

theorem Cuts.cons {n m : Nat} {v : Batch} {slots : List (Option Value)} {bs : List Batch}
    (h : Cuts m slots bs) (hpos : 0 < n) (hlen : v.slots.length = min batchSize n)
    (hleft : v.slots.length + m = n) : Cuts n (v.slots ++ slots) (v :: bs) := by
  have hsize : batchSize = 16 := rfl
  have hcount := h.count
  rw [hsize] at hlen hcount
  refine ⟨?_, ?_, ?_, ?_⟩
  · rw [List.length_cons, hsize]
    omega
  · match bs with
    | [] => exact fun _ h => nomatch h
    | w :: bs =>
      have hmore : v.slots.length = batchSize := by
        rw [List.length_cons] at hcount
        omega
      rw [List.dropLast_cons_cons]
      exact List.forall_mem_cons.mpr ⟨hmore, h.full⟩
  · refine List.forall_mem_cons.mpr ⟨fun hnil => ?_, h.nonempty⟩
    rw [hnil, List.length_nil] at hlen
    omega
  · rw [List.flatMap_cons, h.slots]

/-- the batches of a drained reader are what it had ahead -/
theorem Drains.ahead (hb : b.Bounded) {vs : Nat → Batch} {bs : List Batch} {r r' : ColumnReader}
    (h : Drains vs r bs r') : r.Reading b → r.progress = .ready →
    ∃ (slots : List (Option Value)) (full : List Batch), r.ahead b = .ok slots ∧
      bs = full ++ [({} : Batch)] ∧ Cuts r.columnValues slots full ∧ r'.progress = .exhausted := by
  induction h with
  | @last vs r r' v n h hend =>
    intro hr hready
    by_cases hzero : r.columnValues = 0
    · rw [read_end hready hzero] at h
      cases h
      refine ⟨[], [], ?_, rfl, hzero ▸ cuts_nil, rfl⟩
      have hpage : r.pageValues = 0 := by
        have := hr.values
        omega
      rw [ahead_of_zero b hpage, hzero, Step.answer, Whole.slots, if_pos rfl]
      rfl
    · obtain ⟨_, _, _, S, hread, -, -, hgave⟩ | ⟨⟨_, _, hread⟩, -⟩ :=
        read_spec hb hr hready (Nat.pos_of_ne_zero hzero) (vs 0)
      · rw [hread] at h
        cases h
        have := hgave.within.progress
        rw [hend, hready] at this
        cases this
      · rw [hread] at h
        cases h
  | @more vs r r' r'' v n bs h hmore hrest ih =>
    intro hr hready
    by_cases hzero : r.columnValues = 0
    · rw [read_end hready hzero] at h
      cases h
      exact absurd rfl hmore
    · obtain ⟨_, _, _, S, hread, hlen, hholds, hgave⟩ | ⟨⟨_, _, hread⟩, -⟩ :=
        read_spec hb hr hready (Nat.pos_of_ne_zero hzero) (vs 0)
      · rw [hread] at h
        cases h
        obtain ⟨slots, full, hahead, rfl, hcuts, hend⟩ :=
          ih hgave.reading (hgave.within.progress.trans hready)
        have hslots : v.slots = S := hholds.slots_eq
        refine ⟨S ++ slots, v :: full, ?_, rfl, ?_, hend⟩
        · rw [hgave.ahead, hahead]
          rfl
        · rw [← hslots] at hlen ⊢
          exact hcuts.cons (Nat.pos_of_ne_zero hzero) hlen (hslots ▸ hgave.left)
      · rw [hread] at h
        cases h

/-- a reader can be drained when what it has ahead can be had -/
theorem exists_drains (hb : b.Bounded) (n : Nat) : ∀ (vs : Nat → Batch) {r : ColumnReader}
    {slots : List (Option Value)}, r.columnValues ≤ n → r.Reading b → r.progress = .ready →
    r.ahead b = .ok slots → ∃ bs r', Drains vs r bs r' := by
  induction n with
  | zero =>
    intro vs r slots hn _ hready _
    exact ⟨_, _, .last (read_end hready (Nat.le_zero.mp hn) (vs 0)) rfl⟩
  | succ n ih =>
    intro vs r slots hn hr hready hahead
    by_cases hzero : r.columnValues = 0
    · exact ⟨_, _, .last (read_end hready hzero (vs 0)) rfl⟩
    · obtain ⟨_, r', _, S, hread, hlen, -, hgave⟩ | ⟨-, e, herror⟩ :=
        read_spec hb hr hready (Nat.pos_of_ne_zero hzero) (vs 0)
      · have hleft := hgave.left
        have hless : r'.columnValues ≤ n := by
          have hsize : batchSize = 16 := rfl
          omega
        have hready' := hgave.within.progress.trans hready
        rw [hgave.ahead] at hahead
        rcases hrest : r'.ahead b with x | rest
        · rw [hrest] at hahead
          cases hahead
        · obtain ⟨bs, r'', hdrains⟩ :=
            ih (fun i => vs (i + 1)) hless hgave.reading hready' hrest
          exact ⟨_, r'', .more hread (by rw [hready']; decide) hdrains⟩
      · rw [hahead] at herror
        cases herror

/-- a chunk can be prepared and drained just when it can be read as a whole, into whichever
batches; what is drained is the chunk cut into sixteens, and then nothing more -/
theorem refines_whole {r₀ : ColumnReader} {column : Nat} {schema : SchemaElement}
    {chunk : ColumnChunk} (hbind : Binding.ofChunk column schema chunk r₀.buffer.length = .ok b)
    (hvalues : 0 < b.numValues) (hsize : 0 < b.size) (hdict : r₀.options.dictionary = true)
    (vs : Nat → Batch) :
    ((∃ slots, Whole.chunk r₀.options b r₀.buffer = .ok slots) ↔
      ∃ r bs r', prepare column schema chunk r₀ = (.ok (), r) ∧ Drains vs r bs r') ∧
    ∀ slots, Whole.chunk r₀.options b r₀.buffer = .ok slots → ∀ r bs r',
      prepare column schema chunk r₀ = (.ok (), r) → Drains vs r bs r' →
      (∃ full, bs = full ++ [({} : Batch)] ∧ Cuts b.numValues slots full) ∧
      ∀ v, read (r', v) = (.ok 0, (r', {})) := by
  obtain ⟨hb, -⟩ := Binding.ofChunk_spec hbind
  obtain ⟨r, hprepare, hr, hready, hcount, hahead⟩ | ⟨⟨x, t, hprepare⟩, x', hwhole⟩ :=
    prepare_spec hbind hvalues hsize hdict
  · rw [← hahead, hprepare]
    refine ⟨⟨?_, ?_⟩, ?_⟩
    · rintro ⟨slots, hslots⟩
      obtain ⟨bs, r', hdrains⟩ := exists_drains hb _ vs (Nat.le_refl _) hr hready hslots
      exact ⟨r, bs, r', rfl, hdrains⟩
    · rintro ⟨_, bs, r', ⟨⟩, hdrains⟩
      obtain ⟨slots, -, hslots, -⟩ := hdrains.ahead hb hr hready
      exact ⟨slots, hslots⟩
    · rintro slots hslots _ bs r' ⟨⟩ hdrains
      obtain ⟨slots', full, hslots', hbs, hcuts, hend⟩ := hdrains.ahead hb hr hready
      rw [hslots] at hslots'
      cases hslots'
      exact ⟨⟨full, hbs, hcount ▸ hcuts⟩, read_exhausted hend⟩
  · rw [hwhole, hprepare]
    refine ⟨⟨?_, ?_⟩, ?_⟩
    · rintro ⟨_, ⟨⟩⟩
    · rintro ⟨_, _, _, ⟨⟩, _⟩
    · rintro _ ⟨⟩

/-- a chunk of the two slots 7 and empty -/
theorem refines_whole_int32 : ∃ r bs r',
    prepare 0 (.optional "n" .int32) {
      filePath := none
      fileOffset := 0
      metaData := some {
        physicalType := .int32
        encodings := [.rle, .plain]
        pathInSchema := ["n"]
        codec := .uncompressed
        numValues := 2
        totalUncompressedSize := 27
        totalCompressedSize := 27
        keyValueMetadata := none
        dataPageOffset := 0
        indexPageOffset := none
        dictionaryPageOffset := none
        statistics := none } }
      (.ofBuffer [21, 0, 21, 20, 21, 20, 44, 21, 4, 21, 0, 21, 6, 21, 6, 0, 0,
        2, 0, 0, 0, 3, 1, 7, 0, 0, 0] {}) = (.ok (), r) ∧
    Drains (fun _ => {}) r bs r' := by
  refine (refines_whole rfl (by decide) (by decide) rfl fun _ => {}).1.mp
    ⟨[some (.int32 [7, 0, 0, 0]), none], ?_⟩
  cbv

end ColumnReader

end Columnar
