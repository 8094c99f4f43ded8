import Columnar.Proofs.Checked.Delta

/-!
# Binding a reader again

A reader is bound to one chunk after another.  Nothing of the last chunk stays, and of the buffer
the bytes of the chunk are all that is read.

* `Step.Mirrors g x y`      `y` does with the image of a state what `x` does with the state;
* `Step.runs x s ts`        what `x` answers and leaves, from each of the inputs `ts` on;
* `ColumnReader.seen`, `DeltaReader.seen`   a reader without its buffer;
* `SameChunk`               two buffers that hold the same bytes of a chunk;
* `Alike seen read t u`     two runs that bind a reader, and nothing tells them apart;
* `ColumnReader.prepare_alike`, `DeltaReader.prepare_alike`   a reader that is bound again.
-/

namespace Columnar

namespace Step

variable {σ τ ε α β : Type} {g : σ → σ}

/-! ## steps on the image of a state -/

/-- `y` does with the image of a state under `g` what `x` does with the state -/
def Mirrors (g : σ → σ) (x y : Step σ ε α) : Prop := ∀ s, y (g s) = ((x s).1, g (x s).2)

theorem mirrors_pure (a : α) : Mirrors g (pure a : Step σ ε α) (pure a) := fun _ => rfl

theorem mirrors_fail (e : ε) : Mirrors g (fail e : Step σ ε α) (fail e) := fun _ => rfl

theorem mirrors_ofExcept (e : Except ε α) : Mirrors g (ofExcept e : Step σ ε α) (ofExcept e) :=
  fun _ => rfl

theorem mirrors_lift (e : Except Error α) : Mirrors g (liftM e : Step σ Failure α) (liftM e) := by
  intro s
  cases e <;> rfl

theorem mirrors_put (s : σ) : Mirrors g (put s : Step σ ε Unit) (put (g s)) := fun _ => rfl

theorem mirrors_update {f : σ → σ} (h : ∀ s, f (g s) = g (f s)) :
    Mirrors g (update f : Step σ ε Unit) (update f) := by
  intro s
  rw [update_apply, update_apply, h]

theorem mirrors_bind {x y : Step σ ε α} {f h : α → Step σ ε β} (hx : Mirrors g x y)
    (hf : ∀ a, Mirrors g (f a) (h a)) : Mirrors g (x >>= f) (y >>= h) := by
  intro s
  have hy := hx s
  rw [bind_apply, bind_apply, hy]
  rcases x s with ⟨e | a, s'⟩
  · rfl
  · exact hf a s'

/-- a step that looks at the state, and its mirror, that looks at the image -/
theorem mirrors_state {f h : σ → Step σ ε β} (hf : ∀ s, Mirrors g (f s) (h (g s))) :
    Mirrors g (state >>= f) (state >>= h) := fun s => hf s s

/-- two ways, of which the image takes the same -/
theorem mirrors_ite {p q : Prop} [Decidable p] [Decidable q] {x x' y y' : Step σ ε α}
    (h : p ↔ q) (hx : Mirrors g x y) (hx' : Mirrors g x' y') :
    Mirrors g (if p then x else x') (if q then y else y') := by
  by_cases hp : p
  · rw [if_pos hp, if_pos (h.mp hp)]
    exact hx
  · rw [if_neg hp, if_neg fun hq => hp (h.mpr hq)]
    exact hx'

theorem mirrors_within [Contextual ε] {x y : Step σ ε α} {c : Context} (h : Mirrors g x y) :
    Mirrors g (x.within c) (y.within c) := by
  intro s
  have hy := h s
  rw [within, within, mapError, mapError, hy]
  rcases x s with ⟨e | a, s'⟩ <;> rfl

theorem mirrors_onFst {x y : Step σ ε α} (h : Mirrors g x y) :
    Mirrors (Prod.map g id) (x.onFst : Step (σ × τ) ε α) y.onFst := by
  intro s
  have hy := h s.1
  rw [onFst, onFst, Prod.map_fst, hy]
  rfl

/-! ## runs with one input after the other -/

/-- what a step answers and leaves, from each of some inputs on, one after the other -/
def runs (x : Step (σ × τ) ε α) : σ → List τ → List (Except ε α × σ × τ)
  | _, [] => []
  | s, t :: ts => x (s, t) :: runs x (x (s, t)).2.1 ts

/-- the runs of a step that mirrors itself -/
theorem runs_mirrors {x : Step (σ × τ) ε α} (h : Mirrors (Prod.map g id) x x) (ts : List τ) :
    ∀ s, runs x (g s) ts = (runs x s ts).map (Prod.map id (Prod.map g id)) := by
  induction ts with
  | nil => exact fun _ => rfl
  | cons t ts ih =>
    intro s
    have hs : x (g s, t) = Prod.map id (Prod.map g id) (x (s, t)) := h (s, t)
    rw [runs, runs, List.map_cons, hs, ← ih (x (s, t)).2.1]
    rfl

/-- the runs of a step that overwrites its input -/
theorem runs_inputs {x : Step (σ × τ) ε α} {I : σ → Prop}
    (hkeep : ∀ s t, I s → I (x (s, t)).2.1) (hblind : ∀ s t t', I s → x (s, t) = x (s, t'))
    (ts : List τ) : ∀ ts' s, ts.length = ts'.length → I s → runs x s ts = runs x s ts' := by
  induction ts with
  | nil =>
    intro ts' s hlen _
    rw [List.length_eq_zero_iff.mp hlen.symm]
  | cons t ts ih =>
    intro ts' s hlen hs
    cases ts' with
    | nil => cases hlen
    | cons t' ts' =>
      rw [runs, runs, hblind s t t' hs]
      rw [ih ts' _ (Nat.succ.inj hlen) (hkeep s t' hs)]

end Step

open Step

/-! ## what tells two readers apart -/

section
variable {ρ : Type}

/-- two runs that bind a reader answer alike, and leave readers alike: what is seen of them is the
same, and so is all that is read of them.  What the batches held that are filled has no part in it
once the reader is bound -/
structure Alike (seen : ρ → ρ) (read : Step (ρ × Batch) Failure Nat)
    (t u : Except Failure Unit × ρ) : Prop where
  answer : t.1 = u.1
  state : seen t.2 = seen u.2
  reads : ∀ vs vs' : List Batch, vs.length = vs'.length → t.1 = .ok () ∨ vs = vs' →
    (runs read t.2 vs).map (Prod.map id (Prod.map seen id)) =
      (runs read u.2 vs').map (Prod.map id (Prod.map seen id))

/-- runs are alike when what is seen of them is, for a read that keeps `I` and then overwrites its
batch -/
theorem Alike.of_seen {seen : ρ → ρ} {read : Step (ρ × Batch) Failure Nat} {I : ρ → Prop}
    {t u : Except Failure Unit × ρ} (hmirrors : Mirrors (Prod.map seen id) read read)
    (hkeep : ∀ r v, I r → I (read (r, v)).2.1)
    (hblind : ∀ r v v', I r → read (r, v) = read (r, v'))
    (hready : t.1 = .ok () → I t.2) (h : Prod.map id seen t = Prod.map id seen u) :
    Alike seen read t u := by
  have hstate : seen t.2 = seen u.2 := congrArg Prod.snd h
  have hanswer : (Prod.map id seen t).1 = (Prod.map id seen u).1 := congrArg Prod.fst h
  refine ⟨hanswer, hstate, fun vs vs' hlen hvs => ?_⟩
  have hinputs : runs read t.2 vs = runs read t.2 vs' := by
    rcases hvs with hok | rfl
    · exact runs_inputs hkeep hblind vs vs' t.2 hlen (hready hok)
    · rfl
  rw [hinputs, ← runs_mirrors hmirrors, ← runs_mirrors hmirrors, hstate]

end

/-- two buffers of which a chunk is the same: where it can be bound in the first, the second is
long enough for it and holds the same bytes of it -/
def SameChunk (column : Nat) (schema : SchemaElement) (chunk : ColumnChunk)
    (buffer buffer' : Bytes) : Prop :=
  buffer' = buffer ∨ ∃ b, Binding.ofChunk column schema chunk buffer.length = .ok b ∧
    b.start + b.size ≤ buffer'.length ∧ b.bytes buffer' = b.bytes buffer

/-- a buffer that is long enough for a chunk is as good as another -/
theorem Binding.ofChunk_resize {column size size' : Nat} {schema : SchemaElement}
    {chunk : ColumnChunk} {b : Binding} (h : ofChunk column schema chunk size = .ok b)
    (hsize : b.start + b.size ≤ size') : ofChunk column schema chunk size' = .ok b := by
  unfold ofChunk at h ⊢
  obtain ⟨m, hm, h⟩ := Except.bind_eq_ok.mp h
  obtain ⟨type, htype, h⟩ := Except.bind_eq_ok.mp h
  obtain ⟨len, hlen, h⟩ := Except.bind_eq_ok.mp h
  obtain ⟨numValues, hvalues, h⟩ := Except.bind_eq_ok.mp h
  obtain ⟨chunkSize, hchunk, h⟩ := Except.bind_eq_ok.mp h
  obtain ⟨offset, hoffset, h⟩ := Except.bind_eq_ok.mp h
  obtain ⟨start, hstart, h⟩ := Except.bind_eq_ok.mp h
  rw [Except.bind_ok hm, Except.bind_ok htype, Except.bind_ok hlen, Except.bind_ok hvalues,
    Except.bind_ok hchunk, Except.bind_ok hoffset, Except.bind_ok hstart]
  split at h
  · cases h
  · cases h
    rw [if_neg (Nat.not_lt.mpr hsize)]
    rfl

namespace ColumnReader

/-- all that is seen of a reader: its state without the buffer -/
def seen (r : ColumnReader) : ColumnReader := { r with buffer := [] }

/-! ## the column reader reads nothing else -/

theorem bound_mirrors : Mirrors seen bound bound := by
  refine mirrors_state fun r => ?_
  dsimp only [seen]
  split
  · exact mirrors_pure _
  · exact mirrors_fail _

theorem onChunk_mirrors {α : Type} (x : Step Cursor Failure α) :
    Mirrors seen (onChunk x) (onChunk x) := fun _ => rfl

theorem passed_mirrors (start : Nat) : Mirrors seen (passed start) (passed start) := by
  refine mirrors_state fun r => mirrors_bind (mirrors_ofExcept _) fun size => ?_
  exact mirrors_ite .rfl (mirrors_fail _) (mirrors_pure _)

theorem loadDictionary_mirrors : Mirrors seen loadDictionary loadDictionary := by
  refine mirrors_bind bound_mirrors fun b => mirrors_state fun r => ?_
  refine mirrors_ite .rfl (mirrors_ite .rfl (mirrors_fail _) ?_) (mirrors_pure ())
  refine mirrors_bind (onChunk_mirrors _) fun page => ?_
  refine mirrors_bind (mirrors_lift _) fun dictionary => ?_
  exact mirrors_bind (passed_mirrors _) fun left => mirrors_update fun _ => rfl

theorem enterPage_mirrors (page : DataPage) (size : Nat) :
    Mirrors seen (enterPage page size) (enterPage page size) := by
  refine mirrors_state fun r => ?_
  refine mirrors_ite .rfl (mirrors_fail _) (mirrors_ite .rfl (mirrors_fail _) ?_)
  refine mirrors_bind bound_mirrors fun b => mirrors_bind (mirrors_lift _) fun opened => ?_
  refine mirrors_bind (mirrors_ofExcept _) fun header => ?_
  refine mirrors_bind (mirrors_ofExcept _) fun columnBytes => ?_
  refine mirrors_bind (mirrors_ofExcept _) fun pageBytes => ?_
  exact mirrors_bind (mirrors_put _) fun _ => mirrors_pure _

theorem openPage_mirrors : Mirrors seen openPage openPage := by
  refine mirrors_state fun r => mirrors_bind (mirrors_ofExcept _) fun columnBytes => ?_
  refine mirrors_bind (mirrors_put _) fun _ => mirrors_bind (onChunk_mirrors _) fun page => ?_
  exact mirrors_bind (passed_mirrors _) fun size => enterPage_mirrors page size.1

theorem turnPage_mirrors (b : Binding) : Mirrors seen (turnPage b) (turnPage b) :=
  mirrors_state fun _ => mirrors_ite .rfl (mirrors_within openPage_mirrors) (mirrors_pure 0)

theorem takeBatch_mirrors (count : Nat) :
    Mirrors (Prod.map seen id) (takeBatch count) (takeBatch count) := by
  intro s
  unfold takeBatch
  dsimp only [seen, Prod.map]
  split <;> rfl

theorem takePage_mirrors (b : Binding) :
    Mirrors (Prod.map seen id) (takePage b) (takePage b) := by
  refine mirrors_state fun s => mirrors_bind (mirrors_within (takeBatch_mirrors _)) fun bytes => ?_
  refine mirrors_ite .rfl (mirrors_fail _) ?_
  refine mirrors_bind (mirrors_ofExcept _) fun columnBytes => ?_
  refine mirrors_bind (mirrors_ofExcept _) fun pageValues => ?_
  refine mirrors_bind (mirrors_ofExcept _) fun columnValues => ?_
  exact mirrors_bind (mirrors_update fun _ => rfl) fun _ => mirrors_pure bytes

theorem fill_mirrors (fuel : Nat) : ∀ taken,
    Mirrors (Prod.map seen id) (fill fuel taken) (fill fuel taken) := by
  induction fuel with
  | zero => exact fun taken => mirrors_pure taken
  | succ fuel ih =>
    refine fun taken => mirrors_state fun s => mirrors_ite .rfl ?_ (mirrors_pure taken)
    refine mirrors_bind (mirrors_onFst bound_mirrors) fun b => ?_
    refine mirrors_bind (mirrors_onFst (turnPage_mirrors b)) fun upfront => ?_
    exact mirrors_bind (takePage_mirrors b) fun bytes => ih _

/-- what a read does is not told by the buffer -/
theorem read_mirrors : Mirrors (Prod.map seen id) read read := by
  refine mirrors_state fun s => mirrors_ite .rfl (mirrors_fail _) ?_
  refine mirrors_bind (mirrors_put _) fun _ => mirrors_ite .rfl (mirrors_pure 0) ?_
  refine mirrors_ite .rfl ?_ (fill_mirrors _ _)
  exact mirrors_bind (mirrors_put _) fun _ => mirrors_pure 0

/-- a reader that is prepared empties the batch before it is filled -/
theorem read_blind {r : ColumnReader} (h : r.progress ≠ .uninitialized) (v v' : Batch) :
    read (r, v) = read (r, v') := by
  rw [read, state_bind, state_bind]
  dsimp only
  rw [if_neg h, put_bind, put_bind]

/-! ## binding it again -/

/-- what is done with a chunk of the bytes `bytes` once it is bound -/
def openChunk (b : Binding) (bytes : Bytes) : Step ColumnReader Failure Unit := do
  let r ← Step.state
  if b.numValues = 0 ∨ b.size = 0 then
    Step.put { r with
      binding := some b
      chunk := .ofBytes bytes
      columnBytes := b.size
      progress := .ready }
  else
    Step.put { r with
      binding := some b
      chunk := .ofBytes bytes
      columnValues := b.numValues
      columnBytes := b.size }
    loadDictionary
    let _ ← openPage
    Step.update fun r => { r with progress := .ready }

theorem openChunk_mirrors (b : Binding) (bytes : Bytes) :
    Mirrors seen (openChunk b bytes) (openChunk b bytes) := by
  refine mirrors_state fun r => mirrors_ite .rfl (mirrors_put _) ?_
  refine mirrors_bind (mirrors_put _) fun _ => mirrors_bind loadDictionary_mirrors fun _ => ?_
  exact mirrors_bind openPage_mirrors fun _ => mirrors_update fun _ => rfl

/-- a chunk that can be bound is opened by a new reader -/
theorem prepare_bound {r : ColumnReader} {column : Nat} {schema : SchemaElement}
    {chunk : ColumnChunk} {b : Binding}
    (h : Binding.ofChunk column schema chunk r.buffer.length = .ok b) :
    prepare column schema chunk r = (openChunk b (b.bytes r.buffer)).within
      (.preparingColumn column) (ofBuffer r.buffer r.options) := by
  refine within_congr ((update_bind _ _ r).trans ((state_bind _ _).trans ?_))
  exact bind_ok (liftM_ok h _) _

/-- nothing of what a reader was bound to stays -/
theorem prepare_renewed (column : Nat) (schema : SchemaElement) (chunk : ColumnChunk)
    (r : ColumnReader) :
    prepare column schema chunk r = prepare column schema chunk (ofBuffer r.buffer r.options) :=
  rfl

section
variable {r : ColumnReader} {column : Nat} {schema : SchemaElement} {chunk : ColumnChunk}

/-- what is seen of a reader that is bound again is what is seen of a new one -/
theorem prepare_seen {buffer : Bytes} (c : Context)
    (h : SameChunk column schema chunk r.buffer buffer) :
    Prod.map id seen ((prepare column schema chunk).within c r) =
      Prod.map id seen ((prepare column schema chunk).within c (ofBuffer buffer r.options)) := by
  obtain rfl | ⟨b, hb, hsize, hbytes⟩ := h
  · rfl
  have hmirrors := mirrors_within (c := c) (mirrors_within (c := .preparingColumn column)
    (openChunk_mirrors b (b.bytes r.buffer)))
  rw [within_congr (prepare_bound hb),
    within_congr (prepare_bound (r := ofBuffer buffer r.options) (Binding.ofChunk_resize hb hsize)),
    show b.bytes (ofBuffer buffer r.options).buffer = b.bytes r.buffer from hbytes]
  exact (hmirrors (ofBuffer r.buffer r.options)).symm.trans (hmirrors (ofBuffer buffer r.options))

/-- a reader that was prepared and read -/
def Prepared (r : ColumnReader) : Prop := ∃ g b, g ≠ .uninitialized ∧ r.Kept False g b

theorem Prepared.progress (h : r.Prepared) : r.progress ≠ .uninitialized := by
  obtain ⟨g, b, hg, hr⟩ := h
  exact hr.progress ▸ hg

theorem Prepared.read (h : r.Prepared) (v : Batch) : (ColumnReader.read (r, v)).2.1.Prepared := by
  obtain ⟨g, b, hg, hr⟩ := h
  have hends := read_ends hr hg v
  rcases hrun : ColumnReader.read (r, v) with ⟨x | n, t⟩
  · rw [hrun] at hends
    exact ⟨g, b, hg, hends.1⟩
  · rw [hrun] at hends
    obtain ⟨g', hg', hkept, -⟩ := hends
    exact ⟨g', b, hg', hkept⟩

theorem prepared_prepare {c : Context}
    (h : ((prepare column schema chunk).within c r).1 = .ok ()) :
    ((prepare column schema chunk).within c r).2.Prepared := by
  have hends := prepare_ends (r := r) column schema chunk
  rcases hrun : prepare column schema chunk r with ⟨x | ⟨⟩, r'⟩
  · rw [within_error hrun] at h
    cases h
  · rw [hrun] at hends
    rw [within_ok hrun]
    obtain ⟨b, hkept⟩ := hends
    exact ⟨.ready, b, nofun, hkept.imp False.elim⟩

/-- a reader that is bound to a chunk again is like a new one, and of the buffer only the bytes of
the chunk matter -/
theorem prepare_alike {buffer : Bytes} (c : Context)
    (h : SameChunk column schema chunk r.buffer buffer) :
    Alike seen read ((prepare column schema chunk).within c r)
      ((prepare column schema chunk).within c (ofBuffer buffer r.options)) :=
  Alike.of_seen read_mirrors (fun _ v hr => hr.read v)
    (fun _ v v' hr => read_blind hr.progress v v') prepared_prepare (prepare_seen c h)

end

end ColumnReader

namespace DeltaReader

/-- all that is seen of a reader: its state without the buffer -/
def seen (r : DeltaReader) : DeltaReader := { r with buffer := [] }

/-! ## the delta reader reads nothing else -/

section
variable (f : Bytes → Bytes) (g : Options → Options)

/-- a reader with another buffer and other options -/
def under (r : DeltaReader) : DeltaReader := { r with buffer := f r.buffer, options := g r.options }

theorem onPage_under {α : Type} (p : DeltaPage) (x : Step (DeltaPage × Batch) Failure α) :
    Mirrors (Prod.map (under f g) id) (onPage p x) (onPage p x) := fun _ => rfl

theorem settle_under (s : DeltaReader × Batch) :
    settle (Prod.map (under f g) id s) = Prod.map (under f g) id (settle s) := by
  unfold settle
  dsimp only [Prod.map, id]
  split <;> rfl

/-- what a read does is told neither by the buffer nor by the options -/
theorem read_under : Mirrors (Prod.map (under f g) id) read read := by
  refine mirrors_state fun s => mirrors_ite .rfl (mirrors_fail _) ?_
  refine mirrors_bind (mirrors_put _) fun _ => ?_
  obtain ⟨⟨buffer, o, progress, binding, page⟩, v⟩ := s
  dsimp only [under, Prod.map]
  split
  · exact mirrors_pure 0
  · exact mirrors_bind (mirrors_put _) fun _ => mirrors_pure 0
  · refine mirrors_bind (onPage_under f g _ _) fun taken => ?_
    exact mirrors_bind (mirrors_update (settle_under f g)) fun _ => mirrors_pure taken

end

/-- what a read does is not told by the buffer -/
theorem read_mirrors : Mirrors (Prod.map seen id) read read := read_under (fun _ => []) id

/-- a reader that is prepared empties the batch before it is filled -/
theorem read_blind {r : DeltaReader} (h : r.progress ≠ .uninitialized) (v v' : Batch) :
    read (r, v) = read (r, v') := by
  rw [read, state_bind, state_bind]
  dsimp only
  rw [if_neg h, put_bind, put_bind]

/-! ## binding it again -/

/-- a buffer that is long enough for a chunk is as good as another -/
theorem bind_resize {column size size' : Nat} {schema : SchemaElement} {chunk : ColumnChunk}
    {b : Binding} (h : Binding.ofChunk column schema chunk size = .ok b)
    (hsize : b.start + b.size ≤ size') :
    bind column schema chunk size' = bind column schema chunk size := by
  rw [bind, bind, h, Binding.ofChunk_resize h hsize]

/-- the page of a chunk is read out of the bytes of the chunk -/
theorem openPage_congr {b : Binding} {buffer buffer' : Bytes} (o : Options)
    (h : b.bytes buffer' = b.bytes buffer) : openPage b buffer' o = openPage b buffer o := by
  rw [openPage, openPage, h]

/-- the page of a chunk is taken up once the chunk is bound -/
def takeUp (b : Binding) (page : Except Failure (Option DeltaPage)) :
    Step DeltaReader Failure Unit := do
  let page ← page
  Step.update fun r => { r with progress := .ready, binding := some b, page }

theorem takeUp_mirrors (b : Binding) (page : Except Failure (Option DeltaPage)) :
    Mirrors seen (takeUp b page) (takeUp b page) :=
  mirrors_bind (mirrors_ofExcept _) fun _ => mirrors_update fun _ => rfl

section
variable {r : DeltaReader} {column : Nat} {schema : SchemaElement} {chunk : ColumnChunk}

/-- a chunk that can be bound is taken up by a new reader -/
theorem prepare_bound {b : Binding} (h : bind column schema chunk r.buffer.length = .ok b) :
    prepare column schema chunk r = (takeUp b (openPage b r.buffer r.options)).within
      (.preparingDelta column) (ofBuffer r.buffer r.options) := by
  refine within_congr ((update_bind _ _ r).trans ((state_bind _ _).trans ?_))
  refine (bind_ok (liftM_ok h _) _).trans ?_
  rw [takeUp]
  dsimp only [ofBuffer]
  rcases openPage b r.buffer r.options with x | page <;> rfl

/-- a chunk that cannot be bound leaves a new reader -/
theorem prepare_unbound {x : Error} (h : bind column schema chunk r.buffer.length = .error x) :
    prepare column schema chunk r = (Step.fail (Failure.error x)).within
      (.preparingDelta column) (ofBuffer r.buffer r.options) := by
  refine within_congr ((update_bind _ _ r).trans ((state_bind _ _).trans ?_))
  exact bind_error (x := liftM (bind column schema chunk r.buffer.length))
    (by rw [h]; rfl) _

/-- nothing of what a reader was bound to stays -/
theorem prepare_renewed (column : Nat) (schema : SchemaElement) (chunk : ColumnChunk)
    (r : DeltaReader) :
    prepare column schema chunk r = prepare column schema chunk (ofBuffer r.buffer r.options) :=
  rfl

/-- what is seen of a reader that is bound again is what is seen of a new one -/
theorem prepare_seen {buffer : Bytes} (c : Context)
    (h : SameChunk column schema chunk r.buffer buffer) :
    Prod.map id seen ((prepare column schema chunk).within c r) =
      Prod.map id seen ((prepare column schema chunk).within c (ofBuffer buffer r.options)) := by
  obtain rfl | ⟨b, hb, hsize, hbytes⟩ := h
  · rfl
  have hsame := bind_resize hb hsize
  rcases hbind : bind column schema chunk r.buffer.length with x | b'
  · rw [within_congr (prepare_unbound hbind),
      within_congr (prepare_unbound (r := ofBuffer buffer r.options) (hsame.trans hbind))]
    rfl
  · obtain ⟨b'', hb'', hb'⟩ := Except.bind_eq_ok.mp hbind
    obtain rfl := Except.ok.inj (hb.symm.trans hb'')
    repeat' split at hb'
    all_goals cases hb'
    have hmirrors := mirrors_within (c := c) (mirrors_within (c := .preparingDelta column)
      (takeUp_mirrors b (openPage b r.buffer r.options)))
    rw [within_congr (prepare_bound hbind),
      within_congr (prepare_bound (r := ofBuffer buffer r.options) (hsame.trans hbind)),
      show openPage b (ofBuffer buffer r.options).buffer (ofBuffer buffer r.options).options =
        openPage b r.buffer r.options from openPage_congr r.options hbytes]
    exact (hmirrors (ofBuffer r.buffer r.options)).symm.trans
      (hmirrors (ofBuffer buffer r.options))

theorem progress_prepare {c : Context}
    (h : ((prepare column schema chunk).within c r).1 = .ok ()) :
    ((prepare column schema chunk).within c r).2.progress ≠ .uninitialized := by
  have hends := prepare_ends (r := r) column schema chunk
  rcases hrun : prepare column schema chunk r with ⟨x | ⟨⟩, r'⟩
  · rw [within_error hrun] at h
    cases h
  · rw [hrun] at hends
    rw [within_ok hrun]
    exact fun hready => nomatch Eq.trans (Eq.symm hends) hready

/-- a reader that is bound to a chunk again is like a new one, and of the buffer only the bytes of
the chunk matter -/
theorem prepare_alike {buffer : Bytes} (c : Context)
    (h : SameChunk column schema chunk r.buffer buffer) :
    Alike seen read ((prepare column schema chunk).within c r)
      ((prepare column schema chunk).within c (ofBuffer buffer r.options)) :=
  Alike.of_seen (I := fun r => r.progress ≠ .uninitialized) read_mirrors
    (fun r v hr => (read_prepared (r, v) hr).1) (fun _ v v' hr => read_blind hr v v')
    progress_prepare (prepare_seen c h)

end

end DeltaReader

end Columnar
