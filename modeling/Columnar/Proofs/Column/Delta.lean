import Columnar.Column.Delta
import Columnar.Proofs.Column.Chunk

/-!
# What is read of a delta column

A run ends where its empty value is met, and a column where a read gives nothing.  A run that
fills its last batch is read in front of its empty value, which the next read then takes for
the end of the column.

* `DeltaReader.delivered n vs`      what is read of the entries `vs` behind a run of `n` values;
* `DeltaReader.runLength n vs`      the length of the run at the end of `vs`;
* `DeltaReader.delivered_eq_iff`    when nothing is lost;
* `DeltaReader.prepare_chunk`       a chunk that was written yields what is delivered of it.
-/

namespace Columnar

namespace DeltaReader

/-! ## what is delivered -/

/-- what is read of entries behind a run of `n` values -/
def delivered : Nat → List (Option Bytes) → List Bytes
  | _, [] => []
  | n, some v :: vs => v :: delivered (n + 1) vs
  | n, none :: vs => if n % batchSize = 0 then [] else delivered 0 vs

/-- the length of the run at the end of entries that stand behind a run of `n` values -/
def runLength : Nat → List (Option Bytes) → Nat
  | n, [] => n
  | n, some _ :: vs => runLength (n + 1) vs
  | _, none :: vs => runLength 0 vs

/-- what is delivered are the first values -/
theorem delivered_isPrefix (vs : List (Option Bytes)) :
    ∀ n, delivered n vs <+: vs.filterMap id := by
  induction vs with
  | nil => exact fun _ => List.prefix_refl []
  | cons v vs ih =>
    intro n
    cases v with
    | none =>
      rw [List.filterMap_cons_none rfl, delivered]
      split
      · exact List.nil_prefix
      · exact ih 0
    | some v =>
      rw [List.filterMap_cons_some (f := id) rfl, delivered]
      exact (List.cons_prefix_cons).mpr ⟨rfl, ih (n + 1)⟩

/-- all values are delivered just when there is no value behind a run that fills its last
batch -/
theorem delivered_eq_iff (vs : List (Option Bytes)) : ∀ n, delivered n vs = vs.filterMap id ↔
    ∀ front back, vs = front ++ none :: back → runLength n front % batchSize = 0 →
      back.filterMap id = [] := by
  induction vs with
  | nil =>
    intro n
    apply iff_of_true rfl
    intro front back h
    cases front <;> cases h
  | cons v vs ih =>
    intro n
    cases v with
    | some v =>
      rw [List.filterMap_cons_some (f := id) rfl, delivered, List.cons.injEq]
      refine ⟨fun h front back hvs hlen => ?_, fun h => ⟨rfl, (ih (n + 1)).mpr ?_⟩⟩
      · cases front with
        | nil => cases hvs
        | cons x front =>
          obtain ⟨rfl, rfl⟩ := List.cons.inj hvs
          exact (ih (n + 1)).mp h.2 front back rfl hlen
      · exact fun front back hvs => h (some v :: front) back (congrArg _ hvs)
    | none =>
      rw [List.filterMap_cons_none rfl, delivered]
      -- the run ends here; one that fills its last batch is this one or a later one
      refine ⟨fun h front back hvs hlen => ?_, fun h => ?_⟩
      · cases front with
        | nil =>
          obtain ⟨-, rfl⟩ := List.cons.inj hvs
          replace hlen : n % batchSize = 0 := hlen
          rw [if_pos hlen] at h
          exact h.symm
        | cons x front =>
          obtain ⟨rfl, rfl⟩ := List.cons.inj hvs
          split at h
          · replace h : [] = (front ++ none :: back).filterMap id := h
            rw [List.filterMap_append] at h
            have hback := (List.append_eq_nil_iff.mp h.symm).2
            rwa [List.filterMap_cons_none rfl] at hback
          · exact (ih 0).mp h front back rfl hlen
      · by_cases hn : n % batchSize = 0
        · rw [if_pos hn]
          exact (h [] vs rfl hn).symm
        · rw [if_neg hn, ih 0]
          exact fun front back hvs => h (none :: front) back (congrArg _ hvs)

/-- a run that is ended at the end of the column -/
theorem delivered_end (vs : List (Option Bytes)) : ∀ n,
    delivered n (vs ++ [none]) = delivered n vs := by
  induction vs with
  | nil =>
    intro n
    show (if n % batchSize = 0 then [] else delivered 0 []) = []
    split <;> rfl
  | cons v vs ih =>
    intro n
    cases v with
    | some v => exact congrArg (v :: ·) (ih (n + 1))
    | none =>
      show (if n % batchSize = 0 then [] else delivered 0 (vs ++ [none])) =
        if n % batchSize = 0 then [] else delivered 0 vs
      rw [ih 0]

theorem delivered_congr (vs : List (Option Bytes)) : ∀ {n m}, n % batchSize = m % batchSize →
    delivered n vs = delivered m vs := by
  induction vs with
  | nil => exact fun _ => rfl
  | cons v vs ih =>
    intro n m h
    cases v with
    | some v =>
      refine congrArg (v :: ·) (ih ?_)
      rw [Nat.add_mod, h, ← Nat.add_mod]
    | none =>
      show (if n % batchSize = 0 then [] else delivered 0 vs) =
        if m % batchSize = 0 then [] else delivered 0 vs
      rw [h]

/-! ## one batch -/

/-- the values of one batch with room for `n`, and the entries behind them; the empty value that
ends a run is taken while there is room -/
def takeBatch : Nat → List (Option Bytes) → List Bytes × List (Option Bytes)
  | 0, vs => ([], vs)
  | _ + 1, [] => ([], [])
  | _ + 1, none :: vs => ([], vs)
  | n + 1, some v :: vs => (v :: (takeBatch n vs).1, (takeBatch n vs).2)

theorem length_takeBatch (n : Nat) (vs : List (Option Bytes)) :
    (takeBatch n vs).1.length ≤ n ∧
      (takeBatch n vs).1.length + (takeBatch n vs).2.length ≤ vs.length := by
  induction n generalizing vs with
  | zero => exact ⟨Nat.le_refl 0, Nat.le_of_eq (Nat.zero_add _)⟩
  | succ n ih =>
    match vs with
    | [] => exact ⟨Nat.zero_le _, Nat.le_refl 0⟩
    | none :: vs =>
      refine ⟨Nat.zero_le _, ?_⟩
      show 0 + vs.length ≤ vs.length + 1
      omega
    | some v :: vs =>
      have h := ih vs
      show (takeBatch n vs).1.length + 1 ≤ n + 1 ∧
        (takeBatch n vs).1.length + 1 + (takeBatch n vs).2.length ≤ vs.length + 1
      omega

/-- what is delivered is a batch, and then the rest, unless the batch is empty -/
theorem delivered_takeBatch (room : Nat) : ∀ (n : Nat) (vs : List (Option Bytes)),
    n + room = batchSize → delivered n vs = (takeBatch room vs).1 ++
      if n + (takeBatch room vs).1.length = 0 then [] else delivered 0 (takeBatch room vs).2 := by
  induction room with
  | zero =>
    intro n vs hn
    have hsize : batchSize = 16 := rfl
    show delivered n vs = [] ++ if n + 0 = 0 then [] else delivered 0 vs
    rw [if_neg (by omega), List.nil_append]
    -- a full batch ends in front of what ends the run, which is then met like an empty run
    exact delivered_congr vs (by rw [show n = batchSize from hn]; rfl)
  | succ room ih =>
    intro n vs hn
    have hsize : batchSize = 16 := rfl
    match vs with
    | [] =>
      show [] = [] ++ if n + 0 = 0 then [] else []
      rw [ite_self, List.append_nil]
    | none :: vs =>
      show (if n % batchSize = 0 then [] else delivered 0 vs) =
        if n + 0 = 0 then [] else delivered 0 vs
      rw [Nat.mod_eq_of_lt (by omega), Nat.add_zero]
    | some v :: vs =>
      show v :: delivered (n + 1) vs = v :: (takeBatch room vs).1 ++
        if n + ((takeBatch room vs).1.length + 1) = 0 then []
        else delivered 0 (takeBatch room vs).2
      rw [ih (n + 1) vs (by omega), if_neg (by omega), if_neg (by omega)]
      rfl

/-! ## pages -/

/-- the bytes of entries; an empty slot is an empty value -/
def laid (vs : List (Option Bytes)) : Bytes := vs.flatMap fun v => Plain.byteArray (v.getD [])

theorem laid_cons (v : Option Bytes) (vs : List (Option Bytes)) :
    laid (v :: vs) = Plain.byteArray (v.getD []) ++ laid vs := List.flatMap_cons

theorem length_byteArray (bs : Bytes) : (Plain.byteArray bs).length = 4 + bs.length := by
  rw [Plain.byteArray, List.length_append, toLE_length]

/-- each entry has its length at least -/
theorem length_laid (vs : List (Option Bytes)) : 4 * vs.length ≤ (laid vs).length := by
  induction vs with
  | nil => exact Nat.le_refl 0
  | cons v vs ih =>
    rw [laid_cons, List.length_append, length_byteArray, List.length_cons]
    omega

/-- the entries `vs` are left of a page -/
structure Has (p : DeltaPage) (vs : List (Option Bytes)) : Prop where
  rest : p.values.cursor.rest = laid vs
  left : p.left = (laid vs).length
  fits : ∀ bs, some bs ∈ vs → bs ≠ [] ∧ bs.length < 2 ^ 32

/-- the next entry -/
theorem next_has {p : DeltaPage} {v : Option Bytes} {vs : List (Option Bytes)}
    (h : Has p (v :: vs)) : ∃ p', next p =
      (.ok (.byteArray (Plain.byteArray (v.getD []))), p') ∧ Has p' vs := by
  have hlen : (v.getD []).length < 2 ^ 32 := by
    cases v with
    | none => decide
    | some bs => exact (h.fits bs List.mem_cons_self).2
  have hp : p.values = ⟨⟨p.values.cursor.before, Plain.byteArray (v.getD []) ++ laid vs⟩,
      p.values.type, p.values.width, p.values.bits, p.values.bitOffset⟩ := by
    rw [← laid_cons, ← h.rest]
  have hnext := @Plain.Decoder.byteArray_append p.values.cursor.before (laid vs) p.values.type
    p.values.width (v.getD []) hlen p.values.bits p.values.bitOffset
  rw [← hp] at hnext
  refine ⟨_, by rw [next, hnext], rfl, ?_, fun bs hbs => h.fits bs (List.mem_cons_of_mem v hbs)⟩
  show p.left - (Plain.byteArray (v.getD [])).length = _
  rw [h.left, laid_cons, List.length_append, Nat.add_sub_cancel_left]

section
variable {room taken : Nat} {p p' : DeltaPage} {b : Batch} {v : Value}

/-- the page is at its end -/
theorem takeRun_stop (hleft : p.left < terminatorSize) :
    takeRun (room + 1) taken (p, b) = (.ok taken, (p, b)) := by
  rw [takeRun, Step.state_bind]
  dsimp only
  rw [if_pos hleft]
  rfl

/-- the next value cannot be read -/
theorem takeRun_unread {x : Failure} (hleft : ¬ p.left < terminatorSize)
    (hnext : next p = (.error x, p')) : takeRun (room + 1) taken (p, b) = (.error x, (p', b)) := by
  rw [takeRun, Step.state_bind]
  dsimp only
  rw [if_neg hleft, Step.bind_error (Step.onFst_error hnext b)]

/-- the run is at its end -/
theorem takeRun_end (hleft : ¬ p.left < terminatorSize) (hnext : next p = (.ok v, p'))
    (hv : v.byteLen = terminatorSize) :
    takeRun (room + 1) taken (p, b) = (.ok (taken + v.byteLen), (p', b)) := by
  rw [takeRun, Step.state_bind]
  dsimp only
  rw [if_neg hleft, Step.bind_ok (Step.onFst_ok hnext b), if_pos hv]
  rfl

/-- the run goes on -/
theorem takeRun_next (hleft : ¬ p.left < terminatorSize) (hnext : next p = (.ok v, p'))
    (hv : ¬ v.byteLen = terminatorSize) (hroom : b.values.length < batchSize) :
    takeRun (room + 1) taken (p, b) = takeRun room (taken + v.byteLen) (p', b.putAll [v]) := by
  have hpush : (Batch.push v).onSnd (p', b) = (.ok (), (p', b.putAll [v])) :=
    Step.onSnd_ok (Batch.push_ok hroom) p'
  rw [takeRun, Step.state_bind]
  dsimp only
  rw [if_neg hleft, Step.bind_ok (Step.onFst_ok hnext b), if_neg hv, Step.bind_ok hpush]

end

/-- a batch takes the rest of a run -/
theorem takeRun_has (room : Nat) : ∀ (taken : Nat) {p : DeltaPage} {vs : List (Option Bytes)}
    (b : Batch), Has p vs → b.values.length + room ≤ batchSize →
    ∃ n p', takeRun room taken (p, b) = (.ok n, (p', b.putAll ((takeBatch room vs).1.map
      fun bs => .byteArray (Plain.byteArray bs)))) ∧ Has p' (takeBatch room vs).2 := by
  induction room with
  | zero =>
    intro taken p vs b h _
    refine ⟨taken, p, ?_, h⟩
    show _ = (_, (p, b.putAll []))
    rw [Batch.putAll_nil]
    rfl
  | succ room ih =>
    intro taken p vs b h hroom
    match vs with
    | [] =>
      have hleft : p.left < terminatorSize := by
        rw [h.left]
        decide
      refine ⟨taken, p, ?_, h⟩
      show _ = (_, (p, b.putAll []))
      rw [takeRun_stop hleft, Batch.putAll_nil]
    | v :: vs =>
      have hleft : ¬ p.left < terminatorSize := by
        rw [h.left, laid_cons, List.length_append, length_byteArray]
        show ¬ _ < 4
        omega
      obtain ⟨p', hnext, hhas⟩ := next_has h
      cases v with
      | none =>
        refine ⟨taken + (Value.byteArray (Plain.byteArray [])).byteLen, p', ?_, hhas⟩
        show _ = (_, (p', b.putAll []))
        rw [Batch.putAll_nil]
        exact takeRun_end hleft hnext rfl
      | some bs =>
        have hne : ¬ (Value.byteArray (Plain.byteArray bs)).byteLen = terminatorSize := by
          have hpos := List.length_pos_iff.mpr (h.fits bs List.mem_cons_self).1
          show ¬ (Plain.byteArray bs).length = 4
          rw [length_byteArray]
          omega
        have hlen : (b.putAll [.byteArray (Plain.byteArray bs)]).values.length =
            b.values.length + 1 := List.length_append
        obtain ⟨n, q, hrun, hq⟩ := ih (taken + (Value.byteArray (Plain.byteArray bs)).byteLen)
          (b.putAll [.byteArray (Plain.byteArray bs)]) hhas (by omega)
        refine ⟨n, q, (takeRun_next hleft hnext hne (by omega)).trans (hrun.trans ?_), hq⟩
        rw [Batch.putAll_cons]
        rfl

/-! ## reading to the end -/

/-- what reading a delta reader to its end gives -/
abbrev Yields : DeltaReader → List (Option Datum) → Prop := Columnar.Yields read progress

theorem read_exhausted {r : DeltaReader} (h : r.progress = .exhausted) (v : Batch) :
    read (r, v) = (.ok 0, (r, {})) := by
  rw [read, Step.state_bind]
  dsimp only
  rw [h, if_neg (by decide), Step.put_bind]
  rfl

/-- a reader with a page takes a run off it -/
theorem read_page {r : DeltaReader} {p : DeltaPage} (hready : r.progress = .ready)
    (hpage : r.page = some p) (v : Batch) : read (r, v) = (do
      let taken ← onPage p (takeRun batchSize 0)
      Step.update settle
      pure taken : Step (DeltaReader × Batch) Failure Nat) (r, {}) := by
  rw [read, Step.state_bind]
  dsimp only
  rw [hready, if_neg (by decide), Step.put_bind, hpage]

section
variable {r : DeltaReader} {p q : DeltaPage} {b : Batch}

/-- a run that is taken is the batch -/
theorem read_taken {n : Nat} (hready : r.progress = .ready) (hpage : r.page = some p)
    (h : takeRun batchSize 0 (p, {}) = (.ok n, (q, b))) (v : Batch) :
    read (r, v) = (.ok n, settle ({ r with page := some q }, b)) := by
  have hrun : onPage p (takeRun batchSize 0) (r, {}) =
      (.ok n, ({ r with page := some q }, b)) := by
    rw [onPage, Step.on_apply, h]
  rw [read_page hready hpage, Step.bind_ok hrun]
  rfl

/-- a run that cannot be taken leaves the page where the failure was met -/
theorem read_unread {x : Failure} (hready : r.progress = .ready) (hpage : r.page = some p)
    (h : takeRun batchSize 0 (p, {}) = (.error x, (q, b))) (v : Batch) :
    read (r, v) = (.error x, ({ r with page := some q }, b)) := by
  have hrun : onPage p (takeRun batchSize 0) (r, {}) =
      (.error x, ({ r with page := some q }, b)) := by
    rw [onPage, Step.on_apply, h]
  rw [read_page hready hpage, Step.bind_error hrun]

end

/-- a reader without a page has nothing to read -/
theorem read_none {r : DeltaReader} (hready : r.progress = .ready) (hpage : r.page = none)
    (v : Batch) : read (r, v) = (.ok 0, ({ r with progress := .exhausted }, {})) := by
  rw [read, Step.state_bind]
  dsimp only
  rw [hready, if_neg (by decide), Step.put_bind, hpage]
  rfl

/-- a batch of values without empty slots -/
theorem holds_values (vs : List Value) : (⟨vs, vs.length, 0⟩ : Batch).Holds (vs.map some) := by
  refine ⟨(List.length_map _).symm, ?_, fun i => ?_⟩
  · rw [List.filterMap_map]
    exact List.filterMap_some.symm
  · rw [Nat.zero_testBit, eq_comm, decide_eq_false_iff_not, List.getElem?_map]
    cases vs[i]? <;> exact fun h => nomatch h

theorem slots_values (vs : List Value) : (⟨vs, vs.length, 0⟩ : Batch).slots = vs.map some :=
  (holds_values vs).slots_eq

theorem settle_putAll (r : DeltaReader) (vs : List Value) : settle (r, ({} : Batch).putAll vs) =
    ({ r with progress := if vs.isEmpty then .exhausted else r.progress },
      ⟨vs, vs.length, 0⟩) := by
  have hcover : (({} : Batch).putAll vs).cover (({} : Batch).putAll vs).values.length 0 =
      ⟨vs, vs.length, 0⟩ := by
    simp [Batch.putAll, Batch.cover]
  unfold settle
  dsimp only
  rw [hcover]
  cases vs <;> rfl

/-- one read is a batch, and an empty one is the end -/
theorem read_has {r : DeltaReader} {p : DeltaPage} {vs : List (Option Bytes)}
    (hready : r.progress = .ready) (hpage : r.page = some p) (h : Has p vs) (v : Batch) :
    ∃ n r' b, read (r, v) = (.ok n, (r', b)) ∧
      b.slots = (takeBatch batchSize vs).1.map (fun bs => some (.byteArray (Plain.byteArray bs))) ∧
      (∃ p', r'.page = some p' ∧ Has p' (takeBatch batchSize vs).2) ∧
      r'.progress = if (takeBatch batchSize vs).1.isEmpty then .exhausted else .ready := by
  obtain ⟨n, p', hrun, hhas⟩ := takeRun_has batchSize 0 {} h (Nat.le_refl _)
  rw [read_taken hready hpage hrun]
  refine ⟨n, _, _, congrArg (Prod.mk (Except.ok n)) (settle_putAll { r with page := some p' } _),
    ?_, ⟨p', rfl, hhas⟩, ?_⟩
  · rw [slots_values, List.map_map]
    rfl
  · show (if ((takeBatch batchSize vs).1.map _).isEmpty then _ else r.progress) = _
    rw [hready]
    cases (takeBatch batchSize vs).1 <;> rfl

theorem datum_byteArray (vs : List Bytes) :
    (vs.map fun bs => some (Value.byteArray (Plain.byteArray bs))).map (·.map Value.datum) =
      (vs.map fun bs => some (Datum.byteArray bs)).map (·.map .ok) := by
  rw [List.map_map, List.map_map]
  exact List.map_congr_left fun bs _ => congrArg some (Datum.ofPlain_plain (.byteArray bs))

/-- a page yields what is delivered of its entries -/
theorem yields_of_has {r : DeltaReader} {p : DeltaPage} {vs : List (Option Bytes)}
    (hready : r.progress = .ready) (hpage : r.page = some p) (h : Has p vs) :
    r.Yields ((delivered 0 vs).map fun bs => some (.byteArray bs)) := by
  -- a read that does not find the end takes entries off the page
  induction hn : vs.length using Nat.strongRecOn generalizing r p vs with
  | _ n ih =>
    have hlen := (length_takeBatch batchSize vs).2
    rw [delivered_takeBatch batchSize 0 vs (Nat.zero_add _), Nat.zero_add]
    cases hbs : (takeBatch batchSize vs).1 with
    | nil =>
      apply Columnar.Yields.last
      intro v
      obtain ⟨m, r', b, hread, hslots, -, hprogress⟩ := read_has hready hpage h v
      rw [hbs] at hslots hprogress
      exact ⟨m, r', b, hread, hprogress, by rw [hslots]; rfl⟩
    | cons bs rest =>
      rw [hbs, List.length_cons] at hlen
      rw [if_neg (by rw [List.length_cons]; exact Nat.succ_ne_zero _), List.map_append]
      apply Columnar.Yields.more
      intro v
      obtain ⟨m, r', b, hread, hslots, ⟨p', hpage', hhas⟩, hprogress⟩ := read_has hready hpage h v
      rw [hbs] at hslots hprogress
      refine ⟨m, r', b, hread, ?_, by rw [hslots, datum_byteArray],
        ih (takeBatch batchSize vs).2.length (by omega) hprogress hpage' hhas rfl⟩
      rw [hprogress]
      exact fun h => nomatch h

/-- a reader without a page yields nothing -/
theorem yields_of_none {r : DeltaReader} (hready : r.progress = .ready) (hpage : r.page = none) :
    r.Yields [] := by
  exact Columnar.Yields.last fun v => ⟨0, _, {}, read_none hready hpage v, rfl, rfl⟩

end DeltaReader

/-! ## a chunk that was written -/

namespace DeltaWriter

open DeltaReader

variable {spec : ColumnSpec} {values : List (Option Bytes)} {start : Nat}
  {c : Written ColumnChunk}

theorem entry_ok {v : Option Bytes} {bs : Bytes} (h : entry spec v = .ok bs) :
    bs = Plain.byteArray (v.getD []) ∧ ∀ payload ∈ v, payload ≠ [] ∧ payload.length < 2 ^ 32 := by
  cases v with
  | none =>
    cases h
    exact ⟨rfl, fun _ h => nomatch h⟩
  | some payload =>
    rw [entry] at h
    split at h
    · cases h
    · rename_i hne
      split at h
      · cases h
      · rename_i hlen
        cases h
        exact ⟨rfl, forall_mem_some ⟨hne, Nat.not_le.mp hlen⟩⟩

/-- the entries of a page: the slots, and an empty one where the last run is not ended.  As each run
is ended, the values are fewer than the entries -/
theorem exists_laid {entries : List Bytes} (h : values.mapM (entry spec) = .ok entries) :
    ∃ vs, entries.flatten ++ lastTerminator values = laid vs ∧
      delivered 0 vs = delivered 0 values ∧
      (∀ bs, some bs ∈ vs → bs ≠ [] ∧ bs.length < 2 ^ 32) ∧ values.length ≤ vs.length ∧
      (values ≠ [] → values.countP Option.isSome < vs.length) := by
  have hentries : entries.flatten = laid values := by
    rw [Except.eq_map_of_mapM h fun v _ bs hbs => (entry_ok hbs).1, laid, List.flatMap_def]
  have hfits : ∀ bs, some bs ∈ values → bs ≠ [] ∧ bs.length < 2 ^ 32 := by
    intro bs hbs
    have hmem := List.mem_map_of_mem (f := entry spec) hbs
    rw [Except.mapM_eq_ok.mp h] at hmem
    obtain ⟨e, -, he⟩ := List.mem_map.mp hmem
    exact (entry_ok he.symm).2 bs rfl
  have hcount : values.countP Option.isSome ≤ values.length := List.countP_le_length
  rw [hentries, lastTerminator]
  split
  · refine ⟨values ++ [none], ?_, delivered_end values 0, fun bs hbs => ?_, ?_, fun _ => ?_⟩
    · rw [laid, laid, List.flatMap_append, List.flatMap_singleton]
      rfl
    · exact hfits bs ((List.mem_append.mp hbs).resolve_right fun h => by simp at h)
    · rw [List.length_append]
      exact Nat.le_add_right _ _
    · rw [List.length_append, List.length_singleton]
      exact Nat.lt_succ_of_le hcount
  · rename_i hlast
    refine ⟨values, List.append_nil _, rfl, hfits, Nat.le_refl _, fun hne => ?_⟩
    refine Nat.lt_of_le_of_ne hcount fun hall => ?_
    have hended := List.countP_eq_length.mp hall _ (List.getLast_mem hne)
    obtain ⟨bs, hbs⟩ := Option.isSome_iff_exists.mp hended
    exact hlast bs ((List.getLast?_eq_some_getLast hne).trans (congrArg some hbs))

/-- the record of a chunk describes it -/
theorem chunk_record (htype : spec.type = .byteArray) (h : chunk start spec values = .ok c) :
    ∃ m, c.record = ⟨none, 0, some m⟩ ∧
      m.Describes spec (values.countP Option.isSome) start c.bytes.length true ∧
      ∀ o, TextFits o spec.name → m.Within o := by
  obtain ⟨entries, -, h₁⟩ := Except.bind_eq_ok.mp h
  obtain ⟨bytes, -, h₂⟩ := Except.bind_eq_ok.mp h₁
  cases h₂
  exact ⟨_, rfl, ⟨htype.symm, rfl, rfl, rfl, rfl, rfl, fun h => nomatch h⟩, fun o hname =>
    ColumnMetaData.within_of_name (Nat.le_of_ble_eq_true rfl) rfl rfl (fun _ h => nomatch h) hname⟩

/-- a chunk is one page of entries, which are no more than fit the page, and more than its values -/
theorem chunk_page (h : chunk start spec values = .ok c) :
    values.countP Option.isSome < 2 ^ 31 ∧ ∃ vs, (∀ o, Cursor.Takes (DictionaryPage.read o) c.bytes
        ⟨values.countP Option.isSome, laid vs⟩) ∧
      delivered 0 vs = delivered 0 values ∧
      (∀ bs, some bs ∈ vs → bs ≠ [] ∧ bs.length < 2 ^ 32) ∧
      (0 < values.countP Option.isSome →
        0 < c.bytes.length ∧ values.countP Option.isSome < vs.length) := by
  obtain ⟨entries, hentries, h₁⟩ := Except.bind_eq_ok.mp h
  obtain ⟨bytes, hwrite, h₂⟩ := Except.bind_eq_ok.mp h₁
  cases h₂
  obtain ⟨vs, hlaid, hdelivered, hfits, hlen, hmore⟩ := exists_laid hentries
  rw [hlaid] at hwrite
  obtain ⟨hlt, hbody⟩ := length_writePage hwrite
  have hlaidlen := length_laid vs
  have hcountle : values.countP Option.isSome ≤ values.length := List.countP_le_length
  have hcount : values.countP Option.isSome < 2 ^ 31 := by omega
  refine ⟨hcount, vs, fun o => takes_writePage_dictionary o hcount rfl (Or.inl rfl) hwrite,
    hdelivered, hfits, fun hpos => ⟨?_, hmore (List.ne_nil_of_length_pos (by omega))⟩⟩
  show 0 < bytes.length
  omega

end DeltaWriter

namespace DeltaReader

theorem filterMap_of_countP {vs : List (Option Bytes)} (h : vs.countP Option.isSome = 0) :
    vs.filterMap id = [] := by
  apply List.filterMap_eq_nil_iff.mpr
  intro v hv
  have hnone := List.countP_eq_zero.mp h v hv
  rwa [Option.not_isSome_iff_eq_none] at hnone

/-- the page of a chunk that was written -/
theorem openPage_has {b : Binding} {buffer bytes : Bytes} {o : Options} {n : Nat}
    {vs : List (Option Bytes)} (hvalues : 0 < b.numValues) (hsize : 0 < b.size)
    (hbytes : b.bytes buffer = bytes)
    (hpage : Cursor.Takes (DictionaryPage.read o) bytes ⟨n, laid vs⟩)
    (hfits : ∀ bs, some bs ∈ vs → bs ≠ [] ∧ bs.length < 2 ^ 32) :
    ∃ p, openPage b buffer o = .ok (some p) ∧ Has p vs := by
  refine ⟨⟨{ cursor := .ofBytes (laid vs), type := .byteArray, width := 0 }, (laid vs).length⟩, ?_,
    rfl, rfl, hfits⟩
  have hread := hpage [] []
  rw [List.append_nil] at hread
  have hread' : DeltaPage.read o (.ofBytes bytes) = _ := Step.bind_ok hread _
  rw [openPage, if_neg (by omega), hbytes, Step.answer, hread']
  rfl

/-- a chunk that is described can be bound -/
theorem bind_describes {m : ColumnMetaData} {spec : ColumnSpec} {numValues start size room : Nat}
    (hm : m.Describes spec numValues start size true) (htype : spec.type = .byteArray)
    (hcount : numValues < 2 ^ 63) (hend : start + size ≤ room) (hroom : room < 2 ^ 63)
    (column : Nat) : bind column spec.leaf ⟨none, 0, some m⟩ room =
      .ok (.ofSpec column spec numValues start size true) := by
  have hbind := Binding.ofChunk_describes hm (by rw [htype]; exact fun h => nomatch h)
    (by rw [htype]; exact fun h => nomatch h) hcount hend hroom column
  rw [bind, hbind]
  show (if spec.type ≠ .byteArray then _ else _) = _
  rw [if_neg (fun h => h htype)]
  rfl

/-- a reader that was prepared holds the page of its chunk -/
theorem prepare_ok {r : DeltaReader} {column : Nat} {schema : SchemaElement} {chunk : ColumnChunk}
    {b : Binding} {page : Option DeltaPage}
    (hbind : bind column schema chunk r.buffer.length = .ok b)
    (hopen : openPage b r.buffer r.options = .ok page) :
    prepare column schema chunk r = (.ok (), { ofBuffer r.buffer r.options with
      progress := .ready, binding := some b, page }) := by
  apply Step.within_ok
  refine (Step.update_bind _ _ _).trans ?_
  refine (Step.state_bind _ _).trans ?_
  refine (Step.bind_ok (Step.liftM_ok hbind _) _).trans ?_
  exact Step.bind_ok (Step.ofExcept_ok hopen _) _

/-- a chunk that was written can be prepared wherever it lies, and yields what is delivered of
its entries -/
theorem prepare_chunk {spec : ColumnSpec} {values : List (Option Bytes)} {c : Written ColumnChunk}
    {r : DeltaReader} {front behind : Bytes} (column : Nat) (htype : spec.type = .byteArray)
    (h : DeltaWriter.chunk front.length spec values = .ok c)
    (hbuffer : r.buffer = front ++ c.bytes ++ behind) (hroom : r.buffer.length < 2 ^ 63) :
    ∃ r', prepare column spec.leaf c.record r = (.ok (), r') ∧
      r'.Yields ((delivered 0 values).map fun bs => some (.byteArray bs)) := by
  obtain ⟨m, hrecord, hm, -⟩ := DeltaWriter.chunk_record htype h
  obtain ⟨hcount, vs, hpage, hdelivered, hfits, hpos⟩ := DeltaWriter.chunk_page h
  have hend : front.length + c.bytes.length ≤ r.buffer.length := by
    rw [hbuffer, List.length_append, List.length_append]
    exact Nat.le_add_right _ _
  have hbind := bind_describes hm htype (by omega) hend hroom column
  rw [← hrecord] at hbind
  by_cases hzero : values.countP Option.isSome = 0
  · refine ⟨_, prepare_ok hbind (if_pos (Or.inl hzero)), ?_⟩
    have hnone := delivered_isPrefix values 0
    rw [filterMap_of_countP hzero, List.prefix_nil] at hnone
    rw [hnone]
    exact yields_of_none rfl rfl
  · have hpos' := Nat.pos_of_ne_zero hzero
    have hbytes : (Binding.ofSpec column spec (values.countP Option.isSome) front.length
        c.bytes.length true).bytes r.buffer = c.bytes := by
      rw [hbuffer]
      exact Binding.bytes_append rfl rfl
    obtain ⟨p, hopen, hhas⟩ := openPage_has hpos' (hpos hpos').1 hbytes (hpage r.options) hfits
    refine ⟨_, prepare_ok hbind hopen, ?_⟩
    rw [← hdelivered]
    exact yields_of_has rfl rfl hhas

end DeltaReader

end Columnar
