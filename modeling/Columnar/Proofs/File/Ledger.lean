import Mathlib.Data.List.Perm.Basic
import Columnar.Proofs.File.RoundTrip

/-!
# The slots of one allocator

Slots are taken from an allocator one by one and by files that are opened, and given back in any
order: one at a time, by a file that cannot be opened, and by a file that is closed.  Whatever is
done in whatever order, each slot of each pool is in one place.

* `Ledger`                    an allocator, the slots that are held on their own, and the readers
                              that are open;
* `Event`, `Ledger.run`       what is done with an allocator;
* `Ledger.Balanced l`         each slot is in one place, and each reader has its own;
* `Ledger.conserves_slots`    the slots after any events.
-/

namespace Columnar

/-- the records of a kind in metadata, of the kinds that are bounded -/
def Footer.records (m : FileMetaData) : RecordKind → Nat
  | .rowGroup => m.rowGroups.length
  | .columnChunk | .columnMetaData => (m.rowGroups.map fun g => g.columns.length).sum
  | _ => 0

theorem Footer.count_kinds_eq (m : FileMetaData) (kind : RecordKind) :
    (Footer.kinds m).count kind = Footer.records m kind := by
  refine (Footer.count_kinds kind m.rowGroups).trans ?_
  cases kind <;> simp [records]

/-! ## calls of a reader -/

namespace FileReader

open Step

/-- a file is opened with a slot for each record that is bounded; a file that is not leaves the
slots where they were -/
theorem prepare_moves (buffer : Bytes) (o : Options) (p : Pools) :
    Ends (fun r p' => p.Moves [] p' r.slots ∧ r.slots.map Slot.kind = Footer.kinds r.metadata)
      (fun _ p' => p.Moves [] p' []) (prepare buffer o p) := by
  refine ends_bind (A := fun _ p' => p' = p) (ends_ofExcept (fun _ _ => rfl) fun _ _ => .refl p [])
    fun metadata p₁ hp₁ => ?_
  subst hp₁
  refine ends_bind (A := fun _ p' => p' = p₁) ?_ fun _ p₂ hp₂ => ?_
  · exact ends_mapError (E := fun _ p' => p₁.Moves [] p' [])
      (ends_ofExcept (fun _ _ => rfl) fun _ _ => .refl p₁ []) fun _ _ h => h
  subst hp₂
  refine ends_bind (ends_mapError (Pools.acquireAll_moves (Footer.kinds metadata) [] p₂)
    fun _ _ h => h) fun slots p₃ h => ?_
  exact ⟨h.1, h.2⟩

/-- the slots and the metadata of a reader are there for as long as it is open -/
theorem Call.run_keeps (r : FileReader) (c : Call) :
    (c.run r).slots = r.slots ∧ (c.run r).metadata = r.metadata := by
  let I (t : FileReader) : Prop := t.slots = r.slots ∧ t.metadata = r.metadata
  have hr : I r := ⟨rfl, rfl⟩
  have hprepare (column : Nat) : Maintains I Any (FileReader.prepareColumn column) := by
    refine maintains_bind maintains_state fun t _ => ?_
    refine maintains_bind (P := Any) (maintains_lift fun _ _ => trivial) fun _ _ => ?_
    dsimp only
    split
    · exact maintains_fail _
    · refine maintains_bind (P := Any) (maintains_ofExcept fun _ _ => trivial) fun _ _ => ?_
      exact maintains_on fun _ _ h => h
  have hdelta : Maintains I Any FileReader.prepareDelta := by
    refine maintains_bind maintains_state fun t _ => ?_
    refine maintains_bind (P := Any) (maintains_lift fun _ _ => trivial) fun _ _ => ?_
    dsimp only
    split
    · exact maintains_fail _
    · refine maintains_bind (P := Any) (maintains_ofExcept fun _ _ => trivial) fun _ _ => ?_
      exact maintains_on fun _ _ h => h
  cases c with
  | nextRowGroup =>
    show I (FileReader.nextRowGroup r).2
    rw [FileReader.nextRowGroup, Step.state_bind]
    split
    · exact hr
    · exact hr
  | prepareColumn column => exact (hprepare column r hr).1
  | prepareDelta => exact (hdelta r hr).1
  | readColumn into => exact hr
  | readDelta into => exact hr

end FileReader

/-! ## events -/

/-- an allocator, the slots that are held on their own, and the readers that are open -/
structure Ledger where
  pools : Pools
  held : List Slot := []
  readers : List FileReader := []

/-- what is done with an allocator -/
inductive Event where
  | acquire (kind : RecordKind)
  /-- one of the slots that are held on their own is given back -/
  | drop (slot : Nat)
  | prepare (buffer : Bytes) (o : Options)
  | call (reader : Nat) (c : FileReader.Call)
  | close (reader : Nat)

namespace Ledger

/-- the slots that are not free -/
def slots (l : Ledger) : List Slot := l.held ++ l.readers.flatMap FileReader.slots

/-- the indices of a kind that are not free -/
def taken (l : Ledger) (kind : RecordKind) : List Nat := Slot.indices kind l.slots

/-- the ledger after an event; what is given back is held no more, and what cannot be taken is
not held -/
def step (l : Ledger) : Event → Ledger
  | .acquire kind =>
    match Pools.acquire kind l.pools with
    | (.ok s, pools) => { l with pools, held := s :: l.held }
    | (.error _, pools) => { l with pools }
  | .drop i =>
    match l.held[i]? with
    | some s => { l with pools := l.pools.release s, held := l.held.eraseIdx i }
    | none => l
  | .prepare buffer o =>
    match FileReader.prepare buffer o l.pools with
    | (.ok r, pools) => { l with pools, readers := r :: l.readers }
    | (.error _, pools) => { l with pools }
  | .call i c => { l with readers := l.readers.modify i fun r => c.run r }
  | .close i =>
    match l.readers[i]? with
    | some r => { l with pools := r.close l.pools, readers := l.readers.eraseIdx i }
    | none => l

/-- the ledger after events, one after the other -/
def run (l : Ledger) (events : List Event) : Ledger := events.foldl step l

/-! ## what an event keeps -/

/-- slots were moved, and none was made or lost -/
def Moves (l l' : Ledger) : Prop := l.pools.Moves l.slots l'.pools l'.slots

theorem slots_modify (readers : List FileReader) (i : Nat) (c : FileReader.Call) :
    (readers.modify i fun r => c.run r).flatMap FileReader.slots =
      readers.flatMap FileReader.slots := by
  induction readers generalizing i with
  | nil => rw [List.modify_nil]
  | cons r readers ih =>
    cases i with
    | zero =>
      rw [List.modify_zero_cons, List.flatMap_cons, List.flatMap_cons, (c.run_keeps r).1]
    | succ i => rw [List.modify_succ_cons, List.flatMap_cons, List.flatMap_cons, ih]

theorem step_moves (l : Ledger) (e : Event) : l.Moves (l.step e) := by
  cases e with
  | acquire kind =>
    rw [step]
    rcases h : Pools.acquire kind l.pools with ⟨e | s, pools⟩
    · obtain rfl := Pools.acquire_error h
      exact .refl _ _
    · exact (Pools.acquire_moves h).2.frame l.slots
  | drop i =>
    rw [step]
    split
    · rename_i s hs
      obtain ⟨hi, rfl⟩ := List.getElem?_eq_some_iff.mp hs
      have hheld := List.getElem_cons_eraseIdx_perm hi
      exact ((Pools.release_moves l.pools l.held[i]).frame _).perm (hheld.append_right _) (.refl _)
    · exact .refl _ _
  | prepare buffer o =>
    have hmoves := FileReader.prepare_moves buffer o l.pools
    rw [step]
    rcases h : FileReader.prepare buffer o l.pools with ⟨e | r, pools⟩
    · rw [h] at hmoves
      exact hmoves.frame l.slots
    · rw [h] at hmoves
      refine (hmoves.1.frame l.slots).perm (.refl _) ?_
      exact List.perm_append_comm_assoc r.slots l.held (l.readers.flatMap FileReader.slots)
  | call i c =>
    have hslots : (l.step (.call i c)).slots = l.slots := congrArg (l.held ++ ·) (slots_modify ..)
    show l.pools.Moves l.slots l.pools _
    rw [hslots]
    exact .refl _ _
  | close i =>
    rw [step]
    split
    · rename_i r hr
      obtain ⟨hi, rfl⟩ := List.getElem?_eq_some_iff.mp hr
      have hreaders := (List.getElem_cons_eraseIdx_perm hi).flatMap_right FileReader.slots
      refine ((Pools.releaseAll_moves l.pools l.readers[i].slots).frame
        (l.held ++ (l.readers.eraseIdx i).flatMap FileReader.slots)).perm ?_ (.refl _)
      refine (List.perm_append_comm_assoc _ _ _).trans ?_
      exact hreaders.append_left l.held
    · exact .refl _ _

/-- each slot is in one place: free, held on its own, or with one reader, which has one for each
record of its metadata -/
structure Balanced (l : Ledger) : Prop where
  slots : ∀ kind ∈ Pools.kinds,
    (l.pools.free kind ++ l.taken kind).Perm (List.range (l.pools.capacity kind))
  readers : ∀ r ∈ l.readers, r.slots.map Slot.kind = Footer.kinds r.metadata

namespace Balanced

variable {l : Ledger}

theorem step (h : l.Balanced) (e : Event) : (l.step e).Balanced := by
  have hmoves := l.step_moves e
  refine ⟨fun kind hkind => ?_, ?_⟩
  · rw [hmoves.capacity kind]
    exact (hmoves.slots kind hkind).trans (h.slots kind hkind)
  · cases e with
    | acquire kind =>
      rw [Ledger.step]
      rcases Pools.acquire kind l.pools with ⟨e | s, pools⟩ <;> exact h.readers
    | drop i =>
      rw [Ledger.step]
      split <;> exact h.readers
    | prepare buffer o =>
      have hprepare := FileReader.prepare_moves buffer o l.pools
      rw [Ledger.step]
      rcases hrun : FileReader.prepare buffer o l.pools with ⟨e | r, pools⟩
      · exact h.readers
      · rw [hrun] at hprepare
        exact List.forall_mem_cons.mpr ⟨hprepare.2, h.readers⟩
    | call i c =>
      intro r hr
      replace hr : r ∈ l.readers.modify i fun r => c.run r := hr
      obtain ⟨j, hj⟩ := List.getElem?_of_mem hr
      rw [List.getElem?_modify] at hj
      obtain ⟨r', hr', rfl⟩ := Option.map_eq_some_iff.mp hj
      have hmem := h.readers r' (List.mem_of_getElem? hr')
      split
      · rw [(c.run_keeps r').1, (c.run_keeps r').2]
        exact hmem
      · exact hmem
    | close i =>
      rw [Ledger.step]
      split
      · exact fun r hr => h.readers r (List.mem_of_mem_eraseIdx hr)
      · exact h.readers

theorem run (h : l.Balanced) (events : List Event) : (l.run events).Balanced := by
  induction events generalizing l with
  | nil => exact h
  | cons e events ih => exact ih (h.step e)

end Balanced

theorem capacity_run (l : Ledger) (events : List Event) (kind : RecordKind) :
    (l.run events).pools.capacity kind = l.pools.capacity kind := by
  induction events generalizing l with
  | nil => rfl
  | cons e events ih => exact (ih (l.step e)).trans ((l.step_moves e).capacity kind)

/-- at first every slot is free -/
theorem balanced_ofLimits {limits : Limits} {p : Pools} (h : Pools.ofLimits limits = .ok p) :
    Balanced { pools := p } := by
  obtain ⟨groups, -, h₁⟩ := Except.bind_eq_ok.mp h
  obtain ⟨chunks, -, h₂⟩ := Except.bind_eq_ok.mp h₁
  cases h₂
  refine ⟨fun kind hkind => ?_, List.forall_mem_nil _⟩
  have hfree : (Pools.free ⟨.ofCapacity groups, .ofCapacity chunks, .ofCapacity chunks⟩ kind) =
      List.range (Pools.capacity ⟨.ofCapacity groups, .ofCapacity chunks, .ofCapacity chunks⟩
        kind) := by
    cases kind <;> rfl
  rw [hfree]
  exact (List.append_nil _).symm ▸ .refl _

namespace Balanced

variable {l : Ledger} {kind : RecordKind}

/-- an index of a kind is free or held, and not both -/
theorem placed (h : l.Balanced) (hkind : kind ∈ Pools.kinds) :
    (l.pools.free kind).Disjoint (l.taken kind) ∧ (l.pools.free kind).Nodup ∧
      (l.taken kind).Nodup ∧
      ∀ i, i ∈ l.pools.free kind ∨ i ∈ l.taken kind ↔ i < l.pools.capacity kind := by
  have hperm := h.slots kind hkind
  obtain ⟨hfree, htaken, hdisjoint⟩ :=
    List.nodup_append'.mp (hperm.nodup_iff.mpr List.nodup_range)
  refine ⟨hdisjoint, hfree, htaken, fun i => ?_⟩
  rw [← List.mem_append, hperm.mem_iff, List.mem_range]

/-- a slot is taken where one is left, and it is none that is held -/
theorem acquire (h : l.Balanced) (kind : RecordKind) :
    ((∃ s, (Pools.acquire kind l.pools).1 = .ok s) ↔
      kind ∈ Pools.kinds ∧ ∃ i < l.pools.capacity kind, i ∉ l.taken kind) ∧
    ∀ s, (Pools.acquire kind l.pools).1 = .ok s →
      s.kind = kind ∧ s.index < l.pools.capacity kind ∧ s.index ∉ l.taken kind := by
  rcases Pools.acquire_cases kind l.pools with ⟨i, fs, p', hfree, hok, -⟩ | ⟨hfree, e, herror⟩
  · have hkind : kind ∈ Pools.kinds := by
      rw [Pools.mem_kinds (p := l.pools)]
      rcases hpool : l.pools.pool? kind with _ | q
      · rw [Pools.free, hpool] at hfree
        cases hfree
      · rfl
    obtain ⟨hdisjoint, -, -, hmem⟩ := h.placed hkind
    have hi : i ∈ l.pools.free kind := by
      rw [hfree]
      exact List.mem_cons_self
    have hlt : i < l.pools.capacity kind := (hmem i).mp (.inl hi)
    rw [hok]
    refine ⟨⟨fun _ => ⟨hkind, i, hlt, hdisjoint hi⟩, fun _ => ⟨_, rfl⟩⟩, fun s hs => ?_⟩
    cases hs
    exact ⟨rfl, hlt, hdisjoint hi⟩
  · rw [herror]
    refine ⟨⟨?_, ?_⟩, ?_⟩
    · rintro ⟨_, hs⟩
      cases hs
    · rintro ⟨hkind, i, hlt, hi⟩
      obtain ⟨-, -, -, hmem⟩ := h.placed hkind
      rcases (hmem i).mpr hlt with hin | hin
      · rw [hfree] at hin
        cases hin
      · exact absurd hin hi
    · rintro _ hs
      cases hs

/-- a reader holds a slot for each record of its metadata, and no other -/
theorem counts (h : l.Balanced) {r : FileReader} (hr : r ∈ l.readers) (kind : RecordKind) :
    (r.slots.map Slot.kind).count kind = Footer.records r.metadata kind := by
  rw [h.readers r hr, Footer.count_kinds_eq]

end Balanced

/-- whatever was done with an allocator, its slots are conserved: of each kind the free indices
and the held ones are apart, without duplicates, and all indices below the capacity; a slot is
handed out just where one is left, and never one that is held; a file that cannot be opened leaves
as many slots free as before; and an open reader holds one slot for each row group and two for each
chunk -/
theorem conserves_slots {limits : Limits} {p : Pools} (hp : Pools.ofLimits limits = .ok p)
    (events : List Event) :
    let l := run { pools := p } events
    (∀ kind ∈ Pools.kinds, l.pools.capacity kind = p.capacity kind ∧
      (l.pools.free kind).Disjoint (l.taken kind) ∧ (l.pools.free kind).Nodup ∧
      (l.taken kind).Nodup ∧
      ∀ i, i ∈ l.pools.free kind ∨ i ∈ l.taken kind ↔ i < l.pools.capacity kind) ∧
    (∀ kind, ((∃ s, (Pools.acquire kind l.pools).1 = .ok s) ↔
        kind ∈ Pools.kinds ∧ ∃ i < l.pools.capacity kind, i ∉ l.taken kind) ∧
      ∀ s, (Pools.acquire kind l.pools).1 = .ok s →
        s.kind = kind ∧ s.index < l.pools.capacity kind ∧ s.index ∉ l.taken kind) ∧
    (∀ buffer o e, (FileReader.prepare buffer o l.pools).1 = .error e →
      ∀ kind, (FileReader.prepare buffer o l.pools).2.available kind = l.pools.available kind) ∧
    ∀ r ∈ l.readers, ∀ kind,
      (r.slots.map Slot.kind).count kind = Footer.records r.metadata kind := by
  intro l
  have h : l.Balanced := (balanced_ofLimits hp).run events
  refine ⟨fun kind hkind => ⟨capacity_run _ events kind, h.placed hkind⟩, h.acquire,
    fun buffer o e he kind => ?_, fun r hr kind => h.counts hr kind⟩
  have hmoves := FileReader.prepare_moves buffer o l.pools
  rcases hrun : FileReader.prepare buffer o l.pools with ⟨e' | r, p'⟩
  · rw [hrun] at hmoves
    exact hmoves.available (.refl _) kind
  · rw [hrun] at he
    cases he

/-- a file of two chunks is refused while one of the two slots for chunks is held, and opened when
that is given back; with it no slot is left -/
theorem conserves_slots_twoColumns : ∃ bytes r, FileReader.twoColumns.finish = .ok bytes ∧
    Pools.ofLimits ⟨1, 1, 2⟩ = .ok FileReader.fewPools ∧
    let l := run { pools := FileReader.fewPools }
      [.acquire .columnChunk, .prepare bytes {}, .drop 0, .prepare bytes {}]
    l.readers = [r] ∧ Footer.records r.metadata .columnChunk = 2 ∧
      ¬ ∃ s, (Pools.acquire .columnChunk l.pools).1 = .ok s := by
  obtain ⟨bytes, hbytes, hreaders, htaken⟩ : ∃ bytes, FileReader.twoColumns.finish = .ok bytes ∧
      let l := run { pools := FileReader.fewPools }
        [.acquire .columnChunk, .prepare bytes {}, .drop 0, .prepare bytes {}]
      l.readers.map FileReader.slots = [[⟨.rowGroup, 0⟩, ⟨.columnChunk, 0⟩, ⟨.columnMetaData, 0⟩,
        ⟨.columnChunk, 1⟩, ⟨.columnMetaData, 1⟩]] ∧ l.taken .columnChunk = [0, 1] :=
    ⟨_, FileReader.finish_twoColumns, by decide +kernel +zetaReduce⟩
  have hlimits : Pools.ofLimits ⟨1, 1, 2⟩ = .ok FileReader.fewPools := by rfl
  obtain ⟨hplaced, hacquire, -, hcounts⟩ := conserves_slots hlimits
    [.acquire .columnChunk, .prepare bytes {}, .drop 0, .prepare bytes {}]
  obtain ⟨r, hr, hslots⟩ := List.map_eq_singleton_iff.mp hreaders
  have hcapacity := (hplaced .columnChunk (by decide)).1
  refine ⟨bytes, r, hbytes, hlimits, hr, ?_, fun h => ?_⟩
  · rw [← hcounts r (hr ▸ List.mem_singleton_self r) .columnChunk, hslots]
    rfl
  · obtain ⟨-, i, hlt, hi⟩ := (hacquire .columnChunk).1.mp h
    rw [htaken] at hi
    rw [hcapacity] at hlt
    have hi' : i < 2 := hlt
    simp only [List.mem_cons, List.not_mem_nil, or_false] at hi
    omega

end Ledger

end Columnar
