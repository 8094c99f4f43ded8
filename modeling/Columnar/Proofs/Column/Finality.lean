import Columnar.Proofs.Column.Silence

/-!
# When a failed read is the last that gives a slot

Behind a failed read a reader stays ready, and it may give slots again.  Whether it does is told by
the places that the failing reads from then on lead it to.

* `DeltaReader.Exhausted p`    no value comes of the page `p` any more;
* `DeltaReader.Barren r`       nothing can be read of a delta column where `r` stands;
* `DeltaReader.exhaustible`    delta readers that are prepared;
* `failed_read_final_iff`      of column readers and of delta readers: a failed read is final just
                               where failing reads lead to a barren place.
-/

namespace Columnar

open Step

/-! ## byte arrays -/

namespace Plain.Decoder

variable {d : Decoder}

/-- the length in front of the next byte array -/
def nextLength (d : Decoder) : Nat := fromLE (d.cursor.rest.take 4)

theorem remaining_moved (d : Decoder) (k : Nat) : (d.moved k).remaining = d.remaining - k :=
  List.length_drop

/-- without a length, nothing is read -/
theorem byteArray_short (h : d.remaining < 4) : ∃ x, byteArray d = (.error x, d) := by
  obtain ⟨x, hview⟩ := view_error h
  exact ⟨x, (bind_ok (look_apply _ _) _).trans (bind_error hview _)⟩

/-- the length stays read where less than it stands behind it -/
theorem byteArray_missing (h : 4 ≤ d.remaining) (hmissing : d.remaining < 4 + d.nextLength) :
    ∃ x, byteArray d = (.error x, d.moved 4) := by
  have hrest : (d.moved 4).remaining < d.nextLength := by
    rw [remaining_moved]
    omega
  obtain ⟨x, hview⟩ := view_error hrest
  exact ⟨_, (bind_ok (look_apply _ _) _).trans ((bind_ok (view_ok h) _).trans
    (bind_error (within_error hview) _))⟩

/-- a byte array is read with its length -/
theorem byteArray_ok (h : 4 + d.nextLength ≤ d.remaining) : byteArray d =
    (.ok (.byteArray (d.cursor.rest.take (4 + d.nextLength))), d.moved (4 + d.nextLength)) := by
  have hrest : d.nextLength ≤ (d.moved 4).remaining := by
    rw [remaining_moved]
    omega
  have hrun : byteArray d = (.ok (.byteArray (d.cursor.rest.take 4 ++
      (d.cursor.rest.drop 4).take d.nextLength)), (d.moved 4).moved d.nextLength) := by
    refine (bind_ok (look_apply _ _) _).trans ?_
    refine (bind_ok (view_ok (by omega)) _).trans ?_
    exact bind_ok (within_ok (view_ok hrest)) _
  rwa [moved_moved, ← List.take_add] at hrun

theorem byteArray_whole (h : 4 + d.nextLength ≤ d.remaining) :
    ∃ v, byteArray d = (.ok v, d.moved (4 + d.nextLength)) ∧ v.byteLen = 4 + d.nextLength :=
  ⟨_, byteArray_ok h, List.length_take_of_le h⟩

end Plain.Decoder

namespace DeltaReader

variable {p q : DeltaPage}

/-! ## runs -/

/-- no value comes of a page at its end, without another length, or in front of an empty value -/
def Exhausted (p : DeltaPage) : Prop :=
  p.left < terminatorSize ∨ p.values.remaining < 4 ∨ p.values.nextLength = 0

/-- a value is read and passed, or it cannot be; then its length is passed, if there is one -/
theorem next_passes (p : DeltaPage) :
    Ends (fun v q => v.byteLen = 4 + p.values.nextLength ∧
        q.values.remaining < p.values.remaining)
      (fun _ q => p.values.remaining < 4 ∧ q = p ∨ q.values.remaining < p.values.remaining)
      (next p) := by
  rcases Nat.lt_or_ge p.values.remaining 4 with hshort | hlong
  · obtain ⟨x, hrun⟩ := Plain.Decoder.byteArray_short hshort
    rw [next, hrun]
    exact Or.inl ⟨hshort, rfl⟩
  rcases Nat.lt_or_ge p.values.remaining (4 + p.values.nextLength) with hmissing | hwhole
  · obtain ⟨x, hrun⟩ := Plain.Decoder.byteArray_missing hlong hmissing
    rw [next, hrun]
    refine Or.inr ?_
    show (p.values.moved 4).remaining < _
    rw [Plain.Decoder.remaining_moved]
    omega
  · obtain ⟨v, hrun, hlen⟩ := Plain.Decoder.byteArray_whole hwhole
    rw [next, hrun]
    refine ⟨hlen, ?_⟩
    show (p.values.moved _).remaining < _
    rw [Plain.Decoder.remaining_moved]
    omega

/-- a run gets a value more off a page that is not exhausted; one that cannot be read to its end
leaves the page exhausted, or further on -/
theorem takeRun_passes (room : Nat) : ∀ (taken : Nat) {p : DeltaPage} {b : Batch},
    b.values.length + room ≤ batchSize →
    Ends (fun _ t => b.values.length ≤ t.2.values.length ∧
        (0 < room → ¬ Exhausted p → b.values.length < t.2.values.length))
      (fun _ t => Exhausted t.1 ∨ t.1.values.remaining < p.values.remaining)
      (takeRun room taken (p, b)) := by
  induction room with
  | zero => exact fun _ _ _ _ => ⟨Nat.le_refl _, fun h => absurd h (Nat.lt_irrefl 0)⟩
  | succ room ih =>
    intro taken p b hroom
    by_cases hleft : p.left < terminatorSize
    · rw [takeRun_stop hleft]
      exact ⟨Nat.le_refl _, fun _ h => absurd (Or.inl hleft) h⟩
    have hpasses := next_passes p
    rcases hnext : next p with ⟨x | v, q⟩
    · rw [hnext] at hpasses
      rw [takeRun_unread hleft hnext]
      rcases hpasses with ⟨hshort, rfl⟩ | hless
      · exact Or.inl (Or.inr (Or.inl hshort))
      · exact Or.inr hless
    rw [hnext] at hpasses
    obtain ⟨hlen, hless⟩ := hpasses
    -- a value is as long as a terminator just where its payload is empty
    by_cases hv : v.byteLen = terminatorSize
    · have hzero : p.values.nextLength = 0 := by
        have hsize : terminatorSize = 4 := rfl
        omega
      rw [takeRun_end hleft hnext hv]
      exact ⟨Nat.le_refl _, fun _ h => absurd (Or.inr (Or.inr hzero)) h⟩
    · have hmore : (b.putAll [v]).values.length = b.values.length + 1 := List.length_append
      rw [takeRun_next hleft hnext hv (by omega)]
      refine (ih _ (by omega)).mono ?_ ?_
      · rintro n t ⟨hle, -⟩
        exact ⟨by omega, fun _ _ => by omega⟩
      · exact fun x t h => h.imp_right fun h => h.trans hless

/-- of a page that is exhausted no value is taken, and one that cannot be read leaves it -/
theorem takeRun_exhausted (room taken : Nat) (h : Exhausted p) (b : Batch) :
    Ends (fun _ t => t.2 = b) (fun _ t => t.1 = p) (takeRun (room + 1) taken (p, b)) := by
  by_cases hleft : p.left < terminatorSize
  · rw [takeRun_stop hleft]
    rfl
  rcases Nat.lt_or_ge p.values.remaining 4 with hshort | hlong
  · obtain ⟨x, hrun⟩ := Plain.Decoder.byteArray_short hshort
    have hnext : next p = (.error (.error (x.within (.decodingDelta p.values.consumed))), p) := by
      rw [next, hrun]
    rw [takeRun_unread hleft hnext]
    rfl
  · have hzero : p.values.nextLength = 0 :=
      (h.resolve_left hleft).resolve_left (Nat.not_lt.mpr hlong)
    obtain ⟨v, hrun, hlen⟩ := Plain.Decoder.byteArray_whole (d := p.values) (by omega)
    rw [hzero] at hlen
    obtain ⟨q, hnext⟩ : ∃ q, next p = (.ok v, q) := by
      rw [next, hrun]
      exact ⟨_, rfl⟩
    rw [takeRun_end hleft hnext hlen]
    rfl

/-! ## reads -/

variable {r : DeltaReader}

/-- nothing can be read where the reader stands: behind the last batch, or of its page -/
def Barren (r : DeltaReader) : Prop := r.progress = .exhausted ∨ ∀ p ∈ r.page, Exhausted p

/-- the bytes in front of the reader in its page -/
def rank (r : DeltaReader) : Nat := (r.page.map fun p => p.values.remaining).getD 0

theorem settle_total (s : DeltaReader × Batch) :
    (settle s).2.total = s.2.total + s.2.values.length := by
  unfold settle
  dsimp only
  split <;> rfl

/-- a read gives a slot, or there is none, or it leaves the reader at a barren place or further
on -/
theorem read_passes (hr : r.progress ≠ .uninitialized) (v : Batch) :
    Ends (fun _ t => ¬ r.Barren → t.2.total ≠ 0)
      (fun _ t => t.1.Barren ∨ t.1.rank < r.rank) (read (r, v)) := by
  cases hready : r.progress with
  | uninitialized => exact absurd hready hr
  | exhausted =>
    rw [read_exhausted hready]
    exact fun h => absurd (Or.inl hready) h
  | ready =>
    cases hpage : r.page with
    | none =>
      rw [read_none hready hpage]
      refine fun h => absurd (Or.inr fun p hp => ?_) h
      rw [hpage] at hp
      cases hp
    | some p =>
      have hrank : r.rank = p.values.remaining := by
        rw [rank, hpage]
        rfl
      have hpasses := takeRun_passes batchSize 0 (p := p) (b := {}) (Nat.le_refl _)
      rcases hrun : takeRun batchSize 0 (p, {}) with ⟨x | n, q, b⟩
      · rw [hrun] at hpasses
        rw [read_unread hready hpage hrun]
        rcases hpasses with hexhausted | hless
        · refine Or.inl (Or.inr fun p' hp' => ?_)
          cases hp'
          exact hexhausted
        · rw [hrank]
          exact Or.inr hless
      · rw [hrun] at hpasses
        rw [read_taken hready hpage hrun]
        intro hbarren
        have hsome := hpasses.2 (by decide) fun h => hbarren (Or.inr fun p' hp' => by
          rw [hpage] at hp'
          cases hp'
          exact h)
        rw [settle_total]
        exact Nat.ne_of_gt (Nat.lt_of_lt_of_le (Nat.zero_lt_of_lt hsome) (Nat.le_add_left _ _))

/-- at a barren place a read gives no slot, and the reader stays -/
theorem read_barren (hr : r.progress ≠ .uninitialized) (h : r.Barren) (v : Batch) :
    Ends (fun _ t => t.1.Barren ∧ t.2.total = 0) (fun _ t => t.1.Barren) (read (r, v)) := by
  cases hready : r.progress with
  | uninitialized => exact absurd hready hr
  | exhausted =>
    rw [read_exhausted hready]
    exact ⟨Or.inl hready, rfl⟩
  | ready =>
    cases hpage : r.page with
    | none =>
      rw [read_none hready hpage]
      exact ⟨Or.inl rfl, rfl⟩
    | some p =>
      have hexhausted : Exhausted p := by
        rcases h with hend | h
        · rw [hready] at hend
          cases hend
        · exact h p hpage
      have hends := takeRun_exhausted 15 0 hexhausted {}
      rcases hrun : takeRun batchSize 0 (p, {}) with ⟨x | n, q, b⟩
      · rw [show takeRun (15 + 1) 0 (p, {}) = _ from hrun] at hends
        obtain rfl : q = p := hends
        rw [read_unread hready hpage hrun]
        refine Or.inr fun p' hp' => ?_
        cases hp'
        exact hexhausted
      · rw [show takeRun (15 + 1) 0 (p, {}) = _ from hrun] at hends
        obtain rfl : b = {} := hends
        rw [read_taken hready hpage hrun]
        exact ⟨Or.inl rfl, rfl⟩

/-- delta readers that are prepared -/
theorem exhaustible : Exhaustible read (fun r => r.progress ≠ .uninitialized) Barren rank where
  blind r v v' hr := read_blind hr v v'
  fails r v x t hr hread := by
    have hready := (read_prepared (r, v) hr).1
    have hends := read_passes hr v
    rw [hread] at hready hends
    exact ⟨hready, hends⟩
  gives r v n t hr hbarren hread := by
    have hends := read_passes hr v
    rw [hread] at hends
    exact hends hbarren
  stays r hr hbarren := by
    refine silent_of_stays (J := fun r => r.progress ≠ .uninitialized ∧ r.Barren) ?_ ⟨hr, hbarren⟩
    rintro r v ⟨hr, hbarren⟩
    have hready := (read_prepared (r, v) hr).1
    have hends := read_barren hr hbarren v
    rcases hread : read (r, v) with ⟨x | n, t⟩
    · rw [hread] at hready hends
      exact ⟨⟨hready, hends⟩, nofun⟩
    · rw [hread] at hready hends
      exact ⟨⟨hready, hends.1⟩, fun _ _ => hends.2⟩

end DeltaReader

/-! ## failed reads -/

/-- of a reader that was prepared, a read that fails is the last that gives a slot just where the
reads that fail behind it lead to a place that is not left -/
theorem failed_read_final_iff {v v' : Batch} {x : Failure} :
    (∀ {buffer : Bytes} {o : Options} {st : ColumnReader.Standing} {r r' : ColumnReader},
      ColumnReader.Reached buffer o st r → st ≠ .closed →
      ColumnReader.read (r, v) = (.error x, (r', v')) →
      (Silent ColumnReader.read r' ↔ ∃ t, FailsTo ColumnReader.read r' t ∧ t.Barren)) ∧
    (∀ {r r' : DeltaReader}, r.progress ≠ .uninitialized →
      DeltaReader.read (r, v) = (.error x, (r', v')) →
      (Silent DeltaReader.read r' ↔ ∃ t, FailsTo DeltaReader.read r' t ∧ t.Barren)) := by
  refine ⟨fun {buffer o st r r'} h hst hread => ?_, fun {r r'} hr hread => ?_⟩
  · obtain ⟨g, b, hg, hr⟩ := h.kept.2 hst
    exact silent_iff ColumnReader.exhaustible (ColumnReader.atSlots_of_failed hr hg hread)
  · have hready := (DeltaReader.read_prepared (r, v) hr).1
    rw [hread] at hready
    exact silent_iff DeltaReader.exhaustible hready

/-- the record of a chunk whose pages are all that a buffer holds -/
def soleChunk (name : String) (type : PhysicalType) (numValues size dataPageOffset : Int64)
    (dictionaryPageOffset : Option Int64) : ColumnChunk where
  filePath := none
  fileOffset := 0
  metaData := some {
    physicalType := type
    encodings := [.rle, .plain]
    pathInSchema := [name]
    codec := .uncompressed
    numValues
    totalUncompressedSize := size
    totalCompressedSize := size
    keyValueMetadata := none
    dataPageOffset
    indexPageOffset := none
    dictionaryPageOffset
    statistics := none }

/-- a page without levels for its slots, and a byte array that says to be longer than its page with
less than a length behind its own: the read that meets it fails, and none gives a slot from then
on -/
theorem failed_read_final_missing :
    let column := ColumnReader.prepare 0 (.optional "n" .int32) (soleChunk "n" .int32 2 25 0 none)
      (.ofBuffer [21, 0, 21, 16, 21, 16, 44, 21, 4, 21, 0, 21, 6, 21, 6, 0, 0,
        0, 0, 0, 0, 7, 0, 0, 0] {})
    let delta := DeltaReader.prepare 0 (.optional "d" .byteArray)
      (soleChunk "d" .byteArray 1 18 0 (some 0))
      (.ofBuffer [21, 4, 21, 10, 21, 10, 76, 21, 2, 21, 0, 0, 0, 255, 0, 0, 0, 97] {})
    let t := ColumnReader.read (column.2, {})
    let u := DeltaReader.read (delta.2, {})
    (column.1 = .ok () ∧ t.1 = .error (.error ⟨.outOfRuns 0, [.decodingColumn 0]⟩) ∧
      Silent ColumnReader.read t.2.1) ∧
    (delta.1 = .ok () ∧
      u.1 = .error (.error ⟨.readPastEnd 255 4 5, [.decodingDelta 4, .byteArrayAt 255 0]⟩) ∧
      Silent DeltaReader.read u.2.1) := by
  intro column delta t u
  have hcolumn : column.1 = .ok () := by decide +kernel +zetaReduce
  have hdelta : delta.1 = .ok () := by decide +kernel +zetaReduce
  have ht : t.1 = .error (.error ⟨.outOfRuns 0, [.decodingColumn 0]⟩) := by
    decide +kernel +zetaReduce
  have hu : u.1 = .error (.error ⟨.readPastEnd 255 4 5,
      [.decodingDelta 4, .byteArrayAt 255 0]⟩) := by
    decide +kernel +zetaReduce
  have hready : delta.2.progress = .ready := by decide +kernel +zetaReduce
  have hvalues : 0 < t.2.1.pageValues := by decide +kernel +zetaReduce
  have hlevels : t.2.1.page.map OpenPage.levels = some { stream := .ofBytes [], width := 1 } := by
    decide +kernel +zetaReduce
  have hleft : u.2.1.page.map (fun p => p.values.remaining) = some 1 := by
    decide +kernel +zetaReduce
  have hprepare : ColumnReader.prepare _ _ _ _ = column := rfl
  have hread : ColumnReader.read (column.2, {}) = t := rfl
  have hread' : DeltaReader.read (delta.2, {}) = u := rfl
  clear_value column delta t u
  obtain ⟨_, r⟩ := column
  obtain ⟨_, r', v'⟩ := t
  obtain ⟨_, s', w'⟩ := u
  cases hcolumn
  cases ht
  cases hu
  refine ⟨⟨rfl, rfl, ?_⟩, hdelta, rfl, ?_⟩
  · refine (failed_read_final_iff.1 (.prepared .new hprepare) (by decide) hread).mpr
      ⟨r', .refl r', Or.inr ⟨hvalues, fun p hp => ?_⟩⟩
    have hpage : r'.page = some p := hp
    rw [hpage] at hlevels
    have hempty : p.levels = _ := Option.some.inj hlevels
    rw [hempty]
    exact ⟨rfl, _, rfl⟩
  · refine (failed_read_final_iff.2 (by rw [hready]; decide) hread').mpr
      ⟨s', .refl s', Or.inr fun p hp => Or.inr (Or.inl ?_)⟩
    have hpage : s'.page = some p := hp
    rw [hpage] at hleft
    have hshort : p.values.remaining = 1 := Option.some.inj hleft
    omega

/-- an index outside its dictionary in front of others inside it, and a byte array that says to be
longer than its page in front of bytes that can be taken for another: the read that meets it fails,
and the next one gives slots -/
theorem not_silent_failed_read :
    let column := ColumnReader.prepare 0 (.optional "n" .int32)
      (soleChunk "n" .int32 32 45 17 (some 0))
      (.ofBuffer [21, 4, 21, 8, 21, 8, 76, 21, 2, 21, 0, 0, 0, 7, 0, 0, 0,
        21, 0, 21, 22, 21, 22, 44, 21, 64, 21, 16, 21, 6, 21, 6, 0, 0,
        2, 0, 0, 0, 64, 1, 1, 2, 1, 62, 0] {})
    let delta := DeltaReader.prepare 0 (.optional "d" .byteArray)
      (soleChunk "d" .byteArray 1 26 0 (some 0))
      (.ofBuffer [21, 4, 21, 26, 21, 26, 76, 21, 2, 21, 0, 0, 0,
        255, 0, 0, 0, 1, 0, 0, 0, 97, 0, 0, 0, 0] {})
    let t := ColumnReader.read (column.2, {})
    let t' := ColumnReader.read t.2
    let u := DeltaReader.read (delta.2, {})
    let u' := DeltaReader.read u.2
    (column.1 = .ok () ∧ t.1 = .error (.error ⟨.indexOutOfRange 1 1, [.decodingColumn 0]⟩) ∧
      t'.1 = .ok 2 ∧ t'.2.2.slots = List.replicate 16 (some (.int32 [7, 0, 0, 0])) ∧
      ¬ Silent ColumnReader.read t.2.1) ∧
    (delta.1 = .ok () ∧
      u.1 = .error (.error ⟨.readPastEnd 255 4 13, [.decodingDelta 4, .byteArrayAt 255 0]⟩) ∧
      u'.1 = .ok 9 ∧ u'.2.2.slots = [some (.byteArray [1, 0, 0, 0, 97])] ∧
      ¬ Silent DeltaReader.read u.2.1) := by
  intro column delta t t' u u'
  have hcolumn : column.1 = .ok () ∧
      t.1 = .error (.error ⟨.indexOutOfRange 1 1, [.decodingColumn 0]⟩) ∧ t'.1 = .ok 2 ∧
      t'.2.2.slots = List.replicate 16 (some (.int32 [7, 0, 0, 0])) ∧ t'.2.2.total = 16 := by
    decide +kernel +zetaReduce
  have hdelta : delta.1 = .ok () ∧
      u.1 = .error (.error ⟨.readPastEnd 255 4 13, [.decodingDelta 4, .byteArrayAt 255 0]⟩) ∧
      u'.1 = .ok 9 ∧ u'.2.2.slots = [some (.byteArray [1, 0, 0, 0, 97])] ∧
      u'.2.2.total = 1 := by
    decide +kernel +zetaReduce
  have hread : ColumnReader.read t.2 = t' := rfl
  have hread' : DeltaReader.read u.2 = u' := rfl
  clear_value column delta t t' u u'
  obtain ⟨hprepare, ht, hagain, hslots, htotal⟩ := hcolumn
  obtain ⟨hprepare', hu, hagain', hslots', htotal'⟩ := hdelta
  refine ⟨⟨hprepare, ht, hagain, hslots, fun h => ?_⟩, hprepare', hu, hagain', hslots',
    fun h => ?_⟩
  · have hnone := h.empty (hread.trans (Prod.ext hagain rfl))
    rw [htotal] at hnone
    cases hnone
  · have hnone := h.empty (hread'.trans (Prod.ext hagain' rfl))
    rw [htotal'] at hnone
    cases hnone

end Columnar
