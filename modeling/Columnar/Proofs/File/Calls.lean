import Columnar.File.Reader
import Columnar.Proofs.Column.Source

/-!
# Calls of a file reader

A file reader is called in any order.  Whatever was called, and whatever of it failed, how far
the reader has come is said by the number of calls for the next row group, and nothing else that
it needs has changed.

* `FileReader.prepareColumn_apply`, `FileReader.prepareDelta_apply`   the reader that is called;
* `FileReader.run r calls`        the reader after some calls;
* `FileReader.Reads bytes m k r`  `r` reads a file of the metadata `m`, and was asked `k` times
                                  for the next row group.
-/

namespace Columnar.FileReader

/-! ## the reader of a column -/

/-- what is called of the column reader in a row group -/
theorem prepareColumn_apply {r : FileReader} {i column : Nat} {g : RowGroup} {leaf : SchemaElement}
    {chunk : ColumnChunk} (hgroup : r.inRowGroup = .ok (i, g)) (hcolumn : column < r.numColumns)
    (hchunk : r.chunk g column = .ok (leaf, chunk)) :
    prepareColumn column r = ((ColumnReader.prepare column leaf chunk).within
      (.readingRowGroup i)).on FileReader.column (fun r column => { r with column }) r := by
  refine (Step.bind_ok (Step.liftM_ok hgroup r) _).trans ?_
  dsimp only
  rw [if_neg (Nat.not_le.mpr hcolumn)]
  exact Step.bind_ok (Step.ofExcept_ok hchunk r) _

/-- what is called of the delta reader in a row group -/
theorem prepareDelta_apply {r : FileReader} {i column : Nat} {g : RowGroup} {leaf : SchemaElement}
    {chunk : ColumnChunk} (hgroup : r.inRowGroup = .ok (i, g)) (hcolumn : r.numColumns = column + 1)
    (hchunk : r.chunk g column = .ok (leaf, chunk)) :
    prepareDelta r = ((DeltaReader.prepare column leaf chunk).within
      (.readingRowGroup i)).on FileReader.delta (fun r delta => { r with delta }) r := by
  refine (Step.bind_ok (Step.liftM_ok hgroup r) _).trans ?_
  dsimp only
  rw [hcolumn, if_neg (Nat.succ_ne_zero column), Nat.add_sub_cancel]
  exact Step.bind_ok (Step.ofExcept_ok hchunk r) _

/-! ## calls in any order -/

/-- a call of a file reader, with the batch that it fills -/
inductive Call where
  | nextRowGroup
  | prepareColumn (column : Nat)
  | prepareDelta
  | readColumn (into : Batch)
  | readDelta (into : Batch)

/-- the reader after a call, answered or not -/
def Call.run (r : FileReader) : Call → FileReader
  | nextRowGroup => (FileReader.nextRowGroup r).2
  | prepareColumn column => (FileReader.prepareColumn column r).2
  | prepareDelta => (FileReader.prepareDelta r).2
  | readColumn into => (FileReader.readColumn (r, into)).2.1
  | readDelta into => (FileReader.readDelta (r, into)).2.1

/-- the reader after calls, one after the other -/
def run (r : FileReader) (calls : List Call) : FileReader := calls.foldl Call.run r

/-- the calls for the next row group -/
def turns (calls : List Call) : Nat :=
  calls.countP fun
    | .nextRowGroup => true
    | _ => false

/-- a reader of `bytes` that was asked `k` times for the next row group -/
structure Reads (bytes : Bytes) (o : Options) (m : FileMetaData) (k : Nat) (r : FileReader) :
    Prop where
  buffer : r.buffer = bytes
  metadata : r.metadata = m
  column : r.column.Over bytes o
  delta : r.delta.Over bytes o
  rowGroup : r.rowGroup = if k = 0 then none else some (min (k - 1) m.rowGroups.length)

namespace Reads

variable {bytes : Bytes} {o : Options} {m : FileMetaData} {k : Nat} {r : FileReader}

/-- the next row group is there until all were read, and from then on it is not -/
theorem nextRowGroup (h : Reads bytes o m k r) :
    (FileReader.nextRowGroup r).1 = .ok (decide (k < m.rowGroups.length)) ∧
      Reads bytes o m (k + 1) (FileReader.nextRowGroup r).2 := by
  have hcount : r.numRowGroups = m.rowGroups.length := by rw [numRowGroups, h.metadata]
  have hnext : r.next = min k (m.rowGroups.length + 1) := by
    rw [next, h.rowGroup]
    by_cases hk : k = 0
    · rw [if_pos hk, hk, Nat.zero_min]
    · rw [if_neg hk]
      show min (k - 1) m.rowGroups.length + 1 = _
      omega
  rw [FileReader.nextRowGroup, Step.state_bind, hnext, hcount]
  by_cases hk : k < m.rowGroups.length
  · rw [if_pos (by omega), decide_eq_true hk, Nat.min_eq_left (by omega)]
    refine ⟨rfl, h.buffer, h.metadata, h.column, h.delta, ?_⟩
    show some k = _
    rw [if_neg (Nat.succ_ne_zero k), Nat.add_sub_cancel, Nat.min_eq_left (by omega)]
  · rw [if_neg (by omega), decide_eq_false hk]
    refine ⟨rfl, h.buffer, h.metadata, h.column, h.delta, ?_⟩
    show some m.rowGroups.length = _
    rw [if_neg (Nat.succ_ne_zero k), Nat.add_sub_cancel, Nat.min_eq_right (by omega)]

theorem withColumn (h : Reads bytes o m k r) {c : ColumnReader} (hc : c.Over bytes o) :
    Reads bytes o m k { r with column := c } :=
  ⟨h.buffer, h.metadata, hc, h.delta, h.rowGroup⟩

theorem withDelta (h : Reads bytes o m k r) {d : DeltaReader} (hd : d.Over bytes o) :
    Reads bytes o m k { r with delta := d } :=
  ⟨h.buffer, h.metadata, h.column, hd, h.rowGroup⟩

open Step in
theorem prepareColumn (column : Nat) :
    Maintains (Reads bytes o m k) Any (FileReader.prepareColumn column) := by
  apply maintains_bind maintains_state
  intro r _
  refine maintains_bind (P := Any) (maintains_lift fun _ _ => trivial) fun (i, g) _ => ?_
  dsimp only
  split
  · exact maintains_fail _
  · apply maintains_bind (P := Any) (maintains_ofExcept fun _ _ => trivial)
    intro (leaf, chunk) _
    refine Maintains.of_forall fun s hs => hs.withColumn ?_
    exact (maintains_within (ColumnReader.prepare_over column leaf chunk) _ hs.column).1

open Step in
theorem prepareDelta : Maintains (Reads bytes o m k) Any FileReader.prepareDelta := by
  apply maintains_bind maintains_state
  intro r _
  refine maintains_bind (P := Any) (maintains_lift fun _ _ => trivial) fun (i, g) _ => ?_
  dsimp only
  split
  · exact maintains_fail _
  · apply maintains_bind (P := Any) (maintains_ofExcept fun _ _ => trivial)
    intro (leaf, chunk) _
    refine Maintains.of_forall fun s hs => hs.withDelta ?_
    exact (maintains_within (DeltaReader.prepare_over _ leaf chunk) _ hs.delta).1

/-- one call -/
theorem call (h : Reads bytes o m k r) (c : Call) : Reads bytes o m (k + turns [c]) (c.run r) := by
  cases c with
  | nextRowGroup => exact h.nextRowGroup.2
  | prepareColumn column => exact (prepareColumn column r h).1
  | prepareDelta => exact (prepareDelta r h).1
  | readColumn into => exact h.withColumn (ColumnReader.read_over (r.column, into) h.column).1
  | readDelta into => exact h.withDelta (DeltaReader.read_over (r.delta, into) h.delta).1

/-- any calls -/
theorem calls (h : Reads bytes o m k r) (cs : List Call) :
    Reads bytes o m (k + turns cs) (r.run cs) := by
  induction cs generalizing k r with
  | nil => exact h
  | cons c cs ih =>
    have hsum : turns ([c] ++ cs) = turns [c] + turns cs := List.countP_append
    rw [List.singleton_append] at hsum
    rw [hsum, ← Nat.add_assoc]
    exact ih (h.call c)

end Reads

end Columnar.FileReader
