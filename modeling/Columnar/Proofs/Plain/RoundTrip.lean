import Columnar.Proofs.Plain.Batches
import Columnar.Proofs.Plain.Coalescing
import Columnar.Proofs.Value

/-!
# Plain values there and back

The data of a column are written by an encoder, one call for each, and read back by a decoder in
batches, however they are cut into these.

* `Datum.op`                   the call that writes a datum;
* `Plain.Data t length ds`     `ds` are data of a column of type `t`;
* `Decoder.batches ns`         batches of `ns` values, each read into an empty batch;
* `Encoder.naive_data`         the calls for data stand for their layout;
* `Decoder.batches_times`      batches have the values that single reads give;
* `Decoder.batches_written`    data that are written are read back.
-/

namespace Columnar

/-- the call to an encoder that writes a datum -/
def Datum.op : Datum → Plain.Op
  | boolean b => .bool b
  | int32 n => .scalar 4 n.toUInt32.toNat
  | int64 n => .scalar 8 n.toUInt64.toNat
  | float bits => .scalar 4 bits.toNat
  | double bits => .scalar 8 bits.toNat
  | byteArray bs => .byteArray bs
  | fixedLenByteArray bs => .fixed bs

/-- a datum of a column: of its type, of its length where that is fixed, and no byte array whose
length does not fit 32 bits -/
def Datum.Of (t : PhysicalType) (length : Option Nat) (d : Datum) : Prop :=
  d.type = t ∧ match d with
    | .byteArray bs => bs.length < 2 ^ 32
    | .fixedLenByteArray bs => length = some bs.length
    | _ => True

namespace Plain

/-- data of a column.  A batch of values of one width is read through one view of the page, so that
the bytes of sixteen values, or of all where these are fewer, have to be a number of the machine -/
structure Data (t : PhysicalType) (length : Option Nat) (ds : List Datum) : Prop where
  type : t ≠ .int96
  fixed : t = .fixedLenByteArray → length.isSome
  data : ∀ d ∈ ds, d.Of t length
  word : t = .fixedLenByteArray → ∀ w ∈ length, w * min batchSize ds.length < 2 ^ 64

variable {t : PhysicalType} {length : Option Nat} {ds : List Datum}

theorem valid_op (buffers : Nat → Bytes) {d : Datum} (h : d.Of t length) : d.op.Valid buffers := by
  cases d with
  | byteArray bs => exact h.2
  | _ => exact trivial

/-- the bytes of a datum are those of a value of its column -/
theorem staged_plain {d : Datum} (h : d.Of t length) : Staged t length d.plain := by
  obtain ⟨rfl, hd⟩ := h
  cases d with
  | boolean b => exact trivial
  | int32 _ | float _ => exact congrArg some (toLE_length 4 _).symm
  | int64 _ | double _ => exact congrArg some (toLE_length 8 _).symm
  | byteArray bs => exact ⟨bs, rfl, hd⟩
  | fixedLenByteArray bs => exact hd

theorem physicalType_ofPlain (d : Datum) :
    (Value.ofPlain d.type d.plain).physicalType = d.type := by
  cases d <;> rfl

/-! ## writing -/

theorem bytes_op (buffers : Nat → Bytes) {d : Datum} (h : d.type ≠ .boolean) :
    d.op.isBool = false ∧ d.op.bytes buffers = d.plain := by
  cases d with
  | boolean b => exact absurd rfl h
  | _ => exact ⟨rfl, rfl⟩

/-- booleans are packed, whether they are given as such or by their bytes -/
theorem exists_booleans (h : ∀ d ∈ ds, d.type = .boolean) : ∃ bs : List Bool,
    ds.map Datum.op = bs.map .bool ∧ (ds.map Datum.plain).map (fun v => decide (v ≠ [0])) = bs := by
  induction ds with
  | nil => exact ⟨[], rfl, rfl⟩
  | cons d ds ih =>
    obtain ⟨hd, hds⟩ := List.forall_mem_cons.mp h
    obtain ⟨bs, hop, hplain⟩ := ih hds
    cases d with
    | boolean b =>
      refine ⟨b :: bs, congrArg (Op.bool b :: ·) hop, ?_⟩
      rw [List.map_cons, List.map_cons, hplain]
      cases b <;> rfl
    | _ => cases hd

/-- the calls for the data of a column stand for their layout -/
theorem naive_data (buffers : Nat → Bytes) (h : ∀ d ∈ ds, d.type = t) :
    naive buffers (ds.map Datum.op) = layout t (ds.map Datum.plain) := by
  by_cases hb : t = .boolean
  · subst hb
    obtain ⟨bs, hop, hplain⟩ := exists_booleans h
    rw [layout, if_pos rfl, hplain, hop]
    have hnone : ∀ op ∈ ([] : List Op).getLast?, op.isBool = false := nofun
    exact naive_append_bits hnone bs
  · have hne : ∀ d ∈ ds, d.type ≠ .boolean := fun d hd => h d hd ▸ hb
    have hbytes : (ds.map Datum.op).flatMap (Op.bytes buffers) = (ds.map Datum.plain).flatten := by
      rw [List.flatMap_map, List.flatMap_def]
      exact congrArg List.flatten (List.map_congr_left fun d hd => (bytes_op buffers (hne d hd)).2)
    rw [layout, if_neg hb, ← hbytes]
    refine naive_append_others [] fun op hop => ?_
    obtain ⟨d, hd, rfl⟩ := List.mem_map.mp hop
    exact (bytes_op buffers (hne d hd)).1

/-! ## reading in batches -/

namespace Decoder

/-- the values of one batch, which was empty before -/
def batch (n : Nat) : Step Decoder Failure (List Value) := fun d =>
  let (r, (e, b)) := values n (d, {})
  (r.map fun _ => b.values, e)

/-- batches of values, one behind the other -/
def batches : List Nat → Step Decoder Failure (List (List Value))
  | [] => pure []
  | n :: ns => do
    let vs ← batch n
    let vss ← batches ns
    pure (vs :: vss)

variable {d e : Decoder}

theorem batch_times {n : Nat} {vs : List Value} (hword : d.width * n < 2 ^ 64) (hn : n ≤ batchSize)
    (h : Step.times n value d = (.ok vs, e)) : batch n d = (.ok vs, e) := by
  have hroom : ({} : Batch).values.length + n ≤ batchSize := by simpa using hn
  have hputs := values_puts hword {} hroom
  rw [h] at hputs
  have hvalues : values n (d, {}) = (.ok (), (e, ({} : Batch).putAll vs)) := hputs
  rw [batch, hvalues]
  rfl

/-- batches have the values that are read one by one -/
theorem batches_times {α : Type} {f : α → Value} (parts : List (List α)) :
    ∀ {d e : Decoder}, (∀ p ∈ parts, p.length ≤ batchSize ∧ d.width * p.length < 2 ^ 64) →
    Step.times parts.flatten.length value d = (.ok (parts.flatten.map f), e) →
    batches (parts.map List.length) d = (.ok (parts.map (·.map f)), e) := by
  induction parts with
  | nil =>
    intro d e _ h
    cases h
    rfl
  | cons p parts ih =>
    intro d e hparts h
    obtain ⟨⟨hp, hword⟩, hrest⟩ := List.forall_mem_cons.mp hparts
    rw [List.flatten_cons, List.length_append, Step.times_add, List.map_append] at h
    obtain ⟨vs, d₁, hfirst, h⟩ := Step.bind_eq_ok.mp h
    obtain ⟨ws, d₂, hnext, h⟩ := Step.bind_eq_ok.mp h
    obtain ⟨happend, rfl⟩ := Prod.mk.inj h
    have hlen : vs.length = p.length :=
      ((Step.maintains_times (Step.maintains_any value) p.length).of_eq trivial hfirst).2.1
    obtain ⟨rfl, rfl⟩ := List.append_inj (Except.ok.inj happend) (by rw [hlen, List.length_map])
    -- the width of the values stays what it is
    have hwidth : d₁.width = d.width :=
      ((Step.maintains_times (value_maintains d) p.length).of_eq (.refl d) hfirst).1.width
    have hbatches := ih (fun q hq => hwidth ▸ hrest q hq) hnext
    rw [List.map_cons, batches, Step.bind_ok (batch_times hword hp hfirst),
      Step.bind_ok hbatches]
    rfl

theorem exists_ofBytes (h : Data t length ds) (bs : Bytes) : ∃ d, ofBytes bs t length = .ok d := by
  unfold ofBytes
  split
  · exact ⟨_, rfl⟩
  · exact absurd (h.fixed rfl) (by decide)
  · exact absurd rfl h.type
  · exact ⟨_, rfl⟩

/-- the bytes of a batch are a number of the machine -/
theorem width_lt (h : Data t length ds) {bs : Bytes} (hd : ofBytes bs t length = .ok d) {n : Nat}
    (hn : n ≤ min batchSize ds.length) : d.width * n < 2 ^ 64 := by
  have hsixteen : n ≤ 16 := Nat.le_trans hn (Nat.min_le_left _ _)
  unfold ofBytes at hd
  split at hd
  · rename_i w
    cases hd
    exact Nat.lt_of_le_of_lt (Nat.mul_le_mul_left w hn) (h.word rfl w rfl)
  · cases hd
  · cases hd
  · cases hd
    have hwidth : t.fixedWidth?.getD 0 ≤ 8 := by
      cases t with
      | int96 => exact absurd rfl h.type
      | _ => decide
    calc t.fixedWidth?.getD 0 * n ≤ 8 * 16 := Nat.mul_le_mul hwidth hsixteen
      _ < 2 ^ 64 := by decide

/-- the data of a column that are written, with one call for each and over a sink that takes every
call, are read back: in batches of at most sixteen values, however the data are cut into these, each
reader answers the datum that was written, and all bytes are consumed -/
theorem batches_written (buffers : Nat → Bytes) {z : Sink} (hz : z.Open) (hds : Data t length ds)
    {parts : List (List Datum)} (hparts : parts.flatten = ds)
    (hsize : ∀ p ∈ parts, p.length ≤ batchSize) :
    let ops := ds.map Datum.op
    let e := Encoder.after buffers z ops
    let s := Encoder.finish e
    Encoder.accepted buffers { sink := z } ops = ops ∧ s.1 = .ok () ∧
      ∃ bytes, s.2.sink.bytes = z.bytes ++ bytes ∧ e.encodedLen = bytes.length ∧
        ∃ d d' vss, ofBytes bytes t length = .ok d ∧
          batches (parts.map List.length) d = (.ok vss, d') ∧ d'.consumed = bytes.length ∧
          List.Forall₂ (List.Forall₂ fun v x => v.physicalType = t ∧ v.Gives x ∧ v.datum = .ok x)
            vss parts := by
  intro ops e s
  have hvalid : ops.filter (fun op => op.Valid buffers) = ops := by
    refine List.filter_eq_self.mpr fun op hop => ?_
    obtain ⟨x, hx, rfl⟩ := List.mem_map.mp hop
    exact decide_eq_true (valid_op buffers (hds.data x hx))
  obtain ⟨haccepted, htracks⟩ := Encoder.run_tracks buffers hz ops
  rw [hvalid] at haccepted htracks
  obtain ⟨e', hfinish, hwritten, -⟩ := htracks.finish
  have hs : s = (.ok (), e') := hfinish
  have hnaive : naive buffers ops = layout t (ds.map Datum.plain) :=
    naive_data buffers fun x hx => (hds.data x hx).1
  refine ⟨haccepted, by rw [hs], layout t (ds.map Datum.plain), ?_, ?_, ?_⟩
  · rw [hs, Sink.bytes, hwritten.taken, List.flatten_append, flatten_sinkCalls, hnaive]
    rfl
  · rw [← hnaive]
    exact htracks.encodedLen
  obtain ⟨d, hd⟩ := exists_ofBytes hds (layout t (ds.map Datum.plain))
  obtain ⟨d', htimes, hconsumed⟩ := times_layout (fun v hv => by
    obtain ⟨x, hx, rfl⟩ := List.mem_map.mp hv
    exact staged_plain (hds.data x hx)) hd
  rw [List.length_map, List.map_map, ← hparts] at htimes
  refine ⟨d, d', _, hd, batches_times parts (fun p hp => ⟨hsize p hp, ?_⟩) htimes, hconsumed, ?_⟩
  · refine width_lt hds hd (Nat.le_min.mpr ⟨hsize p hp, ?_⟩)
    exact hparts ▸ (List.sublist_flatten_of_mem hp).length_le
  · rw [List.forall₂_map_left_iff]
    refine List.forall₂_same.mpr fun p hp => ?_
    rw [List.forall₂_map_left_iff]
    refine List.forall₂_same.mpr fun x hx => ?_
    have hmem : x ∈ ds := hparts ▸ List.mem_flatten.mpr ⟨p, hp, hx⟩
    obtain rfl := (hds.data x hmem).1
    have hdatum := Datum.ofPlain_plain x
    exact ⟨physicalType_ofPlain x, Value.gives_iff.mpr hdatum, hdatum⟩

/-- eleven booleans in two bytes, in three batches: the first ends within the first byte, the second
has no value, and the last goes on into the second byte -/
theorem batches_written_booleans :
    let first : List Datum := [.boolean true, .boolean false, .boolean true]
    let last : List Datum := .replicate 7 (.boolean true) ++ [.boolean false]
    let s := Encoder.finish (Encoder.after (fun _ => []) .unbounded ((first ++ last).map Datum.op))
    Sink.unbounded.Open ∧ Data .boolean none (first ++ last) ∧ s.2.sink.bytes = [253, 3] ∧
      ∃ d d' vss, ofBytes [253, 3] .boolean none = .ok d ∧
        batches [3, 0, 8] d = (.ok vss, d') ∧ d'.consumed = 2 ∧
        List.Forall₂ (List.Forall₂ Value.Gives) vss [first, [], last] := by
  intro first last s
  have hopen : Sink.unbounded.Open := fun _ _ => rfl
  have hds : Data .boolean none (first ++ last) :=
    { type := nofun
      fixed := nofun
      data := fun d hd => by
        have htype : d.type = .boolean := by revert d; decide
        refine ⟨htype, ?_⟩
        cases d with
        | boolean b => exact trivial
        | _ => cases htype
      word := nofun }
  obtain ⟨-, -, bytes, hbytes, -, d, d', vss, hd, hvss, hconsumed, hgives⟩ :=
    batches_written (fun _ => []) hopen hds
      (show [first, [], last].flatten = first ++ last from rfl) (by decide)
  have hsink : s.2.sink.bytes = [253, 3] := by decide +kernel +zetaReduce
  obtain rfl : [253, 3] = bytes := hsink.symm.trans hbytes
  exact ⟨hopen, hds, hsink, d, d', vss, hd, hvss, hconsumed,
    hgives.imp fun _ _ h => h.imp fun _ _ h => h.2.1⟩

end Decoder

end Plain

end Columnar
