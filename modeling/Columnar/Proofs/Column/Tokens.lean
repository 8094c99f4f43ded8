import Columnar.Proofs.Column.Finality

/-!
# The bytes of a delta column

The reads of a delta column cut its page into runs: the bytes of the values that a read gives and
of the empty value that it ends on are those behind the last read, and their number is what it
answers.  So the page is read from its front on, and the bytes that are counted as left are those
that the reader has not passed.

* `DeltaReader.Run`             values and whether an empty one ends them;
* `DeltaReader.Faces p bs`      `bs` is in front of the reader of a page, and is counted as left;
* `DeltaReader.Reads r os s`    reads that succeed, from `r` to `s`;
* `Reading.Takes o t`           a read that takes the run `t`;
* `takeRun_run`, `read_run`     what one read takes, and where it stops;
* `reads_runs`, `reads_tokens`  what a row of reads takes, of a page and of a chunk.
-/

namespace Columnar.DeltaReader

open Step

/-! ## runs -/

/-- what one read takes off a page: values and, where `ended`, the empty value behind them -/
structure Run where
  values : List Value
  ended : Bool

/-- the bytes of a run in its page -/
def Run.bytes (t : Run) : Bytes :=
  t.values.flatMap Value.raw ++ if t.ended then [0, 0, 0, 0] else []

/-- a value that is not empty, behind its length -/
def Full (v : Value) : Prop :=
  ∃ payload : Bytes, payload ≠ [] ∧ payload.length < 2 ^ 32 ∧
    v = .byteArray (Plain.byteArray payload)

theorem Run.bytes_cons (v : Value) (t : Run) :
    (⟨v :: t.values, t.ended⟩ : Run).bytes = v.raw ++ t.bytes := by
  rw [bytes, bytes, List.flatMap_cons, List.append_assoc]

/-- a run that is cut off in front of `rest`, where there was room for `room` values -/
structure Run.Cut (t : Run) (room : Nat) (rest : Bytes) : Prop where
  full : ∀ v ∈ t.values, Full v
  length : t.values.length ≤ room
  stops : t.ended = false → t.values.length = room ∨ rest.length < terminatorSize

/-- `bs` is in front of the reader of a page, and is counted as left -/
structure Faces (p : DeltaPage) (bs : Bytes) : Prop where
  rest : p.values.cursor.rest = bs
  left : p.left = bs.length

section
variable {p q : DeltaPage} {rest : Bytes} {v : Value}

/-- a value that is read stands in front, and is counted -/
theorem next_token (h : Faces p rest) (hnext : next p = (.ok v, q)) :
    ∃ payload rest' : Bytes, payload.length < 2 ^ 32 ∧
      v = .byteArray (Plain.byteArray payload) ∧ rest = Plain.byteArray payload ++ rest' ∧
      Faces q rest' := by
  have hrest : p.values.cursor.rest = rest := h.rest
  have hremaining : p.values.remaining = rest.length := congrArg List.length hrest
  rcases Nat.lt_or_ge p.values.remaining 4 with hshort | hlong
  · obtain ⟨x, hrun⟩ := Plain.Decoder.byteArray_short hshort
    rw [next, hrun] at hnext
    cases hnext
  rcases Nat.lt_or_ge p.values.remaining (4 + p.values.nextLength) with hmissing | hwhole
  · obtain ⟨x, hrun⟩ := Plain.Decoder.byteArray_missing hlong hmissing
    rw [next, hrun] at hnext
    cases hnext
  rw [next, Plain.Decoder.byteArray_ok hwhole] at hnext
  cases hnext
  -- the length says how long the payload is
  have hhead : (rest.take 4).length = 4 := List.length_take_of_le (by omega)
  have hlength : ((rest.drop 4).take p.values.nextLength).length = p.values.nextLength := by
    rw [List.length_take, List.length_drop]
    omega
  have htoken : rest.take (4 + p.values.nextLength) =
      Plain.byteArray ((rest.drop 4).take p.values.nextLength) := by
    have hspelled := toLE_fromLE (rest.take 4)
    rw [hhead] at hspelled
    rw [List.take_add, Plain.byteArray, hlength, Plain.Decoder.nextLength, hrest, hspelled]
  refine ⟨(rest.drop 4).take p.values.nextLength, rest.drop (4 + p.values.nextLength), ?_, ?_, ?_,
    ?_, ?_⟩
  · have hlt := fromLE_lt (rest.take 4)
    rw [hhead] at hlt
    rw [hlength, Plain.Decoder.nextLength, hrest]
    exact hlt
  · rw [hrest, htoken]
  · rw [← htoken, List.take_append_drop]
  · show p.values.cursor.rest.drop _ = _
    rw [hrest]
  · show p.left - (p.values.cursor.rest.take _).length = _
    rw [h.left, List.length_take, List.length_drop, hrest]
    omega

theorem byteLen_token (payload : Bytes) :
    (Value.byteArray (Plain.byteArray payload)).byteLen = terminatorSize + payload.length :=
  length_byteArray payload

/-- a run of `room` values at most is taken off the front, and counted; it stops behind an empty
value, with no more room, or in front of less than a length -/
theorem takeRun_run (room : Nat) : ∀ {taken n : Nat} {p q : DeltaPage} {b b' : Batch}
    {rest : Bytes}, Faces p rest → b.values.length + room ≤ batchSize →
    takeRun room taken (p, b) = (.ok n, (q, b')) →
    ∃ (t : Run) (rest' : Bytes), rest = t.bytes ++ rest' ∧ Faces q rest' ∧
      b' = b.putAll t.values ∧ n = taken + t.bytes.length ∧ t.Cut room rest' := by
  induction room with
  | zero =>
    intro taken n p q b b' rest h _ hrun
    cases hrun
    exact ⟨⟨[], false⟩, rest, rfl, h, (Batch.putAll_nil b).symm, rfl,
      List.forall_mem_nil _, Nat.le_refl 0, fun _ => .inl rfl⟩
  | succ room ih =>
    intro taken n p q b b' rest h hroom hrun
    by_cases hleft : p.left < terminatorSize
    · rw [takeRun_stop hleft] at hrun
      cases hrun
      exact ⟨⟨[], false⟩, rest, rfl, h, (Batch.putAll_nil b).symm, rfl,
        List.forall_mem_nil _, Nat.zero_le _, fun _ => .inr (h.left ▸ hleft)⟩
    rcases hnext : next p with ⟨x | v, p'⟩
    · rw [takeRun_unread hleft hnext] at hrun
      cases hrun
    obtain ⟨payload, rest', hlt, rfl, rfl, h'⟩ := next_token h hnext
    by_cases hempty : payload = []
    · subst hempty
      rw [takeRun_end hleft hnext rfl] at hrun
      cases hrun
      exact ⟨⟨[], true⟩, rest', rfl, h', (Batch.putAll_nil b).symm, rfl,
        List.forall_mem_nil _, Nat.zero_le _, fun hfalse => nomatch hfalse⟩
    · have hmore : (b.putAll [.byteArray (Plain.byteArray payload)]).values.length =
          b.values.length + 1 := List.length_append
      have hpos := List.length_pos_iff.mpr hempty
      have hv : ¬ (Value.byteArray (Plain.byteArray payload)).byteLen = terminatorSize := by
        rw [byteLen_token]
        omega
      rw [takeRun_next hleft hnext hv (by omega)] at hrun
      obtain ⟨t, rest'', hrest, hfaces, hb, hn, hcut⟩ := ih h' (by omega) hrun
      refine ⟨⟨.byteArray (Plain.byteArray payload) :: t.values, t.ended⟩, rest'', ?_, hfaces, ?_,
        ?_, ?_, Nat.succ_le_succ hcut.length, fun hended => ?_⟩
      · rw [hrest, Run.bytes_cons, List.append_assoc]
        rfl
      · rw [hb, Batch.putAll_cons]
      · rw [hn, Run.bytes_cons, List.length_append, Nat.add_assoc]
        rfl
      · exact List.forall_mem_cons.mpr ⟨⟨payload, hempty, hlt, rfl⟩, hcut.full⟩
      · exact (hcut.stops hended).imp_left (congrArg Nat.succ)

end

/-! ## reads -/

/-- a read that succeeded: the reader in front of it and behind it, and what it answered -/
structure Reading where
  before : DeltaReader
  count : Nat
  batch : Batch
  after : DeltaReader

/-- reads that succeed, one after the other, whatever the batches hold that they fill -/
inductive Reads : DeltaReader → List Reading → DeltaReader → Prop
  | none {r : DeltaReader} : Reads r [] r
  | more {r s t : DeltaReader} {v b : Batch} {n : Nat} {os : List Reading}
    (h : read (r, v) = (.ok n, (s, b))) (hs : Reads s os t) : Reads r (⟨r, n, b, s⟩ :: os) t

/-- a read takes the run `t` -/
structure Reading.Takes (o : Reading) (t : Run) : Prop where
  /-- it gives the values of the run, in slots of which none is empty -/
  batch : o.batch = ⟨t.values, t.values.length, 0⟩
  count : o.count = t.bytes.length
  full : ∀ v ∈ t.values, Full v
  length : t.values.length ≤ batchSize
  /-- a run that no empty value ends fills the batch, or less than a length is left behind it -/
  stops : o.before.progress = .ready → t.ended = false →
    t.values.length = batchSize ∨ o.after.pageBytes < terminatorSize
  exhausted : o.after.progress = .exhausted ↔ t.values = []
  /-- behind the end of the column a read takes nothing, and the reader stays -/
  behind : o.before.progress = .exhausted → o.count = 0 ∧ o.after = o.before

/-- the reader is prepared, and `bs` is in front of it in its page -/
structure Stands (r : DeltaReader) (bs : Bytes) : Prop where
  prepared : r.progress ≠ .uninitialized
  page : ∃ p, r.page = some p ∧ Faces p bs

theorem Stands.pageBytes {r : DeltaReader} {bs : Bytes} (h : r.Stands bs) :
    r.pageBytes = bs.length := by
  obtain ⟨p, hpage, hfaces⟩ := h.page
  rw [DeltaReader.pageBytes, hpage]
  exact hfaces.left

/-- a read takes a run off the front -/
theorem read_run {r s : DeltaReader} {v b : Batch} {n : Nat} {bs : Bytes} (h : r.Stands bs)
    (hread : read (r, v) = (.ok n, (s, b))) :
    ∃ (t : Run) (rest : Bytes), bs = t.bytes ++ rest ∧ s.Stands rest ∧
      Reading.Takes ⟨r, n, b, s⟩ t := by
  obtain ⟨p, hpage, hfaces⟩ := h.page
  cases hready : r.progress with
  | uninitialized => exact absurd hready h.prepared
  | exhausted =>
    rw [read_exhausted hready] at hread
    cases hread
    exact ⟨⟨[], false⟩, bs, rfl, h, rfl, rfl, List.forall_mem_nil _, Nat.zero_le _,
      fun hr => (nomatch hready.symm.trans hr), ⟨fun _ => rfl, fun _ => hready⟩,
      fun _ => ⟨rfl, rfl⟩⟩
  | ready =>
    rcases hrun : takeRun batchSize 0 (p, {}) with ⟨x | m, q, b'⟩
    · rw [read_unread hready hpage hrun] at hread
      cases hread
    obtain ⟨t, rest, hbs, hq, rfl, hm, hcut⟩ := takeRun_run batchSize hfaces (Nat.le_refl _) hrun
    rw [read_taken hready hpage hrun, settle_putAll] at hread
    cases hread
    have hprogress : (if t.values.isEmpty then Progress.exhausted else r.progress) = .exhausted ↔
        t.values = [] := by
      rw [hready]
      cases t.values <;> simp
    refine ⟨t, rest, hbs, ⟨?_, q, rfl, hq⟩, rfl, hm.trans (Nat.zero_add _), hcut.full,
      hcut.length, fun _ hended => ?_, hprogress, fun hr => nomatch hready.symm.trans hr⟩
    · show (if t.values.isEmpty then Progress.exhausted else r.progress) ≠ .uninitialized
      rw [hready]
      cases t.values <;> simp
    · show t.values.length = batchSize ∨ q.left < terminatorSize
      rw [hq.left]
      exact hcut.stops hended

/-- a row of reads takes a row of runs off the front -/
theorem reads_runs {r s : DeltaReader} {os : List Reading} (hreads : Reads r os s) :
    ∀ {bs : Bytes}, r.Stands bs → ∃ (ts : List Run) (rest : Bytes),
      List.Forall₂ Reading.Takes os ts ∧ bs = ts.flatMap Run.bytes ++ rest ∧ s.Stands rest := by
  induction hreads with
  | none => exact fun {bs} h => ⟨[], bs, .nil, rfl, h⟩
  | more hread _ ih =>
    intro bs h
    obtain ⟨t, rest, rfl, hstands, htakes⟩ := read_run h hread
    obtain ⟨ts, rest', htakes', rfl, hstands'⟩ := ih hstands
    refine ⟨t :: ts, rest', .cons htakes htakes', ?_, hstands'⟩
    rw [List.flatMap_cons, List.append_assoc]

/-- what is counted is as long as the runs are -/
theorem sum_counts {os : List Reading} {ts : List Run} (h : List.Forall₂ Reading.Takes os ts) :
    (os.map Reading.count).sum = (ts.flatMap Run.bytes).length := by
  induction h with
  | nil => rfl
  | cons htakes _ ih =>
    rw [List.map_cons, List.sum_cons, ih, htakes.count, List.flatMap_cons, List.length_append]

/-! ## chunks -/

variable {r r' : DeltaReader} {column : Nat} {schema : SchemaElement} {chunk : ColumnChunk}
  {p : DeltaPage}

/-- a page that was opened is the dictionary page at the front of its chunk -/
theorem openPage_eq_some {b : Binding} {buffer : Bytes} {o : Options}
    (h : openPage b buffer o = .ok (some p)) : 0 < b.numValues ∧ ∃ page,
      (DictionaryPage.read o).answer (.ofBytes (b.bytes buffer)) = .ok page ∧
      Faces p page.body := by
  unfold openPage at h
  split at h
  · cases h
  · rename_i hne
    rcases hread : DictionaryPage.read o (.ofBytes (b.bytes buffer)) with ⟨x | page, c⟩
    · have hpage : DeltaPage.read o (.ofBytes (b.bytes buffer)) = (.error x, c) :=
        bind_error hread _
      rw [answer, hpage] at h
      cases h
    · have hpage : DeltaPage.read o (.ofBytes (b.bytes buffer)) =
          (.ok ⟨{ cursor := .ofBytes page.body, type := .byteArray, width := 0 },
            page.body.length⟩, c) := bind_ok hread _
      rw [answer, hpage] at h
      cases h
      refine ⟨by omega, page, ?_, rfl, rfl⟩
      rw [answer, hread]

/-- a reader that was prepared stands at the front of its page -/
theorem prepare_page (hprepare : prepare column schema chunk r = (.ok (), r'))
    (hpage : r'.page = some p) : ∃ b page,
      bind column schema chunk r.buffer.length = .ok b ∧ 0 < b.numValues ∧
      (DictionaryPage.read r.options).answer (.ofBytes (b.bytes r.buffer)) = .ok page ∧
      r'.Stands page.body := by
  rcases hbind : bind column schema chunk r.buffer.length with x | b
  · rw [prepare_unbound hbind] at hprepare
    cases hprepare
  rw [prepare_bound hbind] at hprepare
  obtain ⟨page, s, hopen, hput⟩ := bind_eq_ok.mp (within_eq_ok hprepare)
  cases hput
  obtain ⟨hanswer, -⟩ := Prod.mk.inj hopen
  replace hanswer : openPage b r.buffer r.options = .ok page := hanswer
  obtain rfl : page = some p := hpage
  obtain ⟨hvalues, body, hbody, hfaces⟩ := openPage_eq_some hanswer
  exact ⟨b, body, rfl, hvalues, hbody, Progress.noConfusion, p, rfl, hfaces⟩

/-- the reads of a page, as long as they succeed, cut the front of its body into runs; their
counts say how long it is, and the rest is what is counted as left -/
theorem reads_tokens (hprepare : prepare column schema chunk r = (.ok (), r'))
    (hpage : r'.page = some p) : ∃ b page,
      bind column schema chunk r.buffer.length = .ok b ∧ 0 < b.numValues ∧
      (DictionaryPage.read r.options).answer (.ofBytes (b.bytes r.buffer)) = .ok page ∧
      ∀ os s, Reads r' os s → ∃ ts : List Run,
        List.Forall₂ Reading.Takes os ts ∧
        ts.flatMap Run.bytes = page.body.take (os.map Reading.count).sum ∧
        (os.map Reading.count).sum ≤ page.body.length ∧
        s.pageBytes = page.body.length - (os.map Reading.count).sum := by
  obtain ⟨b, page, hbind, hvalues, hbody, hstands⟩ := prepare_page hprepare hpage
  refine ⟨b, page, hbind, hvalues, hbody, fun os s hreads => ?_⟩
  obtain ⟨ts, rest, htakes, hcut, hstands'⟩ := reads_runs hreads hstands
  have hlength : page.body.length = (ts.flatMap Run.bytes).length + rest.length := by
    rw [hcut, List.length_append]
  refine ⟨ts, htakes, ?_, ?_, ?_⟩
  · rw [sum_counts htakes, hcut, List.take_left]
  · rw [sum_counts htakes, hlength]
    exact Nat.le_add_right _ _
  · rw [sum_counts htakes, hlength, Nat.add_sub_cancel_left]
    exact hstands'.pageBytes

/-- a run that ends, a run that does not, and less than a length behind it -/
theorem reads_tokens_remnant :
    let delta := prepare 0 (.optional "d" .byteArray) (soleChunk "d" .byteArray 2 28 0 (some 0))
      (.ofBuffer [21, 4, 21, 30, 21, 30, 76, 21, 4, 21, 0, 0, 0,
        1, 0, 0, 0, 97, 0, 0, 0, 0, 1, 0, 0, 0, 98, 9] {})
    let t := read (delta.2, {})
    let u := read t.2
    delta.1 = .ok () ∧ t.1 = .ok 9 ∧ u.1 = .ok 5 ∧ ∃ (page : DictionaryPage) (ts : List Run),
      List.Forall₂ Reading.Takes [⟨delta.2, 9, t.2.2, t.2.1⟩, ⟨t.2.1, 5, u.2.2, u.2.1⟩] ts ∧
      ts.flatMap Run.bytes = page.body.take 14 ∧ page.body.length = 15 := by
  intro delta t u
  have hruns : delta.1 = .ok () ∧ delta.2.page.isSome = true ∧ t.1 = .ok 9 ∧ u.1 = .ok 5 ∧
      u.2.1.pageBytes = 1 := by
    decide +kernel +zetaReduce
  have hprepare : prepare _ _ _ _ = delta := rfl
  have hread : read (delta.2, {}) = t := rfl
  have hread' : read t.2 = u := rfl
  clear_value delta t u
  obtain ⟨hok, hsome, ht, hu, hleft⟩ := hruns
  obtain ⟨p, hpage⟩ := Option.isSome_iff_exists.mp hsome
  obtain ⟨_, page, -, -, -, hall⟩ := reads_tokens (hprepare.trans (Prod.ext hok rfl)) hpage
  obtain ⟨ts, htakes, hbytes, hle, hrest⟩ := hall _ _
    (.more (hread.trans (Prod.ext ht rfl)) (.more (hread'.trans (Prod.ext hu rfl)) .none))
  refine ⟨hok, ht, hu, page, ts, htakes, hbytes, ?_⟩
  replace hle : 14 ≤ page.body.length := hle
  replace hrest : u.2.1.pageBytes = page.body.length - 14 := hrest
  omega

end Columnar.DeltaReader
