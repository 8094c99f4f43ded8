import Columnar.Proofs.Column.Bounds
import Columnar.Proofs.Column.Drain

/-!
# The accounts of a column reader

A reader counts what is left of its chunk and of its page.  The counts never say less than there
is, whatever was called and whatever of it failed, and as long as nothing failed they are exact.

* `ColumnReader.Accounts r`       the counts of `r` cover what is left;
* `ColumnReader.Exact r`          they are what is left;
* `ColumnReader.Turns b s ls t`   `s` comes to `t` by slots and pages, and leaves a page at each of
                                  the states `ls`;
* `ColumnReader.Reached`          the states that a reader can come to;
* `ColumnReader.prepare_ends`, `ColumnReader.read_ends`   one call;
* `ColumnReader.Reached.accounts`   any calls.
-/

namespace Columnar

open Step

/-! ## the binding -/

namespace Binding

theorem checkChunk_regular {chunk : ColumnChunk} :
    ∀ e, checkChunk chunk = .error e → e.Regular := by
  intro e he
  unfold checkChunk at he
  repeat' split at he
  all_goals cases he
  all_goals exact fun h => h

theorem checkType_regular {schema : SchemaElement} {m : ColumnMetaData} :
    ∀ e, checkType schema m = .error e → e.Regular := by
  intro e he
  unfold checkType at he
  repeat' split at he
  all_goals cases he
  all_goals exact fun h => h

theorem checkLength_regular {schema : SchemaElement} {t : PhysicalType} :
    ∀ e, checkLength schema t = .error e → e.Regular := by
  intro e he
  unfold checkLength at he
  repeat' split at he
  all_goals cases he
  all_goals exact fun h => h

theorem natural_regular {which : ChunkNumber} {n : Int64} :
    ∀ e, natural which n = .error e → e.Regular := by
  intro e he
  unfold natural at he
  split at he <;> cases he
  exact fun h => h

/-- a chunk that cannot be bound is refused for what it says -/
theorem ofChunk_regular {column size : Nat} {schema : SchemaElement} {chunk : ColumnChunk} :
    ∀ e, ofChunk column schema chunk size = .error e → e.Regular := by
  refine Except.error_of_bind checkChunk_regular fun m => ?_
  refine Except.error_of_bind checkType_regular fun t => ?_
  refine Except.error_of_bind checkLength_regular fun len => ?_
  refine Except.error_of_bind natural_regular fun numValues => ?_
  refine Except.error_of_bind natural_regular fun chunkSize => ?_
  refine Except.error_of_bind ?_ fun offset => ?_
  · cases m.dictionaryPageOffset with
    | none => exact fun _ h => nomatch h
    | some n => exact Except.error_of_bind natural_regular fun _ => pure_regular
  refine Except.error_of_bind ?_ fun start => ?_
  · cases offset with
    | none => exact natural_regular
    | some n => exact fun _ h => nomatch h
  intro e he
  split at he
  · cases he
    exact fun h => h
  · cases he

end Binding

namespace ColumnReader

variable {b : Binding} {r : ColumnReader} {g : Progress} {clean : Prop}

/-- the bytes of the open page that were not consumed, of its levels and of its values -/
def unread (r : ColumnReader) : Nat := (r.page.map OpenPage.left).getD 0

/-- the size of the chunk that the reader is bound to -/
def chunkSize (r : ColumnReader) : Nat := (r.binding.map Binding.size).getD 0

/-- the counts of a reader cover what is left -/
structure Accounts (r : ColumnReader) : Prop where
  values : r.pageValues ≤ r.columnValues
  page : 0 < r.pageValues → r.page.isSome
  bytes : r.chunk.remaining + r.pageBytes ≤ r.columnBytes
  size : r.columnBytes ≤ r.chunkSize
  left : r.unread ≤ r.pageBytes

/-- the counts of a reader are what is left -/
structure Exact (r : ColumnReader) : Prop where
  bytes : r.chunk.remaining + r.pageBytes = r.columnBytes
  left : r.unread = r.pageBytes

theorem accounts_ofBuffer (buffer : Bytes) (o : Options) : (ofBuffer buffer o).Accounts :=
  ⟨Nat.le_refl _, nofun, Nat.le_refl _, Nat.le_refl _, Nat.le_refl _⟩

/-- a reader that is bound to `b` and has come as far as `g`; `clean` says that nothing failed
since -/
structure Kept (clean : Prop) (g : Progress) (b : Binding) (r : ColumnReader) : Prop where
  binding : r.binding = some b
  bounded : b.Bounded
  lies : b.start + b.size ≤ r.buffer.length
  chunk : r.chunk.size = b.size
  progress : r.progress = g
  accounts : r.Accounts
  exact : clean → r.Exact
  sound : ∀ p ∈ r.page, p.Sound r.buffer.length

theorem Kept.imp (h : r.Kept clean g b) {clean' : Prop} (himp : clean' → clean) :
    r.Kept clean' g b := { h with exact := fun hclean => h.exact (himp hclean) }

/-- moving the cursor over the chunk on leaves bytes out of the counts -/
theorem Kept.moved (h : r.Kept clean g b) {c : Cursor} (hc : r.chunk.Follows c) :
    ({ r with chunk := c } : ColumnReader).Kept False g b := by
  have hbytes := h.accounts.bytes
  have hrem := hc.remaining
  have hpos := hc.pos
  refine { h with
    chunk := hc.size.trans h.chunk
    exact := False.elim
    accounts := { h.accounts with bytes := ?_, size := h.accounts.size, left := h.accounts.left } }
  show c.remaining + r.pageBytes ≤ r.columnBytes
  omega

/-- a page that is passed leaves the counts, and may leave a dictionary -/
theorem Kept.passed (h : r.Kept clean g b) {c : Cursor} (hc : r.chunk.Follows c)
    (dictionary : List Value) : ({ r with
      chunk := c
      columnBytes := r.columnBytes - (c.pos - r.chunk.pos)
      dictionary } : ColumnReader).Kept clean g b := by
  have hbytes := h.accounts.bytes
  have hrem := hc.remaining
  have hpos := hc.pos
  refine ⟨h.binding, h.bounded, h.lies, hc.size.trans h.chunk, h.progress,
    ⟨h.accounts.values, h.accounts.page, ?_, ?_, h.accounts.left⟩, fun hclean => ?_, h.sound⟩
  · show c.remaining + r.pageBytes ≤ r.columnBytes - (c.pos - r.chunk.pos)
    omega
  · exact Nat.le_trans (Nat.sub_le _ _) h.accounts.size
  · have hexact := (h.exact hclean).bytes
    refine ⟨?_, (h.exact hclean).left⟩
    show c.remaining + r.pageBytes = r.columnBytes - (c.pos - r.chunk.pos)
    omega

/-! ## the dictionary -/

theorem entries_regular {page : DictionaryPage} :
    ∀ e, entries page b = .error e → e.Regular := by
  intro e he
  unfold entries at he
  rcases hd : Plain.Decoder.ofBytes page.body b.type b.typeLength with x | d
  · rw [hd] at he
    cases he
    exact Plain.Decoder.ofBytes_regular e hd
  · rw [Except.bind_ok hd] at he
    have hbit : d.bitOffset < 8 := by
      rw [(Plain.Decoder.ofBytes_start hd).2]
      decide
    have hfails := fails_times (Plain.Decoder.value_onward d) (Plain.Decoder.value_fails d)
      page.numValues d (.refl hbit)
    rcases hrun : Step.times page.numValues Plain.Decoder.value d with ⟨x | vs, d'⟩
    · rw [hrun] at he hfails
      cases he
      exact hfails e rfl
    · rw [hrun] at he
      dsimp only at he
      split at he
      · cases he
      · cases he
        exact fun h => h

/-- the dictionary is read, and its page is no longer left -/
theorem loadDictionary_ends (hr : r.Kept clean g b) (hpage : r.page = none)
    (hvalues : r.pageValues = 0) :
    Ends (fun _ t => t.Kept clean g b ∧ t.page = none ∧ t.pageValues = 0)
      (fun x t => t.Kept False g b ∧ x.Regular) (loadDictionary r) := by
  rw [loadDictionary, bind_ok (bound_ok hr.binding), state_bind]
  split
  · split
    · exact ⟨hr.imp False.elim, fun h => h⟩
    · have hread := (DictionaryPage.read_maintains r.options r.chunk).ends
        (DictionaryPage.read_fails r.options r.chunk) (.refl _)
      rcases h : DictionaryPage.read r.options r.chunk with ⟨x | page, c⟩
      · rw [h] at hread
        rw [bind_error (onChunk_apply h)]
        exact ⟨hr.moved hread.1, hread.2⟩
      · rw [h] at hread
        have hfollows : r.chunk.Follows c := hread.1
        have hpos := hfollows.pos
        have hrem := hfollows.remaining
        have hbytes := hr.accounts.bytes
        rw [bind_ok (onChunk_apply h)]
        rcases he : entries page b with x | vs
        · exact ⟨hr.moved hfollows, entries_regular x he⟩
        · have hpassed := passed_ok (r := { r with chunk := c }) hpos
            (show c.pos - r.chunk.pos ≤ r.columnBytes by omega)
          refine ends_bind (A := fun a t => a = vs ∧ t = { r with chunk := c }) ⟨rfl, rfl⟩ ?_
          rintro _ _ ⟨rfl, rfl⟩
          rw [bind_ok hpassed]
          exact ⟨hr.passed hfollows _, hpage, hvalues⟩
  · exact ⟨hr, hpage, hvalues⟩

/-! ## pages -/

/-- a reader that has left its page -/
def pageLeft (r : ColumnReader) : ColumnReader :=
  { r with columnBytes := r.columnBytes - r.pageBytes, pageBytes := 0, page := none }

theorem Kept.pageLeft (h : r.Kept clean g b) (hzero : r.pageValues = 0) :
    r.pageLeft.Kept clean g b := by
  have hbytes := h.accounts.bytes
  refine ⟨h.binding, h.bounded, h.lies, h.chunk, h.progress,
    ⟨h.accounts.values, fun hpos => absurd hpos ?_, ?_, ?_, Nat.le_refl _⟩, fun hclean => ?_,
    nofun⟩
  · show ¬ 0 < r.pageValues
    omega
  · show r.chunk.remaining + 0 ≤ r.columnBytes - r.pageBytes
    omega
  · exact Nat.le_trans (Nat.sub_le _ _) h.accounts.size
  · have hexact := (h.exact hclean).bytes
    refine ⟨?_, rfl⟩
    show r.chunk.remaining + 0 = r.columnBytes - r.pageBytes
    omega

theorem openPage_apply (h : r.pageBytes ≤ r.columnBytes) :
    openPage r = (do
      let page ← onChunk (DataPage.read r.options)
      let (size, _) ← passed r.chunk.pos
      enterPage page size : Step ColumnReader Failure Nat) r.pageLeft := by
  rw [openPage, state_bind, subtract_bind h]
  rfl

/-- a page of `size` bytes is entered behind its header, or is refused -/
theorem enterPage_ends {t : ColumnReader} {page : DataPage} {c : Cursor}
    (ht : t.Kept clean g b) (hbytes : t.pageBytes = 0)
    (hc : t.chunk.Follows c) (hbody : t.chunk.pos + page.body.length ≤ c.pos) :
    Ends (fun n u => u.Kept clean g b ∧ 0 < u.pageValues ∧ u.columnValues = t.columnValues ∧
        t.columnBytes = u.columnBytes + n)
      (fun x u => u.Kept False g b ∧ x.Regular)
      (enterPage page (c.pos - t.chunk.pos) { t with chunk := c }) := by
  have hrem := hc.remaining
  have hleft := ht.accounts.bytes
  have hmoved := ht.moved hc
  have hcounts : page.numValues = 0 ∨ t.columnValues < page.numValues ∨
      (page.numValues ≠ 0 ∧ page.numValues ≤ t.columnValues) := by omega
  rcases hcounts with hcount | hcount | ⟨hsome, hmany⟩
  · rw [enterPage, state_bind, if_pos hcount]
    exact ⟨hmoved, fun h => h⟩
  · rw [enterPage, state_bind, if_neg (by omega), if_pos hcount]
    exact ⟨hmoved, fun h => h⟩
  · rcases hopen : openBody b page with x | ⟨p, front⟩
    · rw [enterPage_body (r := { t with chunk := c }) ht.binding hsome hmany hopen]
      exact ⟨hmoved, openBody_regular x hopen⟩
    · obtain ⟨hread, hfront⟩ := openBody_left ht.bounded hopen
      have hsound := openBody_sound ht.bounded hopen
      have hchunk := ht.chunk
      have hlies := ht.lies
      have hsize := ht.accounts.size
      have hremaining := hc.size
      have hend := Cursor.pos_add_remaining c
      rw [enterPage_ok (r := { t with chunk := c }) (c.pos - t.chunk.pos) ht.binding hsome hmany
        hopen (by omega) (by omega)
        (show c.pos - t.chunk.pos ≤ t.columnBytes by omega)]
      refine ⟨⟨ht.binding, ht.bounded, ht.lies, hmoved.chunk, ht.progress,
        ⟨hmany, fun _ => rfl, ?_, ?_, ?_⟩, fun hclean => ⟨?_, ?_⟩, ?_⟩,
        Nat.pos_of_ne_zero hsome, rfl, ?_⟩
      · show c.remaining + (c.pos - t.chunk.pos - (c.pos - t.chunk.pos - page.body.length + front))
          ≤ t.columnBytes - (c.pos - t.chunk.pos - page.body.length + front)
        omega
      · exact Nat.le_trans (Nat.sub_le _ _) hsize
      · show p.left ≤ c.pos - t.chunk.pos - (c.pos - t.chunk.pos - page.body.length + front)
        omega
      · have hexact := (ht.exact hclean).bytes
        show c.remaining + (c.pos - t.chunk.pos - (c.pos - t.chunk.pos - page.body.length + front))
          = t.columnBytes - (c.pos - t.chunk.pos - page.body.length + front)
        omega
      · show p.left = c.pos - t.chunk.pos - (c.pos - t.chunk.pos - page.body.length + front)
        omega
      · rintro q hq
        cases hq
        refine { hsound with size := Nat.le_trans hsound.size ?_ }
        show page.body.length ≤ t.buffer.length
        omega
      · show t.columnBytes = t.columnBytes - (c.pos - t.chunk.pos - page.body.length + front) +
          (c.pos - t.chunk.pos - page.body.length + front)
        omega

/-- the next page is opened, and what was left of the last one is passed over; or it is
refused -/
theorem openPage_ends (hr : r.Kept clean g b) (hzero : r.pageValues = 0) :
    Ends (fun n t => t.Kept clean g b ∧ 0 < t.pageValues ∧ t.columnValues = r.columnValues ∧
        r.columnBytes = t.columnBytes + n + r.pageBytes)
      (fun x t => t.Kept False g b ∧ x.Regular) (openPage r) := by
  have hbytes := hr.accounts.bytes
  have hleft := hr.pageLeft hzero
  have hread := (DataPage.read_maintains r.options r.chunk).ends
    (DataPage.read_fails r.options r.chunk) (.refl _)
  rw [openPage_apply (by omega)]
  rcases h : DataPage.read r.options r.chunk with ⟨x | page, c⟩
  · rw [h] at hread
    rw [bind_error (onChunk_apply (r := r.pageLeft) h)]
    exact ⟨hleft.moved hread.1, hread.2⟩
  · rw [h] at hread
    have hfollows : r.chunk.Follows c := hread.1
    have hpos := hfollows.pos
    have hrem := hfollows.remaining
    have hpassed := passed_ok (r := { r.pageLeft with chunk := c }) hpos
      (show c.pos - r.chunk.pos ≤ r.columnBytes - r.pageBytes by omega)
    rw [bind_ok (onChunk_apply (r := r.pageLeft) h), bind_ok hpassed]
    refine (enterPage_ends hleft rfl hfollows (DataPage.read_pos h)).mono ?_ fun _ _ h => h
    rintro n t ⟨hkept, hvalues, hcount, hsum⟩
    refine ⟨hkept, hvalues, hcount, ?_⟩
    have hsum' : r.columnBytes - r.pageBytes = t.columnBytes + n := hsum
    omega

/-- the next page is opened where nothing is left of the last one -/
theorem turnPage_ends (hr : r.Kept clean g b) :
    Ends (fun n t => t.Kept clean g b ∧ 0 < t.pageValues ∧ t.columnValues = r.columnValues ∧
        (r.pageValues = 0 ∧ openPage r = (.ok n, t) ∧
            r.columnBytes = t.columnBytes + n + r.pageBytes ∨
          0 < r.pageValues ∧ n = 0 ∧ t = r))
      (fun x t => t.Kept False g b ∧ x.Regular) (turnPage b r) := by
  rcases Nat.eq_zero_or_pos r.pageValues with hzero | hpos
  · have hopen := openPage_ends hr hzero
    rw [turnPage_opens hzero]
    rcases h : openPage r with ⟨x | n, t⟩
    · rw [h] at hopen
      rw [within_error h]
      exact ⟨hopen.1, hopen.2.within _⟩
    · rw [h] at hopen
      obtain ⟨hkept, hvalues, hcount, hsum⟩ := hopen
      rw [within_ok h]
      exact ⟨hkept, hvalues, hcount, Or.inl ⟨hzero, rfl, hsum⟩⟩
  · rw [turnPage_stays hpos]
    exact ⟨hr, hpos, rfl, Or.inr ⟨hpos, rfl, rfl⟩⟩

/-- a reader that took `count` slots and `bytes` bytes of its page -/
theorem Kept.after (hr : r.Kept clean g b) {p q : OpenPage} (hp : r.page = some p)
    (hq : q.Sound r.buffer.length) (count : Nat) {bytes : Nat}
    (hbytes : p.left = q.left + bytes) : (r.after q count bytes).Kept clean g b := by
  have hleft : p.left ≤ r.pageBytes := by
    have := hr.accounts.left
    rwa [unread, hp] at this
  have hvalues := hr.accounts.values
  have hchunk := hr.accounts.bytes
  refine ⟨hr.binding, hr.bounded, hr.lies, hr.chunk, hr.progress,
    ⟨Nat.sub_le_sub_right hvalues count, fun _ => rfl, ?_, ?_, ?_⟩, fun hclean => ⟨?_, ?_⟩, ?_⟩
  · show r.chunk.remaining + (r.pageBytes - bytes) ≤ r.columnBytes - bytes
    omega
  · exact Nat.le_trans (Nat.sub_le _ _) hr.accounts.size
  · show q.left ≤ r.pageBytes - bytes
    omega
  · have hexact := (hr.exact hclean).bytes
    show r.chunk.remaining + (r.pageBytes - bytes) = r.columnBytes - bytes
    omega
  · have hexact := (hr.exact hclean).left
    rw [unread, hp] at hexact
    have hexact' : p.left = r.pageBytes := hexact
    show q.left = r.pageBytes - bytes
    omega
  · rintro q' hq'
    cases hq'
    exact hq

/-- a page of which not all could be taken -/
theorem Kept.withPage (hr : r.Kept clean g b) {p q : OpenPage} (hp : r.page = some p)
    (hq : q.Sound r.buffer.length) (hle : q.left ≤ p.left) :
    ({ r with page := some q } : ColumnReader).Kept False g b := by
  have hleft : p.left ≤ r.pageBytes := by
    have := hr.accounts.left
    rwa [unread, hp] at this
  refine { hr with
    accounts := ⟨hr.accounts.values, fun _ => rfl, hr.accounts.bytes, hr.accounts.size,
      Nat.le_trans hle hleft⟩
    exact := False.elim
    sound := ?_ }
  rintro q' hq'
  cases hq'
  exact hq

/-- slots that were taken off the open page are taken off the counts -/
theorem takePage_taken (hr : r.Kept clean g b) {batch batch' : Batch} {p q : OpenPage} {bytes : Nat}
    (hp : r.page = some p) (hleft : p.left = q.left + bytes)
    (h : OpenPage.takeSlots r.dictionary (min r.pageValues (batchSize - batch.total)) (p, batch) =
      (.ok bytes, (q, batch'))) :
    takePage b (r, batch) = (.ok bytes,
      (r.after q (min r.pageValues (batchSize - batch.total)) bytes, batch')) := by
  have hpage : p.left ≤ r.pageBytes := by
    have := hr.accounts.left
    rwa [unread, hp] at this
  have hvalues := hr.accounts.values
  have hbytes := hr.accounts.bytes
  exact takePage_ok hp h (by omega) (by omega) hvalues

/-- slots of the open page go into the batch, or they cannot be taken -/
theorem takePage_ends {batch : Batch} {s : List (Option Value)} (hr : r.Kept clean g b)
    (hpos : 0 < r.pageValues) (hs : batch.Holds s) (hroom : s.length < batchSize) :
    Ends (fun bytes t => t.1.Kept clean g b ∧ r.columnBytes = t.1.columnBytes + bytes ∧
        ∃ S : List (Option Value), t.2.Holds (s ++ S) ∧ 0 < S.length ∧
          s.length + S.length ≤ batchSize ∧ r.columnValues = t.1.columnValues + S.length)
      (fun x t => t.1.Kept False g b ∧ x.Regular) (takePage b (r, batch)) := by
  obtain ⟨p, hp⟩ := Option.isSome_iff_exists.mp (hr.accounts.page hpos)
  have hleft : p.left ≤ r.pageBytes := by
    have := hr.accounts.left
    rwa [unread, hp] at this
  have htotal := hs.total
  have hvalues := hr.accounts.values
  have hbytes := hr.accounts.bytes
  have hends := OpenPage.takeSlots_ends r.dictionary (hr.sound p hp) hs
    (show s.length + min r.pageValues (batchSize - batch.total) ≤ batchSize by omega)
  rcases h : OpenPage.takeSlots r.dictionary (min r.pageValues (batchSize - batch.total))
    (p, batch) with ⟨x | bytes, q, batch'⟩
  · rw [h] at hends
    obtain ⟨hq, hle, hx⟩ := hends
    rw [takePage_error hp h]
    exact ⟨hr.withPage hp hq hle, hx.within _⟩
  · rw [h] at hends
    obtain ⟨hq, hsum, S, hS, hholds⟩ := hends
    have hsum' : p.left = q.left + bytes := hsum
    rw [takePage_taken hr hp hsum' h]
    refine ⟨hr.after hp hq _ hsum', ?_, S, hholds, by omega, by omega, ?_⟩
    · show r.columnBytes = r.columnBytes - bytes + bytes
      omega
    · show r.columnValues = r.columnValues - _ + S.length
      omega

/-! ## batches -/

/-- `s` comes to `t` by slots and pages, and leaves a page at each of the states `ls` -/
inductive Turns (b : Binding) :
    ColumnReader × Batch → List ColumnReader → ColumnReader × Batch → Prop where
  | done (s : ColumnReader × Batch) : Turns b s [] s
  | last (s : ColumnReader × Batch) (h : s.1.columnValues = 0) :
      Turns b s [] ({ s.1 with progress := .exhausted }, s.2)
  | slots {s t u : ColumnReader × Batch} {n : Nat} {ls : List ColumnReader}
      (hleft : 0 < s.1.pageValues) (h : takePage b s = (.ok n, t)) (hrest : Turns b t ls u) :
      Turns b s ls u
  | page {r r' : ColumnReader} {batch : Batch} {u : ColumnReader × Batch} {n : Nat}
      {ls : List ColumnReader} (hleft : r.pageValues = 0) (h : openPage r = (.ok n, r'))
      (hrest : Turns b (r', batch) ls u) : Turns b (r, batch) (r :: ls) u

/-- what a batch takes off the counts: its slots, the bytes that were told, and what the pages
that were left behind had left -/
structure Spent (clean : Prop) (b : Binding) (s : ColumnReader × Batch) (bytes : Nat)
    (t : ColumnReader × Batch) : Prop where
  values : s.1.columnValues + s.2.total = t.1.columnValues + t.2.total
  bytes : ∃ ls, Turns b s ls t ∧
    s.1.columnBytes = t.1.columnBytes + bytes + (ls.map pageBytes).sum ∧
    ∀ q ∈ ls, q.Accounts ∧ (clean → q.Exact)

theorem Spent.refl (s : ColumnReader × Batch) : Spent clean b s 0 s :=
  ⟨rfl, [], .done s, rfl, List.forall_mem_nil _⟩

/-- slots of the open page in front -/
theorem Spent.slots {s t u : ColumnReader × Batch} {n m : Nat} (hleft : 0 < s.1.pageValues)
    (h : takePage b s = (.ok n, t)) (hbytes : s.1.columnBytes = t.1.columnBytes + n)
    (hvalues : s.1.columnValues + s.2.total = t.1.columnValues + t.2.total)
    (hrest : Spent clean b t m u) : Spent clean b s (n + m) u := by
  obtain ⟨ls, hturns, hsum, hls⟩ := hrest.bytes
  refine ⟨hvalues.trans hrest.values, ls, .slots hleft h hturns, ?_, hls⟩
  omega

/-- a page that is left behind in front -/
theorem Spent.page {r' : ColumnReader} {batch : Batch} {u : ColumnReader × Batch} {n m : Nat}
    (hr : r.Kept clean g b) (hleft : r.pageValues = 0) (h : openPage r = (.ok n, r'))
    (hbytes : r.columnBytes = r'.columnBytes + n + r.pageBytes)
    (hvalues : r'.columnValues = r.columnValues) (hrest : Spent clean b (r', batch) m u) :
    Spent clean b (r, batch) (n + m) u := by
  obtain ⟨ls, hturns, hsum, hls⟩ := hrest.bytes
  refine ⟨(congrArg (· + batch.total) hvalues.symm).trans hrest.values, r :: ls,
    .page hleft h hturns, ?_, List.forall_mem_cons.mpr ⟨⟨hr.accounts, hr.exact⟩, hls⟩⟩
  have hsum' : r'.columnBytes = u.1.columnBytes + m + (ls.map pageBytes).sum := hsum
  rw [List.map_cons, List.sum_cons]
  show r.columnBytes = _
  omega

/-- a batch is filled, or there is not enough left; either way the accounts are kept -/
theorem fill_ends (fuel : Nat) : ∀ (taken : Nat) {r : ColumnReader} {batch : Batch}
    {s : List (Option Value)}, r.Kept clean g b → batch.Holds s → s.length ≤ batchSize →
    Ends (fun n t => ∃ bytes, n = taken + bytes ∧ t.1.Kept clean g b ∧
        Spent clean b (r, batch) bytes t)
      (fun x t => t.1.Kept False g b ∧ x.Regular) (fill fuel taken (r, batch)) := by
  induction fuel with
  | zero => exact fun taken _ _ _ hr _ _ => ⟨0, rfl, hr, .refl _⟩
  | succ fuel ih =>
    intro taken r batch s hr hs hroom
    have htotal := hs.total
    by_cases hgo : batch.total < batchSize ∧ 0 < r.columnValues
    · rw [fill, state_bind]
      dsimp only
      rw [if_pos hgo, bind_ok (onFst_ok (bound_ok hr.binding) batch)]
      have hturn := turnPage_ends hr
      rcases h : turnPage b r with ⟨x | upfront, r₁⟩
      · rw [h] at hturn
        rw [bind_error (onFst_error h batch)]
        exact hturn
      rw [h] at hturn
      obtain ⟨hr₁, hpos, hcount, hopened⟩ := hturn
      rw [bind_ok (onFst_ok h batch)]
      have htake := takePage_ends hr₁ hpos hs (by omega)
      rcases h' : takePage b (r₁, batch) with ⟨x | bytes, r₂, batch₂⟩
      · rw [h'] at htake
        rw [bind_error h']
        exact htake
      rw [h'] at htake
      obtain ⟨hr₂, hbytes, S, hholds, -, hfits, hvalues⟩ := htake
      rw [bind_ok h']
      have hlen : (s ++ S).length = s.length + S.length := List.length_append
      have htotal₂ : batch₂.total = (s ++ S).length := hholds.total
      refine (ih _ hr₂ hholds (by omega)).mono ?_ fun _ _ h => h
      rintro n t ⟨rest, rfl, hkept, hspent⟩
      have hslots : Spent clean b (r₁, batch) (bytes + rest) t := by
        refine .slots hpos h' hbytes ?_ hspent
        have hvalues' : r₁.columnValues = r₂.columnValues + S.length := hvalues
        show r₁.columnValues + batch.total = r₂.columnValues + batch₂.total
        omega
      refine ⟨upfront + (bytes + rest), by omega, hkept, ?_⟩
      rcases hopened with ⟨hzero, hopen, hsum⟩ | ⟨-, rfl, rfl⟩
      · exact .page hr hzero hopen hsum hcount hslots
      · rw [Nat.zero_add]
        exact hslots
    · rw [fill_stop hgo]
      exact ⟨0, rfl, hr, .refl _⟩

/-! ## calls -/

/-- how far a reader has come says nothing about its counts -/
theorem Kept.withProgress (h : r.Kept clean g b) (g' : Progress) :
    ({ r with progress := g' } : ColumnReader).Kept clean g' b :=
  ⟨h.binding, h.bounded, h.lies, h.chunk, rfl,
    ⟨h.accounts.values, h.accounts.page, h.accounts.bytes, h.accounts.size, h.accounts.left⟩,
    fun hclean => ⟨(h.exact hclean).bytes, (h.exact hclean).left⟩, h.sound⟩

theorem kept_atChunk (hb : b.Bounded) (hlies : b.start + b.size ≤ r.buffer.length) :
    (r.atChunk b).Kept True .uninitialized b := by
  have hlen := Binding.length_bytes hlies
  exact ⟨rfl, hb, hlies, (Nat.zero_add _).trans hlen, rfl,
    ⟨Nat.zero_le _, nofun, Nat.le_of_eq hlen, Nat.le_refl _, Nat.le_refl _⟩,
    fun _ => ⟨hlen, rfl⟩, nofun⟩

/-- the reader is bound to a chunk and stands in front of its first page, or is refused -/
theorem prepare_ends (column : Nat) (schema : SchemaElement) (chunk : ColumnChunk) :
    Ends (fun _ t => ∃ b, t.Kept True .ready b)
      (fun x t => t.Accounts ∧ t.progress = .uninitialized ∧ x.Regular)
      (prepare column schema chunk r) := by
  refine ends_mapError (E := fun x t => t.Accounts ∧ t.progress = .uninitialized ∧ x.Regular) ?_
    fun x t h => ⟨h.1, h.2.1, h.2.2.within _⟩
  rw [update_bind, state_bind]
  refine ends_bind (A := fun b t => b.Bounded ∧ b.start + b.size ≤ r.buffer.length ∧
    t = ofBuffer r.buffer r.options) ?_ ?_
  · refine ends_mapError (E := fun x t => t.Accounts ∧ t.progress = .uninitialized ∧ x.Regular)
      (ends_ofExcept ?_ ?_) fun _ _ h => h
    · exact fun b h => ⟨(Binding.ofChunk_spec h).1, (Binding.ofChunk_spec h).2, rfl⟩
    · exact fun x h => ⟨accounts_ofBuffer _ _, rfl, Binding.ofChunk_regular x h⟩
  · rintro b t ⟨hb, hlies, rfl⟩
    have hr : (r.atChunk b).Kept True .uninitialized b := kept_atChunk hb hlies
    split
    · exact ⟨b, hr.binding, hb, hlies, hr.chunk, rfl,
        ⟨Nat.le_refl _, nofun, hr.accounts.bytes, hr.accounts.size, hr.accounts.left⟩,
        fun h => ⟨(hr.exact h).bytes, rfl⟩, nofun⟩
    · refine ends_bind (A := fun _ t => t = r.atChunk b) rfl ?_
      rintro _ _ rfl
      refine ends_bind ((loadDictionary_ends hr rfl rfl).mono (fun _ _ h => h)
        fun x t h => ⟨h.1.accounts, h.1.progress, h.2⟩) ?_
      rintro ⟨⟩ t ⟨ht, -, hzero⟩
      refine ends_bind ((openPage_ends ht hzero).mono (fun _ _ h => h.1)
        fun x t h => ⟨h.1.accounts, h.1.progress, h.2⟩) fun n u hu => ?_
      exact ⟨b, hu.withProgress _⟩

/-- a batch is read and taken off the accounts, or it cannot be; either way they are kept -/
theorem read_ends (hr : r.Kept clean g b) (hg : g ≠ .uninitialized) (v : Batch) :
    Ends (fun n t => ∃ g', g' ≠ .uninitialized ∧ t.1.Kept clean g' b ∧
        Spent clean b (r, {}) n t)
      (fun x t => t.1.Kept False g b ∧ x.Regular) (read (r, v)) := by
  cases g with
  | uninitialized => exact absurd rfl hg
  | exhausted =>
    rw [read_exhausted hr.progress]
    exact ⟨_, hg, hr, .refl _⟩
  | ready =>
    by_cases hzero : r.columnValues = 0
    · rw [read_end hr.progress hzero]
      exact ⟨.exhausted, by decide, hr.withProgress _, rfl, [], .last _ hzero, rfl,
        List.forall_mem_nil _⟩
    · rw [read_fill hr.progress (Nat.pos_of_ne_zero hzero)]
      refine (fill_ends batchSize 0 hr Batch.holds_nil (Nat.zero_le _)).mono ?_ fun _ _ h => h
      rintro n t ⟨bytes, rfl, hkept, hspent⟩
      rw [Nat.zero_add]
      exact ⟨.ready, hg, hkept, hspent⟩

/-! ## any calls -/

/-- how a reader stands after its calls: not prepared, or not with success; prepared, and no read
has failed since; prepared, and a read has failed since -/
inductive Standing where
  | closed
  | clean
  | faulty
deriving DecidableEq

/-- the readers that calls lead to from a new one over `buffer`: with any schemas, chunks and
batches, and with reads only while the last preparation succeeded -/
inductive Reached (buffer : Bytes) (o : Options) : Standing → ColumnReader → Prop where
  | new : Reached buffer o .closed (ofBuffer buffer o)
  | prepared {st : Standing} {r r' : ColumnReader} {column : Nat} {schema : SchemaElement}
      {chunk : ColumnChunk} (h : Reached buffer o st r)
      (hcall : prepare column schema chunk r = (.ok (), r')) : Reached buffer o .clean r'
  | refused {st : Standing} {r r' : ColumnReader} {column : Nat} {schema : SchemaElement}
      {chunk : ColumnChunk} {x : Failure} (h : Reached buffer o st r)
      (hcall : prepare column schema chunk r = (.error x, r')) : Reached buffer o .closed r'
  | read {st : Standing} {r r' : ColumnReader} {v v' : Batch} {n : Nat}
      (h : Reached buffer o st r) (hst : st ≠ .closed)
      (hcall : ColumnReader.read (r, v) = (.ok n, (r', v'))) : Reached buffer o st r'
  | failed {st : Standing} {r r' : ColumnReader} {v v' : Batch} {x : Failure}
      (h : Reached buffer o st r) (hst : st ≠ .closed)
      (hcall : ColumnReader.read (r, v) = (.error x, (r', v'))) : Reached buffer o .faulty r'

variable {buffer : Bytes} {o : Options} {st : Standing}

/-- a reader after its calls covers what is left, and one that is prepared is kept so -/
theorem Reached.kept (h : Reached buffer o st r) : r.Accounts ∧
    (st ≠ .closed → ∃ g b, g ≠ .uninitialized ∧ r.Kept (st = .clean) g b) := by
  induction h with
  | new => exact ⟨accounts_ofBuffer _ _, fun h => absurd rfl h⟩
  | @prepared _ r _ column schema chunk _ hcall _ =>
    have hends := prepare_ends (r := r) column schema chunk
    rw [hcall] at hends
    obtain ⟨b, hkept⟩ := hends
    exact ⟨hkept.accounts, fun _ => ⟨.ready, b, by decide, hkept.imp fun _ => trivial⟩⟩
  | @refused _ r _ column schema chunk _ _ hcall _ =>
    have hends := prepare_ends (r := r) column schema chunk
    rw [hcall] at hends
    exact ⟨hends.1, fun h => absurd rfl h⟩
  | @read _ _ _ v _ _ _ hst hcall ih =>
    obtain ⟨g, b, hg, hr⟩ := ih.2 hst
    have hends := read_ends hr hg v
    rw [hcall] at hends
    obtain ⟨g', hg', hkept, -⟩ := hends
    exact ⟨hkept.accounts, fun _ => ⟨g', b, hg', hkept⟩⟩
  | @failed _ _ _ v _ _ _ hst hcall ih =>
    obtain ⟨g, b, hg, hr⟩ := ih.2 hst
    have hends := read_ends hr hg v
    rw [hcall] at hends
    exact ⟨hends.1.accounts, fun _ => ⟨g, b, hg, hends.1.imp nofun⟩⟩

/-- whatever was called, the counts of a reader cover what is left, and are what is left while
nothing failed; a read takes off them the slots of its batch, the bytes that it tells, and what
was left of the pages that it leaves; and no call finds that they do not suffice -/
theorem Reached.accounts (h : Reached buffer o st r) :
    r.Accounts ∧ (st = .clean → r.Exact) ∧
    (∀ column schema chunk x t, prepare column schema chunk r = (.error x, t) → x.Regular) ∧
    (st ≠ .closed →
      (∀ v x t, ColumnReader.read (r, v) = (.error x, t) → x.Regular) ∧
      ∀ v n r' v', ColumnReader.read (r, v) = (.ok n, (r', v')) →
        r.columnValues = r'.columnValues + v'.total ∧
        ∃ b ls, r.binding = some b ∧ Turns b (r, {}) ls (r', v') ∧
          r.columnBytes = r'.columnBytes + n + (ls.map pageBytes).sum ∧
          ∀ q ∈ ls, q.Accounts ∧ (st = .clean → q.Exact)) := by
  obtain ⟨haccounts, hprepared⟩ := h.kept
  refine ⟨haccounts, fun hclean => ?_, fun column schema chunk x t hcall => ?_, fun hst => ?_⟩
  · obtain ⟨g, b, -, hr⟩ := hprepared (by rw [hclean]; decide)
    exact hr.exact hclean
  · have hends := prepare_ends (r := r) column schema chunk
    rw [hcall] at hends
    exact hends.2.2
  obtain ⟨g, b, hg, hr⟩ := hprepared hst
  refine ⟨fun v x t hcall => ?_, fun v n r' v' hcall => ?_⟩
  · have hends := read_ends hr hg v
    rw [hcall] at hends
    exact hends.2
  · have hends := read_ends hr hg v
    rw [hcall] at hends
    obtain ⟨g', -, -, hspent⟩ := hends
    obtain ⟨ls, hturns, hsum, hls⟩ := hspent.bytes
    exact ⟨hspent.values, b, ls, hr.binding, hturns, hsum, hls⟩

/-- a chunk of the two slots 7 and empty, whose page has six bytes behind its header; one read
takes them -/
theorem Reached.accounts_int32 :
    let called := prepare 0 (.optional "n" .int32) {
      filePath := none
      fileOffset := 0
      metaData := some {
        physicalType := .int32
        encodings := [.rle, .plain]
        pathInSchema := ["n"]
        codec := .uncompressed
        numValues := 2
        totalUncompressedSize := 27
        totalCompressedSize := 27
        keyValueMetadata := none
        dataPageOffset := 0
        indexPageOffset := none
        dictionaryPageOffset := none
        statistics := none } }
      (.ofBuffer [21, 0, 21, 20, 21, 20, 44, 21, 4, 21, 0, 21, 6, 21, 6, 0, 0,
        2, 0, 0, 0, 3, 1, 7, 0, 0, 0] {})
    let t := ColumnReader.read (called.2, {})
    called.1 = .ok () ∧ t.1 = .ok 6 ∧ called.2.Exact ∧
      called.2.columnValues = t.2.1.columnValues + t.2.2.total := by
  intro called t
  have hcalled : called.1 = .ok () := by decide +kernel +zetaReduce
  have ht : t.1 = .ok 6 := by decide +kernel +zetaReduce
  have hprepare : prepare _ _ _ _ = called := rfl
  have hread : ColumnReader.read (called.2, {}) = t := rfl
  clear_value called t
  obtain ⟨_, r⟩ := called
  obtain ⟨_, r', v'⟩ := t
  cases hcalled
  cases ht
  have h := Reached.accounts (.prepared .new hprepare)
  exact ⟨rfl, rfl, h.2.1 rfl, ((h.2.2.2 (by decide)).2 _ _ _ _ hread).1⟩

end ColumnReader

end Columnar
