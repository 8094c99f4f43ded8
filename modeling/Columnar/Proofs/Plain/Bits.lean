import Columnar.Proofs.Plain.Encoder
import Mathlib.Data.List.Induction

/-!
# How many bits wait

A byte of booleans is counted full before it is written.  When the sink refuses it, all eight of
its bits wait on, and there is no room for another one until a later call has them written.

* `Encoder.Frees e e'`        what waited in `e` was taken, and no bits wait in `e'`;
* `Encoder.Keeps e e'`        nothing was taken, and as many bits wait;
* `Encoder.Turns e op t`      what a call does to the bits that wait;
* `Encoder.bitCount_run`      how many bits may wait behind any calls, and what a call then does.
-/

namespace Columnar.Plain.Encoder

open Step

variable {buffers : Nat → Bytes} {e e' e'' : Encoder}

/-- no bits wait any more; if some did, they were taken -/
structure Frees (e e' : Encoder) : Prop where
  apart : e'.Apart
  count : e'.bitCount = 0
  taken : ∃ more, e'.sink.taken = e.sink.taken ++ more ∧ (e.bitCount ≠ 0 → more ≠ [])

/-- as many bits wait, and nothing was taken -/
structure Keeps (e e' : Encoder) : Prop where
  apart : e'.Apart
  count : e'.bitCount = e.bitCount
  taken : e'.sink.taken = e.sink.taken

theorem Apart.keeps (h : e.Apart) : e.Keeps e := ⟨h, rfl, rfl⟩

theorem Frees.frees (h : e.Frees e') (h' : e'.Frees e'') : e.Frees e'' := by
  obtain ⟨more, hmore, hne⟩ := h.taken
  obtain ⟨more', hmore', -⟩ := h'.taken
  refine ⟨h'.apart, h'.count, more ++ more', ?_, fun hb => ?_⟩
  · rw [hmore', hmore, List.append_assoc]
  · exact List.append_ne_nil_of_left_ne_nil (hne hb) more'

theorem Frees.keeps (h : e.Frees e') (h' : e'.Keeps e'') : e.Frees e'' := by
  obtain ⟨more, hmore⟩ := h.taken
  exact ⟨h'.apart, h'.count.trans h.count, more, h'.taken.trans hmore.1, hmore.2⟩

/-! ## one call -/

theorem finish_turns (h : e.Apart) :
    Ends (fun _ e' => e.Frees e') (fun _ e' => e.Keeps e') (finish e) := by
  refine (finish_ends h).mono ?_ ?_
  · rintro _ e' ⟨ht, hp, hc, hz⟩
    refine ⟨⟨.inl hp, fun _ => hz⟩, hc, _, ht.taken, fun hb => ?_⟩
    rw [waits_bits (h.none hb) hb]
    exact List.cons_ne_nil _ _
  · rintro _ e' ⟨hm, hp, hz, hc⟩
    exact ⟨⟨.inl hp, fun h0 => hz.trans (h.bits (hc.symm.trans h0))⟩, hc, hm.taken⟩

/-- a call to the sink adds to what was taken, or does not -/
theorem Frees.call (h : e.Frees e') (bs : Bytes) :
    Ends (fun _ e'' => e.Frees e'') (fun _ e'' => e.Frees e'') (call bs e') := by
  have hapart {e'' : Encoder} (hz : e''.bits = e'.bits) (hc : e''.bitCount = e'.bitCount) :
      e''.Apart := ⟨.inr (hc.trans h.count), fun _ => hz.trans (h.apart.bits h.count)⟩
  refine (call_ends bs e').mono ?_ ?_
  · rintro _ e'' ⟨ht, -, hz, hc⟩
    exact h.frees ⟨hapart hz hc, hc.trans h.count, _, ht.taken, fun hb => absurd h.count hb⟩
  · rintro _ e'' ⟨hm, -, hz, hc⟩
    exact h.keeps ⟨hapart hz hc, hc, hm.taken⟩

theorem direct_turns (h : e.Apart) (bs : Bytes) :
    Ends (fun _ e' => e.Frees e') (fun _ e' => e.Keeps e' ∨ e.Frees e') (direct bs e) := by
  rw [direct_eq]
  refine ends_bind ((finish_turns h).mono (fun _ _ h' => h') fun _ _ => .inl) ?_
  intro _ e' he'
  exact (he'.call bs).mono (fun _ _ h' => h') fun _ _ => .inr

theorem byteArray_turns (h : e.Apart) (bs : Bytes) :
    Ends (fun _ e' => e.Frees e') (fun _ e' => e.Keeps e' ∨ e.Frees e') (byteArray bs e) := by
  unfold byteArray
  split
  · exact .inl h.keeps
  · refine ends_bind (direct_turns h _) ?_
    intro _ e' he'
    exact (direct_turns he'.apart bs).mono (fun _ _ => he'.frees)
      fun _ _ h' => .inr (h'.elim he'.keeps he'.frees)

theorem span_turns (h : e.Apart) (i start stop : Nat) :
    Ends (fun _ e' => e.Keeps e' ∨ e.Frees e') (fun _ e' => e.Keeps e')
      (span (part buffers i start stop) e) := by
  by_cases hvalid : (Op.span i start stop).Valid buffers
  · by_cases hjoined : ∃ p, e.pending = some p ∧ p.ContinuedBy (part buffers i start stop)
    · obtain ⟨p, hp, hcont⟩ := hjoined
      have hb := h.zero hp
      rw [span_joined hvalid hp hb hcont]
      exact .inl ⟨⟨.inr hb, h.bits⟩, rfl, rfl⟩
    · rw [span_apart hvalid h fun p hp hcont => hjoined ⟨p, hp, hcont⟩]
      refine ends_bind (finish_turns h) ?_
      rintro _ e' ⟨hapart, hcount, htaken⟩
      exact .inr ⟨⟨.inr hcount, hapart.bits⟩, hcount, htaken⟩
  · rw [span_outside hvalid]
    exact h.keeps

/-- what a call does to the bits that wait -/
inductive Turns (e : Encoder) : Op → Except Failure Unit × Encoder → Prop where
  /-- the bits that wait wait on; a boolean fails only so if they do not share its byte -/
  | keeps {op : Op} {e' : Encoder} {r : Except Failure Unit} (hr : ∀ m, r ≠ .error (.misuse m))
      (hop : ∀ b, op = .bool b → e.bitCount = 0) (h : e.Keeps e') : Turns e op (r, e')
  /-- the bits that wait are written; behind a boolean only if it fills their byte -/
  | frees {op : Op} {e' : Encoder} {r : Except Failure Unit} (hr : ∀ m, r ≠ .error (.misuse m))
      (hop : ∀ b, op = .bool b → e.bitCount = 7) (h : e.Frees e') : Turns e op (r, e')
  /-- there was room for a bit that does not fill its byte -/
  | adds {b : Bool} {e' : Encoder} (hroom : e.bitCount < 7) (hapart : e'.Apart)
      (hcount : e'.bitCount = e.bitCount + 1)
      (htaken : ∃ more, e'.sink.taken = e.sink.taken ++ more) : Turns e (.bool b) (.ok (), e')
  /-- the bit fills its byte, and the byte is refused -/
  | fills {b : Bool} {e' : Encoder} {x : Error} (hlast : e.bitCount = 7) (hapart : e'.Apart)
      (hcount : e'.bitCount = 8) (htaken : e'.sink.taken = e.sink.taken) :
      Turns e (.bool b) (.error (.error x), e')
  /-- there is no room -/
  | full {b : Bool} (hfull : 8 ≤ e.bitCount) (hapart : e.Apart) :
      Turns e (.bool b) (.error (.misuse .shiftOverflow), e)

theorem bool_turns_first (h : e.Apart) (hzero : e.bitCount = 0) (b : Bool) :
    e.Turns (.bool b) (bool b e) := by
  rw [bool_first hzero]
  have hturns := finish_turns h
  have hends := finish_ends h
  rcases hfinish : finish e with ⟨x | _, e'⟩
  · rw [hfinish] at hturns
    rw [mapError, bind_error hfinish]
    exact .keeps (fun _ => by simp) (fun _ _ => hzero) hturns
  · rw [hfinish] at hturns hends
    obtain ⟨-, hcount, more, hmore, -⟩ := hturns
    rw [mapError, bind_ok hfinish]
    refine .adds (by omega) (apart_withBit hends.2.1 b) ?_ ⟨more, hmore⟩
    show e'.bitCount + 1 = e.bitCount + 1
    rw [hcount, hzero]

theorem bool_turns_last (hp : e.pending = none) (hlast : e.bitCount = 7) (b : Bool) :
    e.Turns (.bool b) (bool b e) := by
  rw [bool_last hp hlast, mapError]
  have hfull : (e.withBit b).bitCount = 8 := congrArg Nat.succ hlast
  have hends := finish_turns (apart_withBit hp b)
  rcases hfinish : finish (e.withBit b) with ⟨x | _, e'⟩
  · rw [hfinish] at hends
    exact .fills hlast hends.apart (hends.count.trans hfull) hends.taken
  · rw [hfinish] at hends
    obtain ⟨hapart, hcount, more, hmore, hne⟩ := hends
    exact .frees (fun _ => by simp) (fun _ _ => hlast)
      ⟨hapart, hcount, more, hmore, fun _ => hne (Nat.succ_ne_zero _)⟩

theorem bool_turns (h : e.Apart) (b : Bool) : e.Turns (.bool b) (bool b e) := by
  by_cases hzero : e.bitCount = 0
  · exact bool_turns_first h hzero b
  · have hp := h.none hzero
    rcases Nat.lt_trichotomy e.bitCount 7 with hnext | hlast | hfull
    · rw [bool_next hp hnext]
      exact .adds hnext (apart_withBit hp b) rfl ⟨[], (List.append_nil _).symm⟩
    · exact bool_turns_last hp hlast b
    · rw [bool_full hp hfull]
      exact .full hfull h

/-- a call that is not for a boolean -/
theorem turns_mapError {x : Step Encoder Error Unit} {op : Op} (hop : ∀ b, op ≠ .bool b)
    (hx : Ends (fun _ e' => e.Keeps e' ∨ e.Frees e') (fun _ e' => e.Keeps e' ∨ e.Frees e') (x e)) :
    e.Turns op (x.mapError Failure.error e) := by
  have hturns {r : Except Failure Unit} {e' : Encoder} (hr : ∀ m, r ≠ .error (.misuse m)) :
      e.Keeps e' ∨ e.Frees e' → e.Turns op (r, e') := by
    rintro (h | h)
    · exact .keeps hr (fun b hb => absurd hb (hop b)) h
    · exact .frees hr (fun b hb => absurd hb (hop b)) h
  rw [mapError]
  rcases hrun : x e with ⟨y | _, e'⟩
  · rw [hrun] at hx
    exact hturns (fun _ => by simp) hx
  · rw [hrun] at hx
    exact hturns (fun _ => by simp) hx

theorem step_turns (h : e.Apart) (op : Op) : e.Turns op (op.step buffers e) := by
  have hdirect (bs : Bytes) : Ends (fun _ e' => e.Keeps e' ∨ e.Frees e')
      (fun _ e' => e.Keeps e' ∨ e.Frees e') (direct bs e) :=
    (direct_turns h bs).mono (fun _ _ => .inr) fun _ _ => id
  cases op with
  | span i start stop =>
    exact turns_mapError nofun ((span_turns h i start stop).mono (fun _ _ => id) fun _ _ => .inl)
  | scalar width n => exact turns_mapError nofun (hdirect _)
  | byteArray bs =>
    exact turns_mapError nofun ((byteArray_turns h bs).mono (fun _ _ => .inr) fun _ _ => id)
  | fixed bs => exact turns_mapError nofun (hdirect bs)
  | bool b => exact bool_turns h b

namespace Turns

variable {op : Op} {t : Except Failure Unit × Encoder}

theorem apart (h : e.Turns op t) : t.2.Apart := by
  cases h with
  | keeps _ _ h => exact h.apart
  | frees _ _ h => exact h.apart
  | adds _ h => exact h
  | fills _ h => exact h
  | full _ h => exact h

/-- what was taken stays so -/
theorem taken (h : e.Turns op t) : e.sink.taken <+: t.2.sink.taken := by
  cases h with
  | keeps _ _ h => exact h.taken ▸ List.prefix_rfl
  | frees _ _ h =>
    obtain ⟨more, hmore, -⟩ := h.taken
    exact ⟨more, hmore.symm⟩
  | adds _ _ _ h =>
    obtain ⟨more, hmore⟩ := h
    exact ⟨more, hmore.symm⟩
  | fills _ _ _ h => exact h ▸ List.prefix_rfl
  | full => exact List.prefix_rfl

theorem count_le (h : e.Turns op t) (hle : e.bitCount ≤ 8) : t.2.bitCount ≤ 8 := by
  cases h with
  | keeps _ _ h => exact h.count.symm ▸ hle
  | frees _ _ h => exact h.count.symm ▸ Nat.zero_le 8
  | adds hroom _ h => exact h.symm ▸ Nat.le_succ_of_le hroom
  | fills _ _ h => exact Nat.le_of_eq h
  | full => exact hle

/-- a byte is filled, or it was full and nothing was taken -/
theorem full_of_eq (h : e.Turns op t) (hcount : t.2.bitCount = 8) :
    t.2.sink.taken = e.sink.taken ∧ (e.bitCount = 8 ∨ e.bitCount = 7 ∧ ∃ b, op = .bool b) := by
  cases h with
  | keeps _ _ h => exact ⟨h.taken, .inl (h.count.symm.trans hcount)⟩
  | frees _ _ h => exact nomatch h.count.symm.trans hcount
  | adds hroom _ h =>
    have hseven : e.bitCount = 7 := Nat.succ.inj (h.symm.trans hcount)
    exact absurd hroom (by omega)
  | @fills b _ _ hlast _ _ htaken => exact ⟨htaken, .inr ⟨hlast, b, rfl⟩⟩
  | full => exact ⟨rfl, .inl hcount⟩

/-- a byte that was full or is filled stays until something is taken -/
theorem full_of_taken (h : e.Turns op t) (htaken : t.2.sink.taken = e.sink.taken)
    (hfull : e.bitCount = 8 ∨ e.bitCount = 7 ∧ ∃ b, op = .bool b) : t.2.bitCount = 8 := by
  have hne : e.bitCount ≠ 0 := by omega
  cases h with
  | keeps _ hop h =>
    rcases hfull with height | ⟨-, b, hb⟩
    · exact h.count.trans height
    · exact absurd (hop b hb) hne
  | frees _ _ h =>
    obtain ⟨more, hmore, hmore'⟩ := h.taken
    exact absurd (List.append_right_eq_self.mp (hmore.symm.trans htaken)) (hmore' hne)
  | adds hroom => omega
  | fills _ _ h => exact h
  | full h =>
    show e.bitCount = 8
    omega

/-- only a boolean with no room left is called wrongly -/
theorem misuse_iff (h : e.Turns op t) (hle : e.bitCount ≤ 8) (m : Misuse) :
    t.1 = .error (.misuse m) ↔ m = .shiftOverflow ∧ e.bitCount = 8 ∧ ∃ b, op = .bool b := by
  cases h with
  | keeps hr hop h =>
    refine ⟨fun hm => absurd hm (hr m), ?_⟩
    rintro ⟨-, hcount, b, hb⟩
    exact nomatch hcount.symm.trans (hop b hb)
  | frees hr hop h =>
    refine ⟨fun hm => absurd hm (hr m), ?_⟩
    rintro ⟨-, hcount, b, hb⟩
    exact nomatch hcount.symm.trans (hop b hb)
  | adds hroom =>
    refine ⟨(nomatch ·), ?_⟩
    rintro ⟨-, hcount, -⟩
    omega
  | fills hlast =>
    refine ⟨(nomatch ·), ?_⟩
    rintro ⟨-, hcount, -⟩
    omega
  | @full b hfull =>
    constructor
    · rintro ⟨⟩
      exact ⟨rfl, Nat.le_antisymm hle hfull, b, rfl⟩
    · rintro ⟨rfl, -⟩
      rfl

end Turns

/-! ## any calls -/

variable {z : Sink} {op : Op} {ops : List Op}

theorem run_apart (h : e.Apart) (ops : List Op) : (run buffers e ops).Apart := by
  induction ops generalizing e with
  | nil => exact h
  | cons op ops ih => exact ih (step_turns h op).apart

theorem run_count_le (h : e.Apart) (hle : e.bitCount ≤ 8) (ops : List Op) :
    (run buffers e ops).bitCount ≤ 8 := by
  induction ops generalizing e with
  | nil => exact hle
  | cons op ops ih => exact ih (step_turns h op).apart ((step_turns h op).count_le hle)

theorem run_taken (buffers : Nat → Bytes) (h : e.Apart) (ops : List Op) :
    e.sink.taken <+: (run buffers e ops).sink.taken := by
  induction ops generalizing e with
  | nil => exact List.prefix_rfl
  | cons op ops ih => exact (step_turns h op).taken.trans (ih (step_turns h op).apart)

/-- calls that took nothing, from the first one on -/
theorem taken_of_run (h : e.Apart)
    (htaken : (run buffers e (op :: ops)).sink.taken = e.sink.taken) :
    (op.step buffers e).2.sink.taken = e.sink.taken := by
  have hturns : e.Turns op (op.step buffers e) := step_turns h op
  have hle := (run_taken buffers hturns.apart ops).length_le
  rw [run, List.foldl_cons] at htaken
  have hle' := Nat.le_trans hle (Nat.le_of_eq (congrArg List.length htaken))
  exact (hturns.taken.eq_of_length_le hle').symm

/-- a byte that is full stays until something is taken -/
theorem run_full (h : e.Apart) (hfull : e.bitCount = 8)
    (htaken : (run buffers e ops).sink.taken = e.sink.taken) :
    (run buffers e ops).bitCount = 8 := by
  induction ops generalizing e with
  | nil => exact hfull
  | cons op ops ih =>
    have hturns : e.Turns op (op.step buffers e) := step_turns h op
    have hmid := taken_of_run h htaken
    exact ih hturns.apart (hturns.full_of_taken hmid (.inl hfull)) (htaken.trans hmid.symm)

/-- where the byte that is full was filled -/
theorem filled_of_full (hfull : (after buffers z ops).bitCount = 8) : ∃ front b behind,
    ops = front ++ .bool b :: behind ∧ (after buffers z front).bitCount = 7 ∧
      (after buffers z ops).sink.taken = (after buffers z front).sink.taken := by
  induction ops using List.reverseRecOn with
  | nil => exact nomatch hfull
  | append_singleton ops op ih =>
    have hturns : (after buffers z ops).Turns op (op.step buffers (after buffers z ops)) :=
      step_turns (run_apart (apart_start z) ops) op
    have hrun : after buffers z (ops ++ [op]) = (op.step buffers (after buffers z ops)).2 :=
      run_concat { sink := z } ops op
    rw [hrun] at hfull ⊢
    obtain ⟨htaken, height | ⟨hseven, b, rfl⟩⟩ := hturns.full_of_eq hfull
    · obtain ⟨front, b, behind, rfl, hseven, htaken'⟩ := ih height
      exact ⟨front, b, behind ++ [op], List.append_assoc .., hseven, htaken.trans htaken'⟩
    · exact ⟨ops, b, [], rfl, hseven, htaken⟩

/-- No more than eight bits ever wait.  Eight do exactly when a boolean filled a byte that the sink
did not take, and nothing was taken since; then, and only then, another boolean finds no room, and
that is the only way to call an encoder wrongly. -/
theorem bitCount_run (buffers : Nat → Bytes) (z : Sink) (ops : List Op) :
    (after buffers z ops).bitCount ≤ 8 ∧
      ((after buffers z ops).bitCount = 8 ↔ ∃ front b behind,
        ops = front ++ .bool b :: behind ∧ (after buffers z front).bitCount = 7 ∧
          (after buffers z ops).sink.taken = (after buffers z front).sink.taken) ∧
      ∀ (op : Op) (m : Misuse), (op.step buffers (after buffers z ops)).1 = .error (.misuse m) ↔
        m = .shiftOverflow ∧ (after buffers z ops).bitCount = 8 ∧ ∃ b, op = .bool b := by
  have hapart (ops : List Op) : (after buffers z ops).Apart := run_apart (apart_start z) ops
  have hle : (after buffers z ops).bitCount ≤ 8 := run_count_le (apart_start z) (Nat.zero_le 8) ops
  refine ⟨hle, ⟨filled_of_full, ?_⟩, fun op m => (step_turns (hapart ops) op).misuse_iff hle m⟩
  rintro ⟨front, b, behind, rfl, hseven, htaken⟩
  rw [after, run_append] at htaken ⊢
  have hmid := taken_of_run (hapart front) htaken
  have hturns : (after buffers z front).Turns (.bool b)
      ((Op.bool b).step buffers (after buffers z front)) := step_turns (hapart front) (.bool b)
  rw [run, List.foldl_cons] at htaken ⊢
  exact run_full hturns.apart (hturns.full_of_taken hmid (.inr ⟨hseven, b, rfl⟩))
    (htaken.trans hmid.symm)

/-- the eighth boolean is refused by a sink that takes nothing, and the ninth one finds no room -/
theorem not_room_refusedByte :
    (after (fun _ => []) (.ofCapacity 0) (.replicate 8 (.bool true))).bitCount = 8 ∧
      ((Op.bool true).step (fun _ => [])
        (after (fun _ => []) (.ofCapacity 0) (.replicate 8 (.bool true)))).1 =
        .error (.misuse .shiftOverflow) := by
  decide +kernel

end Columnar.Plain.Encoder
