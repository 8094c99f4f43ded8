import Columnar.Proofs.Hybrid.Bounds

/-!
# How wide the values of a stream are

A packed value has the bits that it is asked for.  A repeated one has the bits of whole bytes,
and what it has above its width is neither taken off nor refused.

* `Spells w bs run rest`    a run, of values of `w` bits, stands in front of `rest`;
* `Passed w bs runs rest`   the runs that are met on the way to `rest`;
* `Blocked w bs runs`       behind some of the runs no other is spelled;
* `Decoder.given n d`       what `n` calls for a value answer, those that fail left out;
* `Decoder.Gave w bs n runs vs d`   `n` calls gave `vs` of a stream `bs`, and `d` has the rest of
                            a run.

`Decoder.given_runs` says which values are given whatever the bytes are, which calls fail, and when
all values fit their width.
-/

namespace Columnar.Hybrid

open Step

variable {w n k : Nat} {bs mid rest : Bytes} {run : Run} {runs runs' : List Run}

/-! ## runs in a stream -/

/-- all values of a run -/
def Run.all (w : Nat) (r : Run) : List Nat := r.values w r.left

theorem Run.all_of_left (h : run.left = 0) : run.all w = [] := by
  rw [all, h]
  rfl

theorem Run.all_cons (h : 0 < run.left) :
    run.all w = run.head w :: (run.drop 1).all w := by
  obtain ⟨left, hleft⟩ := Nat.exists_eq_succ_of_ne_zero (Nat.ne_of_gt h)
  rw [all, hleft, values_succ, all, left_drop, hleft, Nat.succ_sub_one]

/-- a run in front of `rest`: a number that says how many values it has, and the bytes of them -/
inductive Spells (w : Nat) (bs : Bytes) : Run → Bytes → Prop
  | repeated {h k : Nat} (hread : Varint.decode bs = .ok (h, k)) (heven : h % 2 = 0)
    (hlen : k + (w + 7) / 8 ≤ bs.length) :
    Spells w bs (.repeated (fromLE ((bs.drop k).take ((w + 7) / 8))) (h / 2))
      (bs.drop (k + (w + 7) / 8))
  | packed {h k : Nat} (hread : Varint.decode bs = .ok (h, k)) (hodd : h % 2 = 1)
    (hbits : h / 2 * w < 2 ^ 64) (hcount : h / 2 * groupSize < 2 ^ 64)
    (hlen : k + h / 2 * w ≤ bs.length) :
    Spells w bs (.packed ((bs.drop k).take (h / 2 * w)) 0 (h / 2 * groupSize))
      (bs.drop (k + h / 2 * w))

/-- no run is spelled at the front -/
def Runless (w : Nat) (bs : Bytes) : Prop := ∀ run mid, ¬ Spells w bs run mid

/-- the runs that are met on the way to `rest`; of a run that is cut off its number is passed -/
inductive Passed (w : Nat) : Bytes → List Run → Bytes → Prop
  | none {bs : Bytes} : Passed w bs [] bs
  | run {bs mid rest : Bytes} {run : Run} {runs : List Run} (h : Spells w bs run mid)
    (hrest : Passed w mid runs rest) : Passed w bs (run :: runs) rest
  | cutOff {bs rest : Bytes} {runs : List Run} {h k : Nat}
    (hread : Varint.decode bs = .ok (h, k)) (hnone : Runless w bs)
    (hrest : Passed w (bs.drop k) runs rest) : Passed w bs runs rest

theorem Passed.trans (h : Passed w bs runs mid) (h' : Passed w mid runs' rest) :
    Passed w bs (runs ++ runs') rest := by
  induction h with
  | none => exact h'
  | run hrun _ ih => exact .run hrun (ih h')
  | cutOff hread hnone _ ih => exact .cutOff hread hnone (ih h')

/-- every run that is met is spelled somewhere -/
theorem Passed.spelled (h : Passed w bs runs rest) :
    ∀ run ∈ runs, ∃ bs rest, Spells w bs run rest := by
  induction h with
  | none => exact List.forall_mem_nil _
  | run hrun _ ih => exact List.forall_mem_cons.mpr ⟨⟨_, _, hrun⟩, ih⟩
  | cutOff _ _ _ ih => exact ih

/-- behind some of the runs no other is spelled -/
def Blocked (w : Nat) (bs : Bytes) (runs : List Run) : Prop :=
  ∃ front mid, front <+: runs ∧ Passed w bs front mid ∧ Runless w mid

theorem Blocked.append (h : Blocked w bs runs) (runs' : List Run) :
    Blocked w bs (runs ++ runs') := by
  obtain ⟨front, mid, hfront, hpassed, hnone⟩ := h
  exact ⟨front, mid, hfront.trans (List.prefix_append runs runs'), hpassed, hnone⟩

theorem Blocked.behind (h : Passed w bs runs mid) (h' : Blocked w mid runs') :
    Blocked w bs (runs ++ runs') := by
  obtain ⟨front, place, hfront, hpassed, hnone⟩ := h'
  exact ⟨runs ++ front, place, (List.prefix_append_right_inj runs).mpr hfront, h.trans hpassed,
    hnone⟩

/-! ## the values of a run -/

/-- a value of a run is the one that is repeated, or a packed one -/
theorem Run.mem_all {v : Nat} (h : v ∈ run.all w) : 0 < run.left ∧
    ((∃ left, run = .repeated v left) ∨ v < 2 ^ w) := by
  obtain ⟨i, hi, rfl⟩ := List.mem_map.mp h
  refine ⟨Nat.zero_lt_of_lt (List.mem_range.mp hi), ?_⟩
  cases run with
  | repeated v left => exact Or.inl ⟨left, rfl⟩
  | packed bs index left => exact Or.inr (unpack_lt w bs _)

/-- the bits of whole bytes -/
theorem le_fullBytes (w : Nat) : w ≤ 8 * ((w + 7) / 8) := by
  omega

theorem Spells.lt (h : Spells w bs run rest) {v : Nat} (hv : v ∈ run.all w) :
    v < 2 ^ (8 * ((w + 7) / 8)) := by
  obtain ⟨-, ⟨left, rfl⟩ | hlt⟩ := Run.mem_all hv
  · cases h with
    | repeated hread heven hlen =>
      refine Nat.lt_of_lt_of_le (fromLE_lt _) ?_
      rw [Nat.pow_mul]
      exact Nat.pow_le_pow_right (by decide) (List.length_take_le _ _)
  · exact Nat.lt_of_lt_of_le hlt (Nat.pow_le_pow_right (by decide) (le_fullBytes w))

namespace Decoder

variable {d e : Decoder} {vs : List Nat}

/-! ## one run -/

theorem header_ends (d : Decoder) :
    Ends (fun h e => e.width = d.width ∧ ∃ k, Varint.decode d.stream.rest = .ok (h, k) ∧
      k ≤ d.stream.rest.length ∧ e.stream.rest = d.stream.rest.drop k)
      (fun _ e => e = d ∧ ∀ h k, Varint.decode d.stream.rest ≠ .ok (h, k)) (header d) := by
  unfold header
  split
  · rename_i hempty
    refine ⟨rfl, fun h k hread => ?_⟩
    rw [List.isEmpty_iff.mp hempty] at hread
    cases hread
  · rcases hread : Varint.read (.ofBytes d.stream.rest) with ⟨x | h, c⟩
    · refine ⟨rfl, fun h k hdecode => ?_⟩
      rw [Varint.decode, hread] at hdecode
      cases hdecode
    · have hdata := (Varint.read_follows (.ofBytes d.stream.rest)).data
      rw [hread] at hdata
      replace hdata : c.before.reverse ++ c.rest = d.stream.rest := hdata
      have hlen : c.before.reverse.length = c.pos := List.length_reverse
      refine ⟨rfl, c.pos, ?_, ?_, ?_⟩
      · rw [Varint.decode, hread]
      · rw [← hdata, List.length_append, hlen]
        exact Nat.le_add_right _ _
      · show c.rest = _
        rw [← hdata, List.drop_left' hlen]

theorem body_ends (n : Nat) (d : Decoder) :
    Ends (fun bs e => n ≤ d.stream.rest.length ∧ bs = d.stream.rest.take n ∧
      e.stream.rest = d.stream.rest.drop n)
      (fun _ e => d.stream.rest.length < n ∧ e = d) (body n d) := by
  unfold body
  rw [Cursor.view_eq]
  split
  · rename_i hview
    split at hview
    · rename_i hle
      cases hview
      exact ⟨hle, rfl, rfl⟩
    · cases hview
  · rename_i hview
    split at hview
    · cases hview
    · rename_i hgt
      cases hview
      exact ⟨Nat.not_le.mp hgt, rfl⟩

/-- a run is spelled in front of the place that it leads to, or none is, and only a number is
passed -/
theorem readRun_spells (d : Decoder) :
    Ends (fun run e => Spells d.width d.stream.rest run e.stream.rest)
      (fun _ e => Runless d.width d.stream.rest ∧ Passed d.width d.stream.rest [] e.stream.rest)
      (readRun d) := by
  refine ends_bind ((header_ends d).mono (fun _ _ h => h) ?_) ?_
  · rintro _ e ⟨rfl, hunread⟩
    refine ⟨fun run mid hrun => ?_, .none⟩
    cases hrun with
    | repeated hread => exact hunread _ _ hread
    | packed hread => exact hunread _ _ hread
  rintro h e ⟨hwidth, k, hread, hk, hrest⟩
  rw [bind_ok (look_apply _ _), hwidth]
  have hlen : e.stream.rest.length = d.stream.rest.length - k := by
    rw [hrest, List.length_drop]
  -- what is spelled begins with the number that was read
  have hcut (hnone : ¬ (h % 2 = 0 ∧ k + (d.width + 7) / 8 ≤ d.stream.rest.length) ∧
      ¬ (h % 2 = 1 ∧ h / 2 * d.width < 2 ^ 64 ∧ h / 2 * groupSize < 2 ^ 64 ∧
        k + h / 2 * d.width ≤ d.stream.rest.length)) :
      Runless d.width d.stream.rest ∧ Passed d.width d.stream.rest [] e.stream.rest := by
    have hrunless : Runless d.width d.stream.rest := by
      intro run mid hrun
      cases hrun with
      | repeated hread' heven hlen' =>
        cases hread.symm.trans hread'
        exact hnone.1 ⟨heven, hlen'⟩
      | packed hread' hodd hbits hcount hlen' =>
        cases hread.symm.trans hread'
        exact hnone.2 ⟨hodd, hbits, hcount, hlen'⟩
    refine ⟨hrunless, ?_⟩
    rw [hrest]
    exact .cutOff hread hrunless .none
  split
  · rename_i hodd
    split
    · rename_i hfits
      refine ends_bind ((body_ends _ e).mono (fun _ _ h => h) fun _ f hf => ?_) ?_
      · rw [hf.2]
        exact hcut ⟨by omega, fun h => by omega⟩
      · rintro bs f ⟨hle, rfl, hf⟩
        show Spells _ _ _ f.stream.rest
        rw [hf, hrest, List.drop_drop]
        exact .packed hread hodd hfits.1 hfits.2 (by omega)
    · rename_i hfits
      exact hcut ⟨by omega, fun h => hfits ⟨h.2.1, h.2.2.1⟩⟩
  · rename_i heven
    refine ends_bind ((body_ends _ e).mono (fun _ _ h => h) fun _ f hf => ?_) ?_
    · rw [hf.2]
      exact hcut ⟨fun h => by omega, by omega⟩
    · rintro bs f ⟨hle, rfl, hf⟩
      show Spells _ _ _ f.stream.rest
      rw [hf, hrest, List.drop_drop]
      exact .repeated hread (by omega) (by omega)

/-! ## several runs -/

/-- on the way from `d` to `e` no run is met that has values, but for the one that `e` has -/
structure Meets (d e : Decoder) (runs : List Run) : Prop where
  follows : d.Follows e
  passed : Passed d.width d.stream.rest runs e.stream.rest
  values : runs.flatMap (Run.all d.width) = e.run.all d.width
  run : ∀ run ∈ runs, 0 < run.left → run = e.run

theorem Meets.refl (h : d.run.left = 0) : d.Meets d [] :=
  ⟨.refl d, .none, (Run.all_of_left h).symm, List.forall_mem_nil _⟩

/-- a run that is read is met; where it has no values, others may follow -/
theorem meets_readRun {run : Run} (h : readRun d = (.ok run, e)) :
    d.Meets { e with run } [run] := by
  have hspells := readRun_spells d
  have hfollows := ((readRun_maintains d).of_eq (.refl d) h).1
  rw [h] at hspells
  exact ⟨hfollows.setRun run, .run hspells .none, List.flatMap_singleton _ _,
    List.forall_mem_singleton.mpr fun _ => rfl⟩

theorem Meets.trans {f : Decoder} (h : d.Meets e runs) (hzero : e.run.left = 0)
    (h' : e.Meets f runs') : d.Meets f (runs ++ runs') := by
  have hpassed := h'.passed
  have hvalues := h'.values
  rw [h.follows.width] at hpassed hvalues
  refine ⟨h.follows.trans h'.follows, h.passed.trans hpassed, ?_, ?_⟩
  · rw [List.flatMap_append, h.values, Run.all_of_left hzero, List.nil_append, hvalues]
  · refine List.forall_mem_append.mpr ⟨fun run hrun hpos => ?_, h'.run⟩
    rw [h.run run hrun hpos, hzero] at hpos
    exact absurd hpos (Nat.lt_irrefl 0)

/-- runs are read up to one that has values, or to a place where none is spelled -/
theorem advance_meets (fuel : Nat) : ∀ {d : Decoder}, d.run.left = 0 →
    Ends (fun _ e => ∃ runs, d.Meets e runs)
      (fun _ e => ∃ runs, d.Meets e runs ∧ e.run.left = 0 ∧ Blocked d.width d.stream.rest runs)
      (advance fuel d) := by
  induction fuel with
  | zero => exact fun h => ⟨[], .refl h⟩
  | succ fuel ih =>
    intro d hd
    rw [advance]
    rcases hrun : readRun d with ⟨x | run, e⟩
    · rw [bind_error hrun]
      have hkeeps := (readRun_maintains_run d d ⟨.refl d, rfl⟩).1
      have hspells := readRun_spells d
      rw [hrun] at hkeeps hspells
      obtain ⟨hnone, hpassed⟩ := hspells
      have hzero : e.run.left = 0 := by rw [hkeeps.run, hd]
      exact ⟨[], ⟨hkeeps.follows, hpassed, (Run.all_of_left hzero).symm, List.forall_mem_nil _⟩,
        hzero, [], _, List.prefix_rfl, .none, hnone⟩
    · have hmeets := meets_readRun hrun
      rw [bind_ok hrun, update_bind]
      split
      · -- a run without values is left behind
        rename_i hzero
        refine (ih (d := { e with run }) hzero).mono ?_ ?_
        · rintro _ f ⟨runs, hf⟩
          exact ⟨_, hmeets.trans hzero hf⟩
        · rintro _ f ⟨runs, hf, hleft, hblocked⟩
          rw [hmeets.follows.width] at hblocked
          exact ⟨_, hmeets.trans hzero hf, hleft, hblocked.behind hmeets.passed⟩
      · exact ⟨[run], hmeets⟩

/-! ## values -/

/-- what `n` calls for a value answer, those that fail left out -/
def given : Nat → Decoder → List Nat
  | 0, _ => []
  | n + 1, d =>
    match next d with
    | (.ok v, e) => v :: given n e
    | (.error _, e) => given n e

/-- `vs` was given by `n` calls of a stream `bs`, in which `runs` were met; the rest of the last one
is there, and each that has values has given one.  A call fails where no run is spelled -/
structure Gave (w : Nat) (bs : Bytes) (n : Nat) (runs : List Run) (vs : List Nat) (d : Decoder) :
    Prop where
  width : d.width = w
  passed : Passed w bs runs d.stream.rest
  values : vs ++ d.run.all w = runs.flatMap (Run.all w)
  heads : ∀ run ∈ runs, 0 < run.left → run.head w ∈ vs
  count : vs.length = n ∨ Blocked w bs runs

/-- what stands in a decoder that has come to another run -/
theorem Gave.meets (h : d.Gave w bs n runs vs) (hzero : d.run.left = 0) (hmeets : d.Meets e runs') :
    e.width = w ∧ Passed w bs (runs ++ runs') e.stream.rest ∧
      vs ++ e.run.all w = (runs ++ runs').flatMap (Run.all w) := by
  obtain ⟨hfollows, hpassed, hvalues, -⟩ := hmeets
  rw [h.width] at hpassed hvalues
  refine ⟨hfollows.width.trans h.width, h.passed.trans hpassed, ?_⟩
  rw [List.flatMap_append, hvalues, ← h.values, Run.all_of_left hzero, List.append_nil]

/-- one call: a value is given, or none can be reached -/
theorem Gave.next (h : d.Gave w bs n runs vs) :
    Ends (fun v e => ∃ runs', e.Gave w bs (n + 1) runs' (vs ++ [v]))
      (fun _ e => ∃ runs', e.Gave w bs (n + 1) runs' vs) (next d) := by
  have hcount (v : Nat) (runs' : List Run) :
      (vs ++ [v]).length = n + 1 ∨ Blocked w bs (runs ++ runs') := by
    rw [List.length_append, List.length_singleton]
    exact h.count.imp (congrArg Nat.succ) fun hblocked => hblocked.append runs'
  rcases Nat.eq_zero_or_pos d.run.left with hzero | hpos
  · -- the run that is held is used up, and others are read
    have hends := advance_meets (d.stream.remaining + 1) hzero
    have hready : ready d = advance (d.stream.remaining + 1) d := by
      rw [ready, state_bind, if_pos hzero]
    rw [← hready] at hends
    rcases hrun : ready d with ⟨x | ⟨⟩, e⟩
    · rw [hrun] at hends
      obtain ⟨runs', hmeets, hleft, hblocked⟩ := hends
      obtain ⟨hwidth, hpassed, hvalues⟩ := h.meets hzero hmeets
      rw [h.width] at hblocked
      rw [Decoder.next, bind_error hrun]
      refine ⟨_, hwidth, hpassed, hvalues, List.forall_mem_append.mpr ⟨h.heads, ?_⟩,
        Or.inr (hblocked.behind h.passed)⟩
      intro run hmem hpos
      rw [hmeets.run run hmem hpos, hleft] at hpos
      exact absurd hpos (Nat.lt_irrefl 0)
    · have hpos := ready_left hrun
      rw [hrun] at hends
      obtain ⟨runs', hmeets⟩ := hends
      obtain ⟨hwidth, hpassed, hvalues⟩ := h.meets hzero hmeets
      rw [Decoder.next, bind_ok hrun]
      refine ⟨_, hwidth, hpassed, ?_, List.forall_mem_append.mpr ⟨fun run hmem hleft => ?_,
        fun run hmem hleft => ?_⟩, hcount _ runs'⟩
      · rw [hwidth, List.append_assoc, List.singleton_append, ← hvalues, Run.all_cons hpos]
      · exact List.mem_append_left _ (h.heads run hmem hleft)
      · rw [hmeets.run run hmem hleft, hwidth]
        exact List.mem_append_right _ List.mem_cons_self
  · rw [next_eq hpos]
    refine ⟨runs, h.width, h.passed, ?_, fun run hrun hleft => ?_, ?_⟩
    · rw [h.width, List.append_assoc, List.singleton_append, ← Run.all_cons hpos]
      exact h.values
    · exact List.mem_append_left _ (h.heads run hrun hleft)
    · rw [← List.append_nil runs]
      exact hcount _ []

/-- any number of calls -/
theorem Gave.calls (m : Nat) : ∀ {n : Nat} {d : Decoder} {runs : List Run} {vs : List Nat},
    d.Gave w bs n runs vs →
      ∃ runs', ∃ e : Decoder, e.Gave w bs (n + m) runs' (vs ++ given m d) := by
  induction m with
  | zero =>
    intro n d runs vs h
    exact ⟨runs, d, (List.append_nil vs).symm ▸ h⟩
  | succ m ih =>
    intro n d runs vs h
    have hends := h.next
    rw [given, Nat.add_comm m 1, ← Nat.add_assoc]
    rcases hrun : Decoder.next d with ⟨x | v, e⟩
    · rw [hrun] at hends
      obtain ⟨runs', he⟩ := hends
      exact ih he
    · rw [hrun] at hends
      obtain ⟨runs', he⟩ := hends
      obtain ⟨runs'', f, hf⟩ := ih he
      rw [List.append_assoc, List.singleton_append] at hf
      exact ⟨runs'', f, hf⟩

theorem gave_ofBytes (h : ofBytes bs w = .ok d) : d.Gave w bs 0 [] [] := by
  unfold ofBytes at h
  split at h
  · cases h
    exact ⟨rfl, .none, rfl, List.forall_mem_nil _, Or.inl rfl⟩
  · cases h

/-- Whatever the bytes are, and however many values are asked for: what is given are the first
values of the runs that are met, each of which that has values gives one, and a call fails only
where no run is spelled.  The values have no more bits than whole bytes have, and all of them fit
the width exactly when no value that is repeated is wider. -/
theorem given_runs (h : ofBytes bs w = .ok d) (n : Nat) : ∃ runs rest, Passed w bs runs rest ∧
    given n d <+: runs.flatMap (Run.all w) ∧
    (∀ run ∈ runs, 0 < run.left → run.head w ∈ given n d) ∧
    ((given n d).length = n ∨ Blocked w bs runs) ∧
    (∀ v ∈ given n d, v < 2 ^ (8 * ((w + 7) / 8))) ∧
    ((∀ v ∈ given n d, v < 2 ^ w) ↔
      ∀ v left, Run.repeated v left ∈ runs → 0 < left → v < 2 ^ w) := by
  obtain ⟨runs, e, he⟩ := (gave_ofBytes h).calls n
  rw [List.nil_append, Nat.zero_add] at he
  have hfront : given n d <+: runs.flatMap (Run.all w) := ⟨e.run.all w, he.values⟩
  have hmem : ∀ v ∈ given n d, ∃ run ∈ runs, v ∈ run.all w := fun v hv =>
    List.mem_flatMap.mp (hfront.subset hv)
  refine ⟨runs, e.stream.rest, he.passed, hfront, he.heads, he.count, fun v hv => ?_, ?_, ?_⟩
  · obtain ⟨run, hrun, hv⟩ := hmem v hv
    obtain ⟨_, _, hspells⟩ := he.passed.spelled run hrun
    exact hspells.lt hv
  · exact fun hall v left hrun hleft => hall v (he.heads _ hrun hleft)
  · intro hall v hv
    obtain ⟨run, hrun, hv⟩ := hmem v hv
    obtain ⟨hleft, ⟨left, rfl⟩ | hlt⟩ := Run.mem_all hv
    · exact hall v left hrun hleft
    · exact hlt

/-- a run of three values of three bits, and a packed group of them -/
def narrow : Bytes := [6, 5, 3, 0x88, 0xC6, 0xFA]

theorem given_runs_narrow : ∃ d runs rest, ofBytes narrow 3 = .ok d ∧ Passed 3 narrow runs rest ∧
    given 4 d = [5, 5, 5, 0] ∧ given 4 d <+: runs.flatMap (Run.all 3) ∧
    ((given 4 d).length = 4 ∨ Blocked 3 narrow runs) ∧
    ((∀ v ∈ given 4 d, v < 2 ^ 3) ↔
      ∀ v left, Run.repeated v left ∈ runs → 0 < left → v < 2 ^ 3) := by
  obtain ⟨d, hd, hgiven⟩ : ∃ d, ofBytes narrow 3 = .ok d ∧ given 4 d = [5, 5, 5, 0] :=
    ⟨_, rfl, by decide +kernel⟩
  obtain ⟨runs, rest, hpassed, hfront, -, hcount, -, hfits⟩ := given_runs hd 4
  exact ⟨d, runs, rest, hd, hpassed, hgiven, hfront, hcount, hfits⟩

/-- a run of ten values of three bits, each of which has eight, is read and given -/
theorem not_given_narrow : (ofBytes [20, 255] 3).map (given 10) = .ok (List.replicate 10 255) :=
  rfl

end Decoder

end Columnar.Hybrid
