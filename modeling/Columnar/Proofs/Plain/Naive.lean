import Columnar.Proofs.Plain.Encoder
import Columnar.Proofs.Plain.Layout
import Mathlib.Data.List.Pairwise
import Mathlib.Data.List.SplitBy

/-!
# What calls to an encoder stand for

Said without an encoder: which bytes calls stand for, and how these bytes are cut into calls to a
sink.

* `Op.joins a b`      `b` shares a call to the sink, or a byte, with `a` right before it;
* `naive ops`         the bytes that calls stand for: their own ones, those of booleans packed for
                      every run of booleans;
* `sinkCalls ops`     the calls to the sink: one for every run of spans that go on where the ones
                      before them end.

`flatten_sinkCalls` says that the two agree, and `sinkCalls_infix` that spans that go on where the
ones before them end are in one call, wherever they stand.
-/

namespace Columnar.Plain

namespace Op

def isBool : Op → Bool
  | bool _ => true
  | _ => false

def isSpan : Op → Bool
  | span .. => true
  | _ => false

def bit? : Op → Option Bool
  | bool b => some b
  | _ => none

/-- a boolean behind a boolean, or a span that goes on where the one before it ends -/
def joins : Op → Op → Bool
  | span i _ stop, span j start _ => i = j ∧ stop = start
  | bool _, bool _ => true
  | _, _ => false

end Op

section
variable (buffers : Nat → Bytes)

/-- the bytes of a run of calls: booleans share bytes, other calls have their own -/
def runBytes (run : List Op) : Bytes :=
  packBools (run.filterMap Op.bit?) ++ run.flatMap (Op.bytes buffers)

/-- the bytes of calls, one run after the other; any call but a boolean ends a run of them -/
def naive (ops : List Op) : Bytes :=
  (ops.splitBy fun a b => a.isBool && b.isBool).flatMap (runBytes buffers)

/-- the calls to a sink for calls that are joined -/
def runCalls : List Op → List Bytes
  | .byteArray bs :: _ => toLE 4 bs.length :: Sink.calls bs
  | .bool b :: run => (packBools (b :: run.filterMap Op.bit?)).map fun byte => [byte]
  | run => Sink.calls (run.flatMap (Op.bytes buffers))

def sinkCalls (ops : List Op) : List Bytes := (ops.splitBy Op.joins).flatMap (runCalls buffers)

end

variable {buffers : Nat → Bytes} {as bs run : List Op} {op : Op}

/-! ## chains -/

section
variable {α : Type} {r : α → α → Bool}

/-- a chain, with all in front of it that it goes on from -/
theorem exists_isChain_left {chain : List α} (hne : chain ≠ [])
    (h : chain.IsChain fun a b => r a b) (front : List α) : ∃ before l, front = before ++ l ∧
      (l ++ chain).IsChain (fun a b => r a b) ∧
      ∀ a ∈ before.getLast?, ∀ b ∈ (l ++ chain).head?, r a b = false := by
  induction front using List.reverseRecOn generalizing chain with
  | nil => exact ⟨[], [], rfl, h, nofun⟩
  | append_singleton front a ih =>
    obtain ⟨b, chain, rfl⟩ := List.exists_cons_of_ne_nil hne
    by_cases hjoins : r a b = true
    · obtain ⟨before, l, rfl, hchain, hbefore⟩ := ih (List.cons_ne_nil a (b :: chain))
        (List.isChain_cons_cons.mpr ⟨hjoins, h⟩)
      refine ⟨before, l ++ [a], List.append_assoc .., ?_, ?_⟩
      · rwa [List.append_assoc]
      · rwa [List.append_assoc]
    · refine ⟨front ++ [a], [], (List.append_nil _).symm, h, ?_⟩
      intro a' ha' b' hb'
      rw [List.getLast?_concat, Option.mem_some_iff] at ha'
      rw [List.nil_append, List.head?_cons, Option.mem_some_iff] at hb'
      rw [← ha', ← hb']
      exact Bool.eq_false_iff.mpr hjoins

/-- a chain, with all behind it that goes on from it -/
theorem exists_isChain_right {chain : List α} (hne : chain ≠ [])
    (h : chain.IsChain fun a b => r a b) (back : List α) : ∃ l behind, back = l ++ behind ∧
      (chain ++ l).IsChain (fun a b => r a b) ∧
      ∀ a ∈ (chain ++ l).getLast?, ∀ b ∈ behind.head?, r a b = false := by
  induction back generalizing chain with
  | nil => exact ⟨[], [], rfl, by rwa [List.append_nil], nofun⟩
  | cons b back ih =>
    by_cases hjoins : ∀ a ∈ chain.getLast?, r a b = true
    · have hchain : (chain ++ [b]).IsChain fun a b => r a b := by
        rw [List.isChain_append]
        exact ⟨h, List.isChain_singleton b, fun a ha b' hb' => by
          cases hb'
          exact hjoins a ha⟩
      obtain ⟨l, behind, rfl, hchain, hbehind⟩ :=
        ih (List.append_ne_nil_of_left_ne_nil hne [b]) hchain
      rw [List.append_assoc] at hchain hbehind
      exact ⟨b :: l, behind, rfl, hchain, hbehind⟩
    · refine ⟨[], b :: back, rfl, by rwa [List.append_nil], ?_⟩
      rw [List.append_nil]
      intro a ha b' hb'
      cases hb'
      refine Bool.eq_false_iff.mpr fun hr => hjoins fun a' ha' => ?_
      rwa [Option.mem_unique ha' ha]

/-- what is the same for neighbours is the same in a whole chain -/
theorem isChain_eq {β : Type} {f : α → β} {chain : List α}
    (h : chain.IsChain fun a b => f a = f b) : ∀ a ∈ chain, ∀ b ∈ chain, f a = f b := by
  have : IsTrans α fun a b => f a = f b := ⟨fun _ _ _ => Eq.trans⟩
  have : Std.Symm fun a b : α => f a = f b := ⟨fun _ _ => Eq.symm⟩
  exact (List.isChain_iff_pairwise.mp h).forall_of_forall fun _ _ => rfl

end

namespace Op

variable {a b : Op}

theorem isBool_of_isSpan (h : a.isSpan = true) : a.isBool = false := by
  cases a <;> simp_all [isSpan, isBool]

theorem isBool_of_joins (h : a.joins b = true) : a.isBool = b.isBool := by
  cases a <;> cases b <;> simp_all [isBool, joins]

theorem isSpan_of_joins (h : a.joins b = true) : a.isSpan = b.isSpan := by
  cases a <;> cases b <;> simp_all [isSpan, joins]

theorem joins_of_isBool (ha : a.isBool = true) (hb : b.isBool = true) : a.joins b = true := by
  cases a <;> cases b <;> simp_all [isBool, joins]

/-- calls that neither are for a boolean nor for a span are not joined -/
theorem joins_other (hbool : b.isBool = false) (hspan : b.isSpan = false) (a : Op) :
    a.joins b = false := by
  cases a <;> cases b <;> simp_all [isBool, isSpan, joins]

/-- booleans have no bytes of their own -/
theorem flatMap_bytes_bits (bits : List Bool) : (bits.map bool).flatMap (bytes buffers) = [] := by
  rw [List.flatMap_map]
  exact List.flatMap_eq_nil_iff.mpr fun _ _ => rfl

theorem exists_bits (h : ∀ op ∈ run, op.isBool = true) :
    ∃ bits : List Bool, run = bits.map bool := by
  induction run with
  | nil => exact ⟨[], rfl⟩
  | cons op run ih =>
    obtain ⟨bits, rfl⟩ := ih fun op' hop' => h op' (List.mem_cons_of_mem op hop')
    have hop := h op List.mem_cons_self
    cases op with
    | bool b => exact ⟨b :: bits, rfl⟩
    | _ => cases hop

theorem filterMap_bit (bits : List Bool) : (bits.map bool).filterMap bit? = bits := by
  induction bits with
  | nil => rfl
  | cons b bits ih => exact congrArg (b :: ·) ih

end Op

/-! ## bytes -/

theorem naive_append (h : ∀ a ∈ as.getLast?, ∀ b ∈ bs.head?, (a.isBool && b.isBool) = false) :
    naive buffers (as ++ bs) = naive buffers as ++ naive buffers bs := by
  rw [naive, List.splitBy_append h, List.flatMap_append]
  rfl

theorem naive_concat (as : List Op) (h : op.isBool = false) :
    naive buffers (as ++ [op]) = naive buffers as ++ op.bytes buffers := by
  have hone : naive buffers [op] = op.bytes buffers := by
    have hbits : [op].filterMap Op.bit? = [] := by
      cases op with
      | bool b => cases h
      | _ => rfl
    have hsplit : ([op].splitBy fun a b => a.isBool && b.isBool) = [[op]] := rfl
    rw [naive, hsplit, List.flatMap_singleton, runBytes, hbits, packBools_nil,
      List.nil_append, List.flatMap_singleton]
  rw [naive_append, hone]
  rintro a - b ⟨⟩
  rw [h, Bool.and_false]

/-- calls that are not for booleans have their own bytes -/
theorem naive_append_others (as : List Op) (h : ∀ op ∈ run, op.isBool = false) :
    naive buffers (as ++ run) = naive buffers as ++ run.flatMap (Op.bytes buffers) := by
  induction run generalizing as with
  | nil => rw [List.append_nil, List.flatMap_nil, List.append_nil]
  | cons op run ih =>
    obtain ⟨hop, hrun⟩ := List.forall_mem_cons.mp h
    rw [List.append_cons, ih (as ++ [op]) hrun, naive_concat as hop, List.flatMap_cons,
      List.append_assoc]

/-- a run of booleans -/
theorem naive_append_bits (h : ∀ op ∈ as.getLast?, op.isBool = false) (bits : List Bool) :
    naive buffers (as ++ bits.map .bool) = naive buffers as ++ packBools bits := by
  rw [naive_append fun a ha b _ => by rw [h a ha, Bool.false_and]]
  by_cases hnil : bits = []
  · rw [hnil, packBools_nil]
    rfl
  · have hchain : (bits.map Op.bool).IsChain fun a b => (a.isBool && b.isBool) = true :=
      (List.isChain_map Op.bool).mpr (List.pairwise_of_forall fun _ _ => rfl).isChain
    have hbits : naive buffers (bits.map .bool) = packBools bits := by
      rw [naive, List.splitBy_of_isChain (mt List.map_eq_nil_iff.mp hnil) hchain,
        List.flatMap_singleton, runBytes, Op.filterMap_bit, Op.flatMap_bytes_bits, List.append_nil]
    rw [hbits]

/-! ## calls to a sink -/

theorem sinkCalls_append (h : ∀ a ∈ as.getLast?, ∀ b ∈ bs.head?, a.joins b = false) :
    sinkCalls buffers (as ++ bs) = sinkCalls buffers as ++ sinkCalls buffers bs := by
  rw [sinkCalls, List.splitBy_append h, List.flatMap_append]
  rfl

/-- calls that are joined, behind some that they are not joined to -/
theorem sinkCalls_append_run (hne : run ≠ []) (hchain : run.IsChain fun a b => a.joins b)
    (h : ∀ a ∈ as.getLast?, ∀ b ∈ run.head?, a.joins b = false) :
    sinkCalls buffers (as ++ run) = sinkCalls buffers as ++ runCalls buffers run := by
  rw [sinkCalls_append h, sinkCalls, sinkCalls, List.splitBy_of_isChain hne hchain,
    List.flatMap_singleton]

/-- any call but one for a boolean or a span -/
theorem sinkCalls_concat (as : List Op) (hbool : op.isBool = false) (hspan : op.isSpan = false) :
    sinkCalls buffers (as ++ [op]) = sinkCalls buffers as ++ runCalls buffers [op] := by
  refine sinkCalls_append_run (List.cons_ne_nil op []) (List.isChain_singleton op) ?_
  rintro a - b ⟨⟩
  exact Op.joins_other hbool hspan a

theorem runCalls_spans (h : ∀ op ∈ run, op.isSpan = true) :
    runCalls buffers run = Sink.calls (run.flatMap (Op.bytes buffers)) := by
  unfold runCalls
  split
  · exact nomatch h _ List.mem_cons_self
  · exact nomatch h _ List.mem_cons_self
  · rfl

theorem runCalls_bits (bits : List Bool) :
    runCalls buffers (bits.map .bool) = (packBools bits).map fun byte => [byte] := by
  cases bits with
  | nil =>
    rw [packBools_nil]
    rfl
  | cons b bits => rw [List.map_cons, runCalls, Op.filterMap_bit]

/-- a run of booleans -/
theorem sinkCalls_append_bits (h : ∀ op ∈ as.getLast?, op.isBool = false) (bits : List Bool) :
    sinkCalls buffers (as ++ bits.map .bool) =
      sinkCalls buffers as ++ (packBools bits).map fun byte => [byte] := by
  by_cases hnil : bits = []
  · simp [hnil, packBools_nil]
  · have hchain : (bits.map Op.bool).IsChain fun a b => a.joins b = true :=
      (List.isChain_map Op.bool).mpr (List.pairwise_of_forall fun _ _ => rfl).isChain
    rw [sinkCalls_append_run (mt List.map_eq_nil_iff.mp hnil) hchain, runCalls_bits]
    intro a ha b hb
    obtain ⟨_, -, rfl⟩ := List.mem_map.mp (List.mem_of_mem_head? hb)
    exact Bool.eq_false_iff.mpr fun hjoins =>
      nomatch (h a ha).symm.trans (Op.isBool_of_joins hjoins)

/-! ## calls to a sink and bytes -/

theorem flatten_runCalls_singleton (op : Op) (h : op.isBool = false) :
    (runCalls buffers [op]).flatten = op.bytes buffers := by
  cases op with
  | bool b => cases h
  | byteArray bs =>
    rw [runCalls, List.flatten_cons, Sink.flatten_calls]
    rfl
  | _ => exact (Sink.flatten_calls _).trans (List.flatMap_singleton _ _)

/-- calls that are joined are for booleans, or have their own bytes -/
theorem run_cases (buffers : Nat → Bytes) (hne : run ≠ [])
    (hchain : run.IsChain fun a b => a.joins b) :
    (∃ bits : List Bool, run = bits.map .bool) ∨ (∀ op ∈ run, op.isBool = false) ∧
      (runCalls buffers run).flatten = run.flatMap (Op.bytes buffers) := by
  obtain ⟨op, run, rfl⟩ := List.exists_cons_of_ne_nil hne
  have hbool : ∀ op' ∈ op :: run, op'.isBool = op.isBool := fun op' hop' =>
    isChain_eq (f := Op.isBool) (hchain.imp fun _ _ => Op.isBool_of_joins) op' hop' op
      List.mem_cons_self
  have hspan : ∀ op' ∈ op :: run, op'.isSpan = op.isSpan := fun op' hop' =>
    isChain_eq (f := Op.isSpan) (hchain.imp fun _ _ => Op.isSpan_of_joins) op' hop' op
      List.mem_cons_self
  rcases hb : op.isBool with _ | _
  · refine .inr ⟨fun op' hop' => (hbool op' hop').trans hb, ?_⟩
    rcases hs : op.isSpan with _ | _
    · -- nothing is joined to such a call
      rcases run with _ | ⟨op', run⟩
      · rw [flatten_runCalls_singleton op hb, List.flatMap_singleton]
      · have hjoins := (List.isChain_cons_cons.mp hchain).1
        have hmem : op' ∈ op :: op' :: run := List.mem_cons_of_mem op List.mem_cons_self
        rw [Op.joins_other ((hbool op' hmem).trans hb) ((hspan op' hmem).trans hs)] at hjoins
        cases hjoins
    · rw [runCalls_spans fun op' hop' => (hspan op' hop').trans hs, Sink.flatten_calls]
  · exact .inl (Op.exists_bits fun op' hop' => (hbool op' hop').trans hb)

/-- the calls to the sink carry the bytes that calls stand for -/
theorem flatten_sinkCalls (ops : List Op) :
    (sinkCalls buffers ops).flatten = naive buffers ops := by
  induction hlen : ops.length using Nat.strong_induction_on generalizing ops with
  | h n ih =>
    rcases List.eq_nil_or_concat ops with rfl | ⟨front, op, rfl⟩
    · rfl
    · rw [List.concat_eq_append] at hlen ⊢
      obtain ⟨before, l, rfl, hchain, hbefore⟩ :=
        exists_isChain_left (List.cons_ne_nil op []) (List.isChain_singleton op) front
      have hne : l ++ [op] ≠ [] := List.concat_ne_nil op l
      have hih := ih before.length (by simp at hlen; omega) before rfl
      rw [List.append_assoc]
      rcases run_cases buffers hne hchain with ⟨bits, hbits⟩ | ⟨hothers, hflatten⟩
      · rw [hbits] at hbefore ⊢
        have hend : ∀ op ∈ before.getLast?, op.isBool = false := by
          obtain ⟨b, bits, rfl⟩ : ∃ b bits', bits = b :: bits' :=
            List.exists_cons_of_ne_nil (mt List.map_eq_nil_iff.mpr (hbits ▸ hne))
          intro op' hop'
          have hnot := hbefore op' hop' (.bool b) rfl
          exact Bool.eq_false_iff.mpr fun hbool =>
            nomatch hnot.symm.trans (Op.joins_of_isBool hbool rfl)
        rw [sinkCalls_append_bits hend, naive_append_bits hend, List.flatten_append, hih,
          ← List.flatMap_def, List.flatMap_singleton']
      · rw [sinkCalls_append_run hne hchain hbefore, naive_append_others before hothers,
          List.flatten_append, hih, hflatten]

/-- spans that go on where the ones before them end are in one call to the sink, at their place in
the bytes -/
theorem sinkCalls_infix (buffers : Nat → Bytes) (front back : List Op) {chain : List Op}
    (hne : chain ≠ [])
    (hspans : ∀ op ∈ chain, op.isSpan = true) (hchain : chain.IsChain fun a b => a.joins b) :
    ∃ before behind left right,
      sinkCalls buffers (front ++ chain ++ back) = before ++
        Sink.calls (left ++ chain.flatMap (Op.bytes buffers) ++ right) ++ behind ∧
      before.flatten ++ left = naive buffers front := by
  obtain ⟨before, l, rfl, hleft, hbefore⟩ := exists_isChain_left hne hchain front
  have hne' : l ++ chain ≠ [] := List.append_ne_nil_of_right_ne_nil l hne
  obtain ⟨r, behind, rfl, hrun, hbehind⟩ := exists_isChain_right hne' hleft back
  have hall : ∀ op ∈ l ++ chain ++ r, op.isSpan = true := by
    obtain ⟨s, chain, rfl⟩ := List.exists_cons_of_ne_nil hne
    intro op hop
    have hs := hspans s List.mem_cons_self
    rw [← hs]
    exact isChain_eq (f := Op.isSpan) (hrun.imp fun _ _ => Op.isSpan_of_joins) op hop s (by simp)
  have hfront : ∀ a ∈ before.getLast?, ∀ b ∈ (l ++ chain ++ r).head?, a.joins b = false := by
    rwa [List.head?_append_of_ne_nil _ hne']
  have hback : ∀ a ∈ (before ++ (l ++ chain ++ r)).getLast?, ∀ b ∈ behind.head?,
      a.joins b = false := by
    rwa [List.getLast?_append_of_ne_nil _ (List.append_ne_nil_of_left_ne_nil hne' r)]
  have hcalls : sinkCalls buffers (before ++ l ++ chain ++ (r ++ behind)) =
      sinkCalls buffers before ++ Sink.calls ((l ++ chain ++ r).flatMap (Op.bytes buffers)) ++
        sinkCalls buffers behind := by
    have hlist : before ++ l ++ chain ++ (r ++ behind) = before ++ (l ++ chain ++ r) ++ behind := by
      simp only [List.append_assoc]
    rw [hlist, sinkCalls_append hback,
      sinkCalls_append_run (List.append_ne_nil_of_left_ne_nil hne' r) hrun hfront,
      runCalls_spans hall]
  refine ⟨sinkCalls buffers before, sinkCalls buffers behind, l.flatMap (Op.bytes buffers),
    r.flatMap (Op.bytes buffers), ?_, ?_⟩
  · rw [hcalls, List.flatMap_append, List.flatMap_append]
  · have hl : ∀ op ∈ l, op.isBool = false := fun op hop =>
      Op.isBool_of_isSpan (hall op (List.mem_append_left r (List.mem_append_left chain hop)))
    rw [flatten_sinkCalls, naive_append_others before hl]

end Columnar.Plain
