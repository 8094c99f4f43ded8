import Columnar.Proofs.Hybrid.Bits
import Columnar.Proofs.Plain.Decoder
import Columnar.Proofs.Value

/-!
# The values of a decoder

Whatever the bytes are, a decoder hands out only values of the type it was made for.

* `Batch.All P b`         all values of `b` satisfy `P`;
* `Decoder.Yields P d`    all values that `d` can hand out do;
* `yields_ofBytes`        those of a new decoder are of its type;
* `Decoder.value_all`, `Decoder.values_all`   single values, and values into a batch.
-/

namespace Columnar

variable {P : Value → Prop}

namespace Step

variable {σ τ ε α : Type} {I : σ → Prop} {J : τ → Prop} {Q : α → Prop}

/-- a step on a part that keeps what is needed of the part -/
theorem maintains_part {part : σ → τ} {set : σ → τ → σ} {x : Step τ ε α} (hx : Maintains J Q x)
    (hpart : ∀ s, I s → J (part s)) (hset : ∀ s t, I s → J t → I (set s t)) :
    Maintains I Q (on part set x) := fun s hs =>
  ⟨hset s _ hs (hx (part s) (hpart s hs)).1, (hx (part s) (hpart s hs)).2⟩

theorem maintains_fst {x : Step σ ε α} (hx : Maintains I Q x) :
    Maintains (fun s : σ × τ => I s.1 ∧ J s.2) Q x.onFst := fun s hs =>
  ⟨⟨(hx s.1 hs.1).1, hs.2⟩, (hx s.1 hs.1).2⟩

theorem maintains_snd {x : Step τ ε α} (hx : Maintains J Q x) :
    Maintains (fun s : σ × τ => I s.1 ∧ J s.2) Q x.onSnd := fun s hs =>
  ⟨⟨hs.1, (hx s.2 hs.2).1⟩, (hx s.2 hs.2).2⟩

end Step

open Step

/-! ## batches -/

namespace Batch

/-- all values of a batch satisfy `P` -/
def All (P : Value → Prop) (b : Batch) : Prop := ∀ v ∈ b.values, P v

theorem all_empty : All P {} := List.forall_mem_nil P

theorem push_all {v : Value} (hv : P v) : Maintains (All P) Any (push v) := by
  refine maintains_bind maintains_state fun b hb => ?_
  split
  · exact maintains_put (List.forall_mem_append.mpr ⟨hb, List.forall_mem_singleton.mpr hv⟩)
  · exact maintains_fail _

theorem pushEach_all {σ : Type} {I : σ → Prop} {x : Step σ Failure Value} (hx : Maintains I P x)
    (n : Nat) : Maintains (fun s => I s.1 ∧ s.2.All P) Any (pushEach x n) := by
  induction n with
  | zero => exact maintains_pure trivial
  | succ n ih =>
    refine maintains_bind (maintains_fst hx) fun v hv => ?_
    exact maintains_bind (maintains_snd (push_all hv)) fun _ _ => ih

end Batch

/-! ## decoders -/

namespace Plain

/-- the bytes of a new value satisfy `P` as soon as there are as many as the type takes -/
structure Decoder.Yields (P : Value → Prop) (d : Decoder) : Prop where
  boolean : d.type = .boolean → ∀ b, P (.boolean b)
  byteArray : d.type = .byteArray → ∀ payload : Bytes, payload.length < 2 ^ 32 →
    P (.byteArray (toLE 4 payload.length ++ payload))
  fixed : d.type ≠ .boolean → d.type ≠ .byteArray → ∀ bs : Bytes, bs.length = d.width →
    P (.ofFixed d.type bs)

variable {t : PhysicalType} {length : Option Nat}

/-- a new decoder yields values of its type -/
theorem yields_ofBytes {bs : Bytes} {d : Decoder} (h : Decoder.ofBytes bs t length = .ok d) :
    d.Yields (Value.Of t length) := by
  unfold Decoder.ofBytes at h
  split at h
  · rename_i w
    cases h
    exact ⟨nofun, nofun, fun _ _ bs hbs => ⟨rfl, congrArg some hbs.symm⟩⟩
  · cases h
  · cases h
  · rename_i h96 hsome hnone
    cases h
    refine ⟨fun hbool b => ⟨hbool.symm, trivial⟩,
      fun harray payload hlen => ⟨harray.symm, payload, rfl, hlen⟩, fun hbool harray bs hbs => ?_⟩
    cases t with
    | boolean => exact absurd rfl hbool
    | byteArray => exact absurd rfl harray
    | int96 => exact (h96 rfl).elim
    | fixedLenByteArray =>
      cases length with
      | none => exact (hnone rfl rfl).elim
      | some w => exact (hsome w rfl rfl).elim
    | int32 | int64 | float | double => exact ⟨rfl, hbs⟩

namespace Decoder

variable {d : Decoder}

theorem Yields.imp {Q : Value → Prop} (h : d.Yields P) (himp : ∀ v, P v → Q v) : d.Yields Q :=
  ⟨fun hb b => himp _ (h.boolean hb b), fun ha p hp => himp _ (h.byteArray ha p hp),
    fun hb ha bs hbs => himp _ (h.fixed hb ha bs hbs)⟩

/-- the type and the width of a decoder are all that matters -/
theorem Yields.congr {e : Decoder} (h : d.Yields P) (htype : e.type = d.type)
    (hwidth : e.width = d.width) : e.Yields P := by
  obtain ⟨hbool, harray, hfixed⟩ := h
  constructor
  · rwa [htype]
  · rwa [htype]
  · rwa [htype, hwidth]

theorem Yields.follows {e : Decoder} (h : d.Yields P) (he : d.Follows e) : e.Yields P :=
  h.congr he.type he.width

theorem view_length {I : Decoder → Prop} (hI : ∀ d e, I d → d.Follows e → I e) (n : Nat) :
    Maintains I (fun bs : Bytes => bs.length = n) (ofCursor (Cursor.view n)) := fun d h =>
  ⟨hI d _ h (ofCursor_maintains d (Cursor.view_follows n) d (.refl d)).1,
    fun _ hbs => (Cursor.view_pos (Prod.ext hbs rfl)).1⟩

/-- what a byte array says of its length is true -/
theorem byteArray_all {I : Decoder → Prop} (hI : ∀ d e, I d → d.Follows e → I e)
    (h : ∀ payload : Bytes, payload.length < 2 ^ 32 →
      P (.byteArray (toLE 4 payload.length ++ payload))) : Maintains I P byteArray := by
  refine maintains_bind (P := Any) (maintains_look fun _ _ => trivial) fun start _ => ?_
  refine maintains_bind (view_length hI 4) fun head hhead => ?_
  refine maintains_bind (maintains_within (view_length hI _)) fun body hbody => maintains_pure ?_
  have hlead : head = toLE 4 body.length := by rw [hbody, ← hhead, toLE_fromLE]
  rw [hlead]
  refine h body ?_
  calc body.length = fromLE head := hbody
    _ < 256 ^ head.length := fromLE_lt head
    _ = 2 ^ 32 := by rw [hhead]

theorem bool_yields : Maintains (Yields P) Any bool :=
  .of_forall fun d h => h.follows (bool_maintains d d (.refl d)).1

theorem value_all : Maintains (Yields P) P value := by
  refine maintains_bind maintains_state fun d hd => ?_
  split
  · rename_i htype
    exact maintains_bind bool_yields fun b _ => maintains_pure (hd.boolean htype b)
  · rename_i htype
    exact byteArray_all (fun _ _ => Yields.follows) (hd.byteArray htype)
  · rename_i hbool harray
    refine maintains_bind (view_length (fun _ _ => Yields.follows) _) fun bs hbs => ?_
    exact maintains_pure (hd.fixed hbool harray bs hbs)

/-- the values of one width that a string is cut into -/
theorem pushFixed_all {t : PhysicalType} {width : Nat}
    (h : ∀ bs : Bytes, bs.length = width → P (.ofFixed t bs)) (n : Nat) :
    ∀ {bs : Bytes}, bs.length = width * n →
      Maintains (Batch.All P) Any (pushFixed t width n bs) := by
  induction n with
  | zero => exact fun _ => maintains_pure trivial
  | succ n ih =>
    intro bs hbs
    rw [Nat.mul_succ] at hbs
    refine maintains_bind (Batch.push_all (h _ ?_)) fun _ _ => ih ?_
    · rw [List.length_take]
      omega
    · rw [List.length_drop]
      omega

theorem values_all (n : Nat) :
    Maintains (fun s => s.1.Yields P ∧ s.2.All P) Any (values n) := by
  refine maintains_bind maintains_state fun s hs => ?_
  dsimp only
  split
  · rename_i htype
    refine Batch.pushEach_all (maintains_mapError ?_) n
    exact maintains_bind bool_yields fun b _ => maintains_pure (hs.1.boolean htype b)
  · rename_i htype
    exact Batch.pushEach_all (maintains_mapError
      (byteArray_all (fun _ _ => Yields.follows) (hs.1.byteArray htype))) n
  · rename_i hbool harray
    split
    · exact maintains_fail _
    · refine maintains_bind (maintains_fst (maintains_mapError
        (view_length (fun _ _ => Yields.follows) _))) fun bs hbs => ?_
      exact maintains_snd (pushFixed_all (hs.1.fixed hbool harray) n hbs)

end Decoder

end Plain

end Columnar
