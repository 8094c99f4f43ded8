import Columnar.Proofs.Compact.Loosened
import Columnar.Proofs.Record.Counted
import Columnar.Proofs.Record.Sizes

/-!
# Records under looser limits

A record that is read is read under looser limits as well.  Limits that are loose enough can be told
from the bytes of a record: nothing in it is larger than they are.

* `Codec.Built.endures`         payloads endure looser limits, and so do records;
* `Format.decode_loosened`      the same of records that are read on their own;
* `Write.AtLeast k x`           an answer of `x` is `k` at least;
* `Codec.Contains.le_length`    what is in a record is no larger than its bytes.
-/

namespace Columnar

open Columnar.Compact

variable {α R : Type} {F : Format R} {o o' : Options}

/-! ## reading -/

theorem Format.endures_readField (h : ∀ f ∈ F.fields, Read.Endures o f.codec.read) (d : F.Draft)
    (t : WireType) (id : Int16) : Read.Endures o (F.readField d t id) := by
  unfold readField
  split
  · rename_i f hfind
    exact Read.endures_bind (h f (List.mem_of_find?_eq_some hfind)) fun _ => Read.endures_pure _
  · exact Read.endures_bind (Read.endures_skip t) fun _ => Read.endures_pure d

/-- a record endures looser limits as soon as its fields do -/
theorem Format.endures (h : ∀ f ∈ F.fields, Read.Endures o f.codec.read) :
    Read.Endures o F.read :=
  Read.endures_bind (Read.endures_foldStruct (endures_readField h) F.blank) fun _ =>
    Read.endures_lift _

/-- every payload endures looser limits -/
theorem Codec.Built.endures {c : Codec α} (h : c.Built) : Read.Endures o c.read := by
  induction h with
  | bool => exact Read.endures_bool
  | i16 => exact Read.endures_i16
  | i32 => exact Read.endures_i32
  | i64 => exact Read.endures_i64
  | binary => exact Read.endures_binary
  | string => exact Read.endures_string
  | code => exact Read.endures_bind Read.endures_i32 fun c => Read.endures_lift _
  | codes =>
    refine Read.endures_bind Read.endures_listBegin fun h => ?_
    refine Read.endures_bind (Read.endures_reserve _ _) fun _ => ?_
    exact Read.endures_bind (Read.endures_times Read.endures_i32 _) fun cs => Read.endures_lift _
  | strings =>
    refine Read.endures_bind Read.endures_listBegin fun h => ?_
    refine Read.endures_bind (Read.endures_reserve _ _) fun _ => ?_
    exact Read.endures_times Read.endures_string _
  | record _ ih => exact Format.endures ih
  | records _ ih =>
    refine Read.endures_bind Read.endures_listBegin fun h => ?_
    refine Read.endures_ite ?_ (Read.endures_fail _)
    refine Read.endures_bind (Read.endures_reserve _ _) fun _ => ?_
    exact Read.endures_times (Format.endures ih) _

/-- a record that is read is read under looser limits -/
theorem Format.decode_loosened (hF : Fields.Built F.fields) {bs : Bytes} {x : R × Nat}
    (h : F.decode o bs = .ok x) (hstring : o.stringLimit ≤ o'.stringLimit)
    (hcontainer : o.containerLimit ≤ o'.containerLimit) : F.decode o' bs = .ok x := by
  rw [decode] at h ⊢
  rcases hrun : F.read (.ofCursor (.ofBytes bs) o) with ⟨e | r, s⟩
  · rw [hrun] at h
    cases h
  · rw [hrun] at h
    have hloose := Format.endures (o := o') (fun f hf => (hF f hf).endures) _ r s hrun
    rw [Reader.loosen_ofCursor hstring hcontainer] at hloose
    rw [hloose]
    exact h

/-! ## writing -/

namespace Compact.Write

variable {k l : Nat} {x y : Write Nat} {xs : List (Write Nat)}

/-- an answer of `x` is `k` at least -/
def AtLeast (k : Nat) (x : Write Nat) : Prop := ∀ w n w', x w = (.ok n, w') → k ≤ n

theorem atLeast_zero (x : Write Nat) : AtLeast 0 x := fun _ _ _ _ => Nat.zero_le _

theorem AtLeast.mono (h : AtLeast k x) (hl : l ≤ k) : AtLeast l x :=
  fun w n w' hrun => Nat.le_trans hl (h w n w' hrun)

theorem atLeast_call (bs : Bytes) : AtLeast bs.length (call bs) := by
  intro w n w' h
  obtain ⟨⟨⟩, v, -, h₁⟩ := Step.bind_eq_ok.mp h
  cases h₁
  exact Nat.le_refl _

/-- two writers, and the sum of what they answer -/
theorem atLeast_add (hx : AtLeast k x) (hy : AtLeast l y) :
    AtLeast (k + l) (do let n ← x; let m ← y; pure (n + m)) := by
  intro w i w' h
  obtain ⟨n, v, hn, h₁⟩ := Step.bind_eq_ok.mp h
  obtain ⟨m, v', hm, h₂⟩ := Step.bind_eq_ok.mp h₁
  cases h₂
  exact Nat.add_le_add (hx w n v hn) (hy v m _ hm)

theorem atLeast_varint (n : Nat) : AtLeast 1 (varint n) :=
  (atLeast_call _).mono (List.length_pos_iff.mpr (Varint.encode_ne_nil n))

/-- a byte string has its length in front -/
theorem atLeast_binary (bs : Bytes) : AtLeast (1 + bs.length) (binary bs) :=
  atLeast_add (atLeast_varint _) (atLeast_call bs)

theorem atLeast_total (h : ∀ x ∈ xs, AtLeast 1 x) : AtLeast xs.length (total xs) := by
  induction xs with
  | nil => exact atLeast_zero _
  | cons x xs ih =>
    obtain ⟨hx, hxs⟩ := List.forall_mem_cons.mp h
    exact (atLeast_add hx (ih hxs)).mono (Nat.le_of_eq (Nat.add_comm _ _))

theorem atLeast_total_mem (hx : x ∈ xs) (h : AtLeast k x) : AtLeast k (total xs) := by
  induction xs with
  | nil => cases hx
  | cons y xs ih =>
    rcases List.mem_cons.mp hx with rfl | hx
    · exact (atLeast_add h (atLeast_zero _)).mono (Nat.le_add_right _ _)
    · exact (atLeast_add (atLeast_zero _) (ih hx)).mono (Nat.le_add_left _ _)

theorem atLeast_field (t : WireType) (id : Int16) (h : AtLeast k x) : AtLeast k (field t id x) := by
  intro w i w' hrun
  obtain ⟨head, v₁, -, h₁⟩ := Step.bind_eq_ok.mp hrun
  obtain ⟨body, v₂, hbody, h₂⟩ := Step.bind_eq_ok.mp h₁
  obtain ⟨tail, v₃, -, h₃⟩ := Step.bind_eq_ok.mp h₂
  cases h₃
  have hk := h v₁ body v₂ hbody
  omega

/-- a struct has a byte that ends it -/
theorem atLeast_struct (h : AtLeast k x) : AtLeast (k + 1) (struct x) := by
  intro w i w' hrun
  obtain ⟨head, v₁, -, h₁⟩ := Step.bind_eq_ok.mp hrun
  obtain ⟨body, v₂, hbody, h₂⟩ := Step.bind_eq_ok.mp h₁
  obtain ⟨stop, v₃, hstop, h₃⟩ := Step.bind_eq_ok.mp h₂
  obtain ⟨tail, v₄, -, h₄⟩ := Step.bind_eq_ok.mp h₃
  cases h₄
  have hk := h v₁ body v₂ hbody
  have hone := atLeast_call [0] v₂ stop v₃ hstop
  rw [List.length_singleton] at hone
  omega

/-- a list takes a byte at least for each of its elements -/
theorem atLeast_list {β : Type} (t : WireType) {write : β → Write Nat}
    (h : ∀ b, AtLeast 1 (write b)) (bs : List β) : AtLeast bs.length (do
      let head ← listBegin t bs.length
      let body ← total (bs.map write)
      pure (head + body)) := by
  have hbody : AtLeast bs.length (total (bs.map write)) := by
    rw [← show (bs.map write).length = bs.length from List.length_map write]
    refine atLeast_total fun x hx => ?_
    obtain ⟨b, -, rfl⟩ := List.mem_map.mp hx
    exact h b
  exact (atLeast_add (atLeast_zero _) hbody).mono (Nat.le_add_left _ _)

/-- a list takes the bytes of each of its elements -/
theorem atLeast_list_mem {β : Type} (t : WireType) {write : β → Write Nat} {b : β} {bs : List β}
    (hb : b ∈ bs) (h : AtLeast k (write b)) : AtLeast k (do
      let head ← listBegin t bs.length
      let body ← total (bs.map write)
      pure (head + body)) :=
  (atLeast_add (atLeast_zero _) (atLeast_total_mem (List.mem_map_of_mem hb) h)).mono
    (Nat.le_add_left _ _)

end Compact.Write

/-! ## what is in a record -/

open Compact.Write

/-- how many bytes or elements a size stands for -/
def Compact.Size.amount : Size → Nat
  | bytes n | list n | map n => n

/-- a record takes the bytes of each of its fields, and one behind them -/
theorem Format.atLeast_write {r : R} {f : Field F.Draft} {x : f.Payload} {k : Nat}
    (hf : f ∈ F.fields) (hx : f.get (F.draft r) = some x) (h : AtLeast k (f.codec.write x)) :
    AtLeast k (F.write r) := by
  have hfield : AtLeast k (F.writeField (F.draft r) f) := by
    rw [writeField, hx]
    exact atLeast_field _ _ h
  exact (atLeast_struct (atLeast_total_mem (List.mem_map_of_mem hf) hfield)).mono
    (Nat.le_add_right _ _)

/-- what is in a payload is no larger than what is written for it -/
theorem Codec.Contains.atLeast {c : Codec α} {x : α} {s : Size} (h : c.Contains x s) :
    AtLeast s.amount (c.write x) := by
  have hbinary (bs : Bytes) : AtLeast bs.length (Write.binary bs) :=
    (atLeast_binary bs).mono (Nat.le_add_left _ _)
  induction h with
  | binary bs => exact hbinary bs
  | string t => exact hbinary _
  | codes xs => exact atLeast_list _ (fun _ => atLeast_varint _) xs
  | strings ts =>
    exact atLeast_list _ (fun _ => (atLeast_binary _).mono (Nat.le_add_right _ _)) ts
  | mem_strings ht => exact atLeast_list_mem _ ht (hbinary _)
  | records rs => exact atLeast_list _ (fun _ => atLeast_struct (atLeast_zero _)) rs
  | mem_records hr _ ih => exact atLeast_list_mem _ hr ih
  | field hf hx _ ih => exact Format.atLeast_write hf hx ih

/-- what is in a record is no larger than its bytes -/
theorem Codec.Contains.le_length {kind : RecordKind} {r : kind.Record} {s : Size}
    (h : (Codec.record kind.format).Contains r s) {bs : Bytes} {n : Nat}
    (hencode : kind.format.encode r = .ok (bs, n)) : s.amount ≤ bs.length := by
  have hlen := Format.length_of_encode kind.built hencode
  rw [Format.encode, Format.append] at hencode
  rcases hrun : kind.format.write r { sink := .holding [] } with ⟨e | m, w⟩
  · rw [hrun] at hencode
    cases hencode
  · rw [hrun] at hencode
    cases hencode
    exact hlen ▸ h.atLeast _ n _ hrun

end Columnar
