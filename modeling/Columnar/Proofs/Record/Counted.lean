import Columnar.Proofs.Record.Built

/-!
# Writers count what they write

Every writer answers the number of bytes that it wrote, whatever the values: small writers do, and
a writer that is put together of others adds up their answers.

* `Write.Adds i k x`           with what `x` writes, `i` more than before, the answer is counted;
* `Write.Counts x`             `x` answers the number of bytes that it wrote;
* `Format.length_of_encode`    the bytes of a record are as many as is said.
-/

namespace Columnar

open Columnar.Compact

namespace Compact.Write

/-- when `i` bytes were written that an answer `a` has to count, what `x` writes makes them
`k a` -/
def Adds {α : Type} (i : Nat) (k : α → Nat) (x : Write α) : Prop :=
  ∀ w a w', x w = (.ok a, w') → w'.sink.bytes.length + i = w.sink.bytes.length + k a

/-- a writer that answers the number of bytes that it wrote -/
def Counts (x : Write Nat) : Prop := Adds 0 id x

section
variable {α β : Type} {i : Nat} {k : α → Nat} {j : β → Nat}

theorem adds_bind {x : Write α} {f : α → Write β} (hx : Adds 0 k x)
    (hf : ∀ a, Adds (i + k a) j (f a)) : Adds i j (x >>= f) := by
  intro w b w' h
  obtain ⟨a, v, hv, h₁⟩ := Step.bind_eq_ok.mp h
  have hfirst := hx w a v hv
  have hsecond := hf a v b w' h₁
  omega

theorem adds_pure {a : α} (h : i = k a) : Adds i k (pure a) := by
  intro w b w' hrun
  cases hrun
  rw [h]

theorem adds_fail (e : Error) : Adds i k (Step.fail e) := fun _ _ _ h => nomatch h

/-- a step that writes nothing -/
theorem adds_still {x : Write α} (h : ∀ w a w', x w = (.ok a, w') → w'.sink = w.sink) :
    Adds 0 (fun _ => 0) x := by
  intro w a w' hrun
  rw [h w a w' hrun]

theorem adds_look (f : Writer → α) : Adds 0 (fun _ => 0) (Step.look f) :=
  adds_still fun _ _ _ h => by cases h; rfl

theorem adds_update {f : Writer → Writer} (h : ∀ w, (f w).sink = w.sink) :
    Adds 0 (fun _ => 0) (Step.update f) :=
  adds_still fun w _ _ hrun => by cases hrun; exact h w

end

/-! ## small writers -/

theorem counts_call (bs : Bytes) : Counts (call bs) := by
  intro w n w' h
  obtain ⟨⟨⟩, v, hv, h₁⟩ := Step.bind_eq_ok.mp h
  cases h₁
  rw [Step.on_apply] at hv
  rcases hwrite : Sink.write bs w.sink with ⟨e | ⟨⟩, s⟩
  · rw [hwrite] at hv
    cases hv
  · rw [hwrite] at hv
    cases hv
    show s.bytes.length + 0 = _
    rw [Sink.bytes_write_ok hwrite, List.length_append]
    rfl

theorem counts_pure_zero : Counts (pure 0) := adds_pure rfl

/-- two writers, and the sum of what they answer -/
theorem counts_add {x y : Write Nat} (hx : Counts x) (hy : Counts y) :
    Counts (do let n ← x; let m ← y; pure (n + m)) := by
  refine adds_bind hx fun n => adds_bind hy fun m => adds_pure ?_
  rw [Nat.zero_add]
  rfl

theorem counts_binary (bs : Bytes) : Counts (binary bs) :=
  counts_add (counts_call _) (counts_call bs)

theorem counts_listBegin (t : WireType) (n : Nat) : Counts (listBegin t n) := by
  rw [listBegin]
  split
  · exact counts_call _
  · exact counts_add (counts_call _) (counts_call _)

theorem counts_total {xs : List (Write Nat)} (h : ∀ x ∈ xs, Counts x) : Counts (total xs) := by
  induction xs with
  | nil => exact counts_pure_zero
  | cons x xs ih =>
    obtain ⟨hx, hxs⟩ := List.forall_mem_cons.mp h
    exact counts_add hx (ih hxs)

/-! ## fields and structs -/

theorem counts_fieldHeader (code : UInt8) (number : Int16) : Counts (fieldHeader code number) := by
  refine adds_bind (adds_look _) fun last => ?_
  -- the header is counted before its number becomes the last one
  have hupdate (n : Nat) : Adds n id (do
      Step.update fun w => { w with lastField := number }
      pure n) := adds_bind (adds_update fun _ => rfl) fun _ => adds_pure rfl
  dsimp only
  split
  · refine adds_bind (counts_call _) fun n => ?_
    rw [Nat.zero_add]
    exact hupdate n
  · refine adds_bind (counts_call _) fun n => adds_bind (counts_call _) fun m => ?_
    rw [Nat.zero_add]
    exact hupdate (n + m)

theorem counts_fieldBegin (t : WireType) (id : Int16) : Counts (fieldBegin t id) := by
  rw [fieldBegin]
  split
  · refine adds_bind (adds_look _) fun pending => ?_
    split
    · exact adds_fail _
    · exact adds_bind (adds_update fun _ => rfl) fun _ => counts_pure_zero
  · exact counts_fieldHeader _ _

theorem counts_fieldEnd : Counts fieldEnd := by
  refine adds_bind (adds_look _) fun pending => ?_
  split
  · exact adds_fail _
  · exact counts_pure_zero

theorem counts_bool (b : Bool) : Counts (bool b) := by
  refine adds_bind (adds_look _) fun pending => ?_
  split
  · exact adds_bind (adds_update fun _ => rfl) fun _ => counts_fieldHeader _ _
  · exact counts_call _

theorem counts_field (t : WireType) (id : Int16) {x : Write Nat} (hx : Counts x) :
    Counts (field t id x) := by
  refine adds_bind (counts_fieldBegin t id) fun head => adds_bind hx fun body =>
    adds_bind counts_fieldEnd fun tail => adds_pure ?_
  rw [Nat.zero_add]
  rfl

theorem counts_struct {x : Write Nat} (hx : Counts x) : Counts (struct x) := by
  have hbegin : Counts structBegin := by
    intro w n w' h
    rw [structBegin, Step.state_bind] at h
    split at h
    · cases h
    · cases h
      rfl
  have hend : Counts structEnd := by
    intro w n w' h
    rw [structEnd, Step.state_bind] at h
    rcases henclosing : w.enclosing with _ | ⟨last, enclosing⟩
    · rw [henclosing] at h
      cases h
    · rw [henclosing] at h
      cases h
      rfl
  refine adds_bind hbegin fun head => adds_bind hx fun body =>
    adds_bind (counts_call [0]) fun stop => adds_bind hend fun tail => adds_pure ?_
  rw [Nat.zero_add]
  rfl

end Compact.Write

/-! ## records -/

open Compact.Write in
theorem Format.counts {R : Type} {F : Format R}
    (h : ∀ f ∈ F.fields, ∀ x, Counts (f.codec.write x)) (r : R) : Counts (F.write r) := by
  refine counts_struct (counts_total fun x hx => ?_)
  obtain ⟨f, hf, rfl⟩ := List.mem_map.mp hx
  rw [writeField]
  cases f.get (F.draft r) with
  | none => exact counts_pure_zero
  | some payload => exact counts_field _ _ (h f hf payload)

open Compact.Write in
/-- every payload is counted -/
theorem Codec.Built.counts {α : Type} {c : Codec α} (h : c.Built) : ∀ x, Counts (c.write x) := by
  have hlist {β : Type} (t : WireType) (write : β → Write Nat) (hwrite : ∀ b, Counts (write b))
      (bs : List β) :
      Counts (do
        let head ← Write.listBegin t bs.length
        let body ← Write.total (bs.map write)
        pure (head + body)) := by
    refine counts_add (counts_listBegin t _) (counts_total fun x hx => ?_)
    obtain ⟨b, -, rfl⟩ := List.mem_map.mp hx
    exact hwrite b
  induction h with
  | bool => exact counts_bool
  | i16 => exact fun _ => counts_call _
  | i32 => exact fun _ => counts_call _
  | i64 => exact fun _ => counts_call _
  | binary => exact counts_binary
  | string => exact fun _ => counts_binary _
  | code => exact fun _ => counts_call _
  | codes => exact hlist .i32 _ fun _ => counts_call _
  | strings => exact hlist .binary _ fun _ => counts_binary _
  | record _ ih => exact fun r => Format.counts ih r
  | records _ ih => exact hlist .struct _ fun r => Format.counts ih r

/-- a record takes as many bytes as is said -/
theorem Format.length_of_encode {R : Type} {F : Format R} (h : Fields.Built F.fields) {r : R}
    {bs : Bytes} {n : Nat} (hencode : F.encode r = .ok (bs, n)) : n = bs.length := by
  have hcounts := Format.counts (fun f hf => (h f hf).counts) r
  rw [encode, append] at hencode
  rcases hrun : F.write r { sink := .holding [] } with ⟨e | m, w⟩
  · rw [hrun] at hencode
    cases hencode
  · rw [hrun] at hencode
    cases hencode
    exact (Nat.zero_add n).symm.trans (hcounts _ _ _ hrun).symm

end Columnar
