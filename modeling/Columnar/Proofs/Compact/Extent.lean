import Columnar.Proofs.Compact.Limits

/-!
# How much a reader is given

What a reader of the compact protocol gives away has a size: a byte string, a list or a set, a
map.  A size is held against the limits before it is given away, except that of a short list, which
stands in the header.

* `Size`                  the size of a byte string or of a container;
* `Size.Within o`         a size that is within the limits of `o`;
* `Size.Allowed o`        a size that is, or that a header says by itself;
* `Read.pass t`           `skip t`, which answers the sizes of all that it passes over;
* `Query`, `Reached o r`  calls to a reader, and the readers that calls lead to under the limits
                          of `o`, whether they were answered or not.

`skip_eq` says that `pass` is `skip`, and `keeps_pass` that nothing is passed over but what is
allowed.
-/

namespace Columnar.Compact

open Step

/-! ## sizes -/

/-- the size of a byte string, of a list or set, or of a map -/
inductive Size where
  | bytes (n : Nat)
  | list (n : Nat)
  | map (n : Nat)
deriving DecidableEq

namespace Size

variable {o : Options} {s : Size} {n : Nat}

/-- a size is within the limits -/
def Within (o : Options) : Size → Prop
  | bytes n => n ≤ o.stringLimit
  | list n => n ≤ o.containerLimit
  | map n => n ≤ o.containerLimit

instance (o : Options) (s : Size) : Decidable (s.Within o) := by
  cases s <;> exact inferInstanceAs (Decidable (_ ≤ _))

/-- a size is within the limits, or it is that of a list and stands in the header -/
def Allowed (o : Options) (s : Size) : Prop := s.Within o ∨ ∃ n < 15, s = list n

theorem allowed_list : (list n).Allowed o ↔ n < 15 ∨ n ≤ o.containerLimit := by
  constructor
  · rintro (h | ⟨m, hm, ⟨⟩⟩)
    · exact .inr h
    · exact .inl hm
  · rintro (h | h)
    · exact .inr ⟨n, h, rfl⟩
    · exact .inl h

/-- a limit that no header goes beyond is kept -/
theorem Allowed.within (h : s.Allowed o) (ho : 14 ≤ o.containerLimit) : s.Within o := by
  rcases h with h | ⟨n, hn, rfl⟩
  · exact h
  · show n ≤ o.containerLimit
    omega

end Size

/-! ## what is passed over -/

namespace Read

variable {o : Options}

/-- `skipWithin` with the sizes of what it passes over, each before those of what is in it -/
def passWithin : Nat → WireType → Read (List Size)
  | 0, _ => Step.fail Fault.skippedTooDeep
  | depth + 1, t =>
    match t with
    | .binary => do
      let bs ← binary
      pure [.bytes bs.length]
    | .struct => foldStruct (fun sizes t _ => do
        let inner ← passWithin depth t
        pure (sizes ++ inner)) []
    | .list | .set => do
      let (t, n) ← listBegin
      let inner ← Step.times n (passWithin depth t)
      pure (.list n :: inner.flatten)
    | .map => do
      let header ← mapBegin
      match header.types with
      | none => pure [.map header.size]
      | some (key, value) =>
        let inner ← Step.times header.size do
          let keys ← passWithin depth key
          let values ← passWithin depth value
          pure (keys ++ values)
        pure (.map header.size :: inner.flatten)
    -- numbers and booleans have no size, and a stop is refused
    | t => do
      skipWithin (depth + 1) t
      pure []

/-- a value of type `t`, read for the sizes of all that is in it -/
def pass (t : WireType) : Read (List Size) := passWithin maxSkipDepth t

/-- what only forgets is done behind the fields as well as between them -/
theorem foldFields_map {β γ : Type} {g : β → γ} {f : β → WireType → Int16 → Read β}
    {f' : γ → WireType → Int16 → Read γ} (h : ∀ b t id, f' (g b) t id = g <$> f b t id)
    (fuel : Nat) : ∀ b, foldFields f' fuel (g b) = g <$> foldFields f fuel b := by
  induction fuel with
  | zero => exact fun _ => rfl
  | succ fuel ih =>
    intro b
    rw [foldFields, foldFields, map_bind]
    refine bind_congr fun field => ?_
    rcases field with _ | ⟨t, id⟩
    · rfl
    · dsimp only
      rw [h, map_bind, bind_map_left]
      exact bind_congr fun b' => ih b'

theorem foldStruct_map {β γ : Type} {g : β → γ} {f : β → WireType → Int16 → Read β}
    {f' : γ → WireType → Int16 → Read γ} (h : ∀ b t id, f' (g b) t id = g <$> f b t id) (b : β) :
    foldStruct f' (g b) = g <$> foldStruct f b := by
  rw [foldStruct, foldStruct, map_bind]
  refine bind_congr fun _ => ?_
  rw [map_bind]
  refine bind_congr fun left => ?_
  rw [foldFields_map h, map_bind, bind_map_left]
  refine bind_congr fun b' => ?_
  rw [map_bind]
  rfl

/-- what is skipped is passed over, and its sizes forgotten -/
theorem skipWithin_eq (depth : Nat) :
    ∀ t, skipWithin depth t = (fun _ => ()) <$> passWithin depth t := by
  induction depth with
  | zero => exact fun _ => rfl
  | succ depth ih =>
    intro t
    have still {x : Read Unit} : x = (fun _ => ()) <$> (do x; pure ([] : List Size)) := by
      rw [map_bind]
      exact (bind_pure x).symm
    have list : (listBegin >>= fun h => Step.replicate h.2 (skipWithin depth h.1)) =
        (fun _ => ()) <$> (do
          let h ← listBegin
          let inner ← Step.times h.2 (passWithin depth h.1)
          pure (Size.list h.2 :: inner.flatten)) := by
      rw [map_bind]
      refine bind_congr fun h => ?_
      rw [ih, replicate_map, map_bind]
      rfl
    cases t with
    | stop => exact still
    | bool => exact still
    | i8 => exact still
    | i16 => exact still
    | i32 => exact still
    | i64 => exact still
    | double => exact still
    | binary =>
      rw [skipWithin, passWithin, map_bind]
      rfl
    | list => exact list
    | set => exact list
    | map =>
      rw [skipWithin, passWithin, map_bind]
      refine bind_congr fun header => ?_
      rcases header.types with _ | ⟨key, value⟩
      · rfl
      · dsimp only
        have pair : (do skipWithin depth key; skipWithin depth value) =
            (fun _ => ()) <$> (do
              let keys ← passWithin depth key
              let values ← passWithin depth value
              pure (keys ++ values)) := by
          rw [ih key, ih value, bind_map_left, map_bind]
          refine bind_congr fun keys => ?_
          rw [map_bind]
          rfl
        rw [pair, replicate_map, map_bind]
        rfl
    | struct =>
      refine foldStruct_map (g := fun _ => ()) (fun sizes t id => ?_) []
      rw [ih, map_bind]
      rfl

theorem skip_eq (t : WireType) : skip t = (fun _ => ()) <$> pass t := skipWithin_eq maxSkipDepth t

/-- nothing is passed over but what is allowed -/
theorem keeps_passWithin (depth : Nat) :
    ∀ t, Keeps o (fun sizes => ∀ s ∈ sizes, s.Allowed o) (passWithin depth t) := by
  induction depth with
  | zero => exact fun _ => maintains_fail _
  | succ depth ih =>
    intro t
    have still {t : WireType} : Keeps o (fun sizes => ∀ s ∈ sizes, s.Allowed o) (do
        skipWithin (depth + 1) t
        pure ([] : List Size)) :=
      maintains_bind (keeps_skipWithin _ t) fun _ _ => maintains_pure (List.forall_mem_nil _)
    -- a container, and what is in it
    have inside {size : Size} {inner : List (List Size)} (hsize : size.Allowed o)
        (hinner : ∀ sizes ∈ inner, ∀ s ∈ sizes, s.Allowed o) :
        ∀ s ∈ size :: inner.flatten, s.Allowed o := by
      refine List.forall_mem_cons.mpr ⟨hsize, fun s hs => ?_⟩
      obtain ⟨sizes, hsizes, hs'⟩ := List.mem_flatten.mp hs
      exact hinner sizes hsizes s hs'
    have list : Keeps o (fun sizes => ∀ s ∈ sizes, s.Allowed o) (do
        let h ← listBegin
        let inner ← Step.times h.2 (passWithin depth h.1)
        pure (Size.list h.2 :: inner.flatten)) := by
      refine maintains_bind keeps_listBegin fun h hn => ?_
      refine maintains_bind (maintains_times (ih h.1) h.2) fun inner hinner => ?_
      exact maintains_pure (inside (Size.allowed_list.mpr hn) hinner.2)
    cases t with
    | stop => exact still
    | bool => exact still
    | i8 => exact still
    | i16 => exact still
    | i32 => exact still
    | i64 => exact still
    | double => exact still
    | binary =>
      refine maintains_bind keeps_binary fun bs hbs => maintains_pure ?_
      exact List.forall_mem_singleton.mpr (.inl hbs.1)
    | list => exact list
    | set => exact list
    | map =>
      refine maintains_bind keeps_mapBegin fun header hn => ?_
      split
      · exact maintains_pure (List.forall_mem_singleton.mpr (.inl hn))
      · rename_i key value _
        have pair : Keeps o (fun sizes => ∀ s ∈ sizes, s.Allowed o) (do
            let keys ← passWithin depth key
            let values ← passWithin depth value
            pure (keys ++ values)) :=
          maintains_bind (ih key) fun keys hkeys => maintains_bind (ih value) fun values hvalues =>
            maintains_pure (List.forall_mem_append.mpr ⟨hkeys, hvalues⟩)
        refine maintains_bind (maintains_times pair header.size) fun inner hinner => ?_
        exact maintains_pure (inside (.inl hn) hinner.2)
    | struct =>
      refine keeps_foldStruct (List.forall_mem_nil _) fun sizes t _ hsizes => ?_
      refine maintains_bind (ih t) fun inner hinner => maintains_pure ?_
      exact List.forall_mem_append.mpr ⟨hsizes, hinner⟩

theorem keeps_pass (t : WireType) : Keeps o (fun sizes => ∀ s ∈ sizes, s.Allowed o) (pass t) :=
  keeps_passWithin maxSkipDepth t

end Read

/-! ## calls -/

/-- a call to a reader; a set begins as a list does -/
inductive Query where
  | structBegin | structEnd | field | list | map
  | bool | i8 | i16 | i32 | i64 | double | binary | string
  | skip (t : WireType)
deriving DecidableEq

/-- a call, and its answer forgotten -/
def Query.read : Query → Read Unit
  | structBegin => Read.structBegin
  | structEnd => Read.structEnd
  | field => do let _ ← Read.fieldBegin
  | list => do let _ ← Read.listBegin
  | map => do let _ ← Read.mapBegin
  | bool => do let _ ← Read.bool
  | i8 => do let _ ← Read.i8
  | i16 => do let _ ← Read.i16
  | i32 => do let _ ← Read.i32
  | i64 => do let _ ← Read.i64
  | double => do let _ ← Read.double
  | binary => do let _ ← Read.binary
  | string => do let _ ← Read.string
  | skip t => Read.skip t

/-- the reader behind some calls, of which any may have failed -/
def Reader.after (r : Reader) (qs : List Query) : Reader := qs.foldl (fun r q => (q.read r).2) r

/-- calls lead from somewhere in a buffer to `r` -/
def Reached (o : Options) (r : Reader) : Prop :=
  ∃ c qs, r = (Reader.ofCursor c o).after qs

variable {o : Options} {r : Reader}

theorem Reached.start (c : Cursor) : Reached o (.ofCursor c o) := ⟨c, [], rfl⟩

theorem Query.keeps (q : Query) : Read.Keeps o Any q.read := by
  have done {α : Type} {x : Read α} {P : α → Prop} (hx : Read.Keeps o P x) :
      Read.Keeps o Any (do let _ ← x) := maintains_bind hx fun _ _ => maintains_pure trivial
  cases q with
  | structBegin => exact Read.keeps_structBegin
  | structEnd => exact Read.keeps_structEnd
  | field => exact done Read.keeps_fieldBegin
  | list => exact done Read.keeps_listBegin
  | map => exact done Read.keeps_mapBegin
  | bool => exact done Read.keeps_bool
  | i8 => exact done Read.keeps_i8
  | i16 => exact done Read.keeps_i16
  | i32 => exact done Read.keeps_i32
  | i64 => exact done Read.keeps_i64
  | double => exact done Read.keeps_double
  | binary => exact done Read.keeps_binary
  | string => exact done Read.keeps_string
  | skip t => exact Read.keeps_skip t

/-- no calls change the limits -/
theorem Reader.Obeys.after (h : r.Obeys o) (qs : List Query) : (r.after qs).Obeys o := by
  induction qs generalizing r with
  | nil => exact h
  | cons q qs ih => exact ih (q.keeps r h).1

theorem Reached.obeys (h : Reached o r) : r.Obeys o := by
  obtain ⟨c, qs, rfl⟩ := h
  exact Reader.Obeys.after ⟨rfl, rfl⟩ qs

end Columnar.Compact
