import Mathlib
import Columnar.Proofs.Compact.Struct

/-!
# Trees of values are read back

A writer of values makes one call after the other: the ends of structs, headers, and values.  A
reader makes the same calls in the same order, and is answered what was written.

* `Event`            a call to a writer with what is written by it, and what a reader is answered;
* `Call`             a call to a reader, which carries nothing;
* `writes`, `reads`  calls one after the other;
* `Tree`             a value, with the values in it;
* `Tree.events`      the calls that write a tree;
* `Tree.structs`     the numbers of the fields of each struct in a tree;
* `Steady last ids`  no number lies `2 ^ 15` or more above the one before it.

A field that lies so far above the one before it gets a header that says another number: the
step between the two is taken modulo `2 ^ 16`, and is negative then.
-/

namespace Columnar.Compact

/-! ## calls -/

inductive Event where
  | structBegin
  | structEnd
  | field (t : WireType) (id : Int16)
  | fieldEnd
  | stop
  | list (t : WireType) (size : Nat)
  | bool (b : Bool)
  | i8 (n : Int8)
  | i16 (n : Int16)
  | i32 (n : Int32)
  | i64 (n : Int64)
  | double (bits : UInt64)
  | binary (bs : Bytes)
  | string (s : String)
deriving DecidableEq

inductive Call where
  | structBegin | structEnd | field | fieldEnd | list
  | bool | i8 | i16 | i32 | i64 | double | binary | string
deriving DecidableEq

namespace Event

def write : Event → Write Nat
  | structBegin => Write.structBegin
  | structEnd => Write.structEnd
  | field t id => Write.fieldBegin t id
  | fieldEnd => Write.fieldEnd
  | stop => Write.fieldStop
  | list t n => Write.listBegin t n
  | bool b => Write.bool b
  | i8 n => Write.i8 n
  | i16 n => Write.i16 n
  | i32 n => Write.i32 n
  | i64 n => Write.i64 n
  | double bits => Write.double bits
  | binary bs => Write.binary bs
  | string s => Write.string s

/-- the call to a reader in the same place; a stop is found where a field may be -/
def call : Event → Call
  | structBegin => .structBegin
  | structEnd => .structEnd
  | field _ _ => .field
  | fieldEnd => .fieldEnd
  | stop => .field
  | list _ _ => .list
  | bool _ => .bool
  | i8 _ => .i8
  | i16 _ => .i16
  | i32 _ => .i32
  | i64 _ => .i64
  | double _ => .double
  | binary _ => .binary
  | string _ => .string

/-- what an event carries is within the limits of a reader, and memory holds it -/
def Within (o : Options) : Event → Prop
  | binary bs => Fits o bs.length
  | string s => Fits o (Utf8.encode s).length
  | list _ n => FitsList o n 1
  | _ => True

instance (o : Options) (e : Event) : Decidable (e.Within o) := by
  cases e <;> unfold Within <;> unfold FitsList <;> infer_instance

end Event

/-- the event behind a header -/
def headerEvent : Option (WireType × Int16) → Event
  | some (t, id) => .field t id
  | none => .stop

def Call.read : Call → Read Event
  | structBegin => do Read.structBegin; pure .structBegin
  | structEnd => do Read.structEnd; pure .structEnd
  | field => do let header ← Read.fieldBegin; pure (headerEvent header)
  | fieldEnd => pure .fieldEnd
  | list => do let header ← Read.listBegin; pure (.list header.1 header.2)
  | bool => do let b ← Read.bool; pure (.bool b)
  | i8 => do let n ← Read.i8; pure (.i8 n)
  | i16 => do let n ← Read.i16; pure (.i16 n)
  | i32 => do let n ← Read.i32; pure (.i32 n)
  | i64 => do let n ← Read.i64; pure (.i64 n)
  | double => do let bits ← Read.double; pure (.double bits)
  | binary => do let bs ← Read.binary; pure (.binary bs)
  | string => do let s ← Read.string; pure (.string s)

/-- calls to a writer, and the number of bytes they wrote -/
def writes (es : List Event) : Write Nat := Write.total (es.map Event.write)

/-- calls to a reader, and what it was answered -/
def reads (cs : List Call) : Read (List Event) := cs.mapM Call.read

/-! ## trees -/

inductive Tree where
  | bool (b : Bool)
  | i8 (n : Int8)
  | i16 (n : Int16)
  | i32 (n : Int32)
  | i64 (n : Int64)
  /-- a floating-point number by its bits -/
  | double (bits : UInt64)
  | binary (bs : Bytes)
  | string (s : String)
  /-- a list with the type in its header -/
  | list (t : WireType) (elems : List Tree)
  | struct (fields : List (Int16 × Tree))

namespace Tree

/-- the type in the header of a field -/
def type : Tree → WireType
  | bool _ => .bool
  | i8 _ => .i8
  | i16 _ => .i16
  | i32 _ => .i32
  | i64 _ => .i64
  | double _ => .double
  | binary _ | string _ => .binary
  | list _ _ => .list
  | struct _ => .struct

mutual

/-- the calls that write a value -/
def events : Tree → List Event
  | bool b => [.bool b]
  | i8 n => [.i8 n]
  | i16 n => [.i16 n]
  | i32 n => [.i32 n]
  | i64 n => [.i64 n]
  | double bits => [.double bits]
  | binary bs => [.binary bs]
  | string s => [.string s]
  | list t vs => .list t vs.length :: elemEvents vs
  | struct fs => .structBegin :: (fieldEvents fs ++ [.stop, .structEnd])

def elemEvents : List Tree → List Event
  | [] => []
  | v :: vs => v.events ++ elemEvents vs

def fieldEvents : List (Int16 × Tree) → List Event
  | [] => []
  | (id, v) :: fs => .field v.type id :: (v.events ++ [.fieldEnd]) ++ fieldEvents fs

end

mutual

/-- how deep structs nest in a value -/
def depth : Tree → Nat
  | list _ vs => elemDepth vs
  | struct fs => fieldDepth fs + 1
  | _ => 0

def elemDepth : List Tree → Nat
  | [] => 0
  | v :: vs => max v.depth (elemDepth vs)

def fieldDepth : List (Int16 × Tree) → Nat
  | [] => 0
  | (_, v) :: fs => max v.depth (fieldDepth fs)

end

mutual

/-- the numbers of the fields of each struct, in order -/
def structs : Tree → List (List Int16)
  | list _ vs => elemStructs vs
  | struct fs => fs.map Prod.fst :: fieldStructs fs
  | _ => []

def elemStructs : List Tree → List (List Int16)
  | [] => []
  | v :: vs => v.structs ++ elemStructs vs

def fieldStructs : List (Int16 × Tree) → List (List Int16)
  | [] => []
  | (_, v) :: fs => v.structs ++ fieldStructs fs

end

end Tree

/-- no number lies `2 ^ 15` or more above the one before it -/
def Steady : Int16 → List Int16 → Prop
  | _, [] => True
  | last, id :: ids => id.toInt - last.toInt < 2 ^ 15 ∧ Steady id ids

instance Steady.decide : ∀ (last : Int16) (ids : List Int16), Decidable (Steady last ids)
  | _, [] => inferInstanceAs (Decidable True)
  | last, id :: ids =>
    have := Steady.decide id ids
    inferInstanceAs (Decidable (id.toInt - last.toInt < 2 ^ 15 ∧ Steady id ids))

/-! ## calls one after the other -/

variable {o : Options} {d : Nat} {i j k : Int16}

theorem Write.total_append (xs ys : List (Write Nat)) :
    total (xs ++ ys) = (do let n ← total xs; let m ← total ys; pure (n + m)) := by
  induction xs with
  | nil =>
    rw [List.nil_append, total, pure_bind]
    simp only [Nat.zero_add, bind_pure]
  | cons x xs ih =>
    simp only [List.cons_append, total, ih, bind_assoc, pure_bind, Nat.add_assoc]

theorem writes_append (es fs : List Event) :
    writes (es ++ fs) = (do let n ← writes es; let m ← writes fs; pure (n + m)) := by
  rw [writes, List.map_append, Write.total_append]
  rfl

theorem writes_singleton (e : Event) : writes [e] = e.write := by
  show (do let n ← e.write; let m ← pure 0; pure (n + m)) = e.write
  simp

theorem writes_field (t : WireType) (id : Int16) (es : List Event) :
    writes (.field t id :: (es ++ [.fieldEnd])) = Write.field t id (writes es) := by
  show (do
    let n ← Write.fieldBegin t id
    let m ← writes (es ++ [Event.fieldEnd])
    pure (n + m)) = _
  rw [writes_append, writes_singleton, Write.field]
  simp only [bind_assoc, pure_bind, Nat.add_assoc, Event.write]

theorem writes_struct (es : List Event) :
    writes (.structBegin :: (es ++ [.stop, .structEnd])) = Write.struct (writes es) := by
  show (do
    let n ← Write.structBegin
    let m ← writes (es ++ ([Event.stop] ++ [Event.structEnd]))
    pure (n + m)) = _
  rw [writes_append, writes_append, writes_singleton, writes_singleton, Write.struct]
  simp only [bind_assoc, pure_bind, Nat.add_assoc, Event.write]

theorem reads_append (cs ds : List Call) :
    reads (cs ++ ds) = (do let es ← reads cs; let fs ← reads ds; pure (es ++ fs)) :=
  List.mapM_append

theorem reads_cons (c : Call) (cs : List Call) :
    reads (c :: cs) = (do let e ← c.read; let es ← reads cs; pure (e :: es)) :=
  List.mapM_cons

theorem reads_struct (cs : List Call) :
    reads (.structBegin :: (cs ++ [.field, .structEnd])) = (do
      Read.structBegin
      let es ← reads cs
      let e ← Call.field.read
      Read.structEnd
      pure (.structBegin :: (es ++ [e, .structEnd]))) := by
  rw [reads_cons, reads_append, reads_cons, reads_cons, reads]
  simp only [Call.read, bind_assoc, pure_bind]
  rfl

/-! ## trees are carried -/

/-- a writer writes the events as `s` and a reader is answered them there; the number of the last
field goes from `i` to `j` -/
structure Passes (o : Options) (d : Nat) (i j : Int16) (s : Bytes) (es : List Event) : Prop where
  emits : Write.Emits d i j (writes es) s s.length
  takes : Read.Takes o d i j (reads (es.map Event.call)) s es

theorem passes_nil : Passes o d i i [] [] := ⟨Write.emits_pure 0, Read.takes_pure []⟩

theorem Passes.append {s t : Bytes} {es fs : List Event} (h : Passes o d i j s es)
    (h' : Passes o d j k t fs) : Passes o d i k (s ++ t) (es ++ fs) := by
  constructor
  · rw [writes_append]
    exact Write.emits_add h.emits h'.emits
  · rw [List.map_append, reads_append]
    exact Read.takes_bind h.takes (Read.takes_bind_pure h'.takes (Read.takes_pure _))

/-- a value that is carried is answered as its event -/
theorem passes_of_carried {α : Type} {e : Event} {y : Read α} {a : α} (f : α → Event)
    (h : Carried o d e.write y a) (hread : e.call.read = (do let a ← y; pure (f a)))
    (he : f a = e) : ∃ s, ∀ i, Passes o d i i s [e] := by
  obtain ⟨s, hs⟩ := h
  refine ⟨s, fun i => ⟨?_, ?_⟩⟩
  · rw [writes_singleton]
    exact (hs i).1
  · rw [List.map_singleton, reads_cons, hread]
    refine Read.takes_bind_pure (Read.takes_bind_pure (hs i).2 (Read.takes_pure _)) ?_
    rw [he]
    exact Read.takes_pure [e]

theorem passes_of_fieldCarried {t : WireType} {id : Int16} {es : List Event}
    (h : FieldCarriedFrom o d i t id (writes es) (reads (es.map Event.call)) es) :
    ∃ s, Passes o d i id s (.field t id :: (es ++ [.fieldEnd])) := by
  obtain ⟨s, -, hw, hr⟩ := h
  refine ⟨s, ⟨by rwa [writes_field], fun r before rest hat hc => ?_⟩⟩
  obtain ⟨r', hbegin, hbody⟩ := hr r before rest hat hc
  have hfield : Call.field.read r = (.ok (.field t id), r') := Step.bind_ok hbegin _
  rw [List.map_cons, List.map_append, reads_cons]
  refine (Step.bind_ok hfield _).trans ?_
  rw [reads_append, bind_assoc, Step.bind_ok hbody]
  rfl

/-- a boolean is written and read with the header of its field, any other value behind it -/
theorem Tree.passes_field {v : Tree} {id : Int16} (hstep : id.toInt - i.toInt < 2 ^ 15)
    (hv : ∃ s, ∀ i, Passes o d i i s v.events) :
    ∃ s, Passes o d i id s (.field v.type id :: (v.events ++ [.fieldEnd])) := by
  refine passes_of_fieldCarried ?_
  by_cases hbool : v.type = .bool
  · obtain ⟨b, rfl⟩ : ∃ b, v = .bool b := by
      cases v <;> first | exact ⟨_, rfl⟩ | cases hbool
    obtain ⟨s, hne, hw, hr⟩ := fieldCarriedFrom_bool (o := o) (d := d) b hstep
    refine ⟨s, hne, ?_, fun r before rest hat hc => ?_⟩
    · rw [Tree.events, writes_singleton]
      exact hw
    · obtain ⟨r', hbegin, hbody⟩ := hr r before rest hat hc
      refine ⟨r', hbegin, ?_⟩
      show reads [.bool] r' = _
      rw [reads_cons, Call.read, bind_assoc, Step.bind_ok hbody]
      rfl
  · obtain ⟨s, hs⟩ := hv
    have hstop : v.type ≠ .stop := by
      cases v <;> exact WireType.noConfusion
    exact fieldCarriedFrom_of_carried hbool hstop hstep ⟨s, fun i => ⟨(hs i).emits, (hs i).takes⟩⟩

/-- the ends of a struct leave the last field of the struct around it -/
theorem passes_struct {s : Bytes} {es : List Event} (h : Passes o d 0 j s es) :
    Passes o (d + 1) i i (s ++ [0]) (.structBegin :: (es ++ [.stop, .structEnd])) := by
  constructor
  · rw [writes_struct]
    exact emits_struct h.emits
  · rw [List.map_cons, List.map_append]
    show Read.Takes o (d + 1) i i
      (reads (.structBegin :: (es.map Event.call ++ [.field, .structEnd]))) _ _
    have hstop : Read.Takes o d j j Call.field.read [0] .stop :=
      Read.takes_bind_pure takes_stop (Read.takes_pure _)
    have hbody : Read.Takes o d 0 j (do
        let es ← reads (es.map Event.call)
        let e ← Call.field.read
        pure (.structBegin :: (es ++ [e, .structEnd]))) (s ++ [0])
        (.structBegin :: (es ++ [.stop, .structEnd])) :=
      Read.takes_bind h.takes (Read.takes_bind_pure hstop (Read.takes_pure _))
    have hframe := takes_frame (i := i) hbody
    simp only [bind_assoc, pure_bind] at hframe
    rw [reads_struct]
    exact hframe

mutual

theorem Tree.passes (o : Options) : ∀ (v : Tree) (d : Nat), v.depth ≤ d →
    (∀ e ∈ v.events, e.Within o) → (∀ ids ∈ v.structs, Steady 0 ids) →
    ∃ s, ∀ i, Passes o d i i s v.events
  | .bool b, d, _, _, _ => passes_of_carried .bool (carried_bool b) rfl rfl
  | .i8 n, d, _, _, _ => passes_of_carried .i8 (carried_i8 n) rfl rfl
  | .i16 n, d, _, _, _ => passes_of_carried .i16 (carried_i16 n) rfl rfl
  | .i32 n, d, _, _, _ => passes_of_carried .i32 (carried_i32 n) rfl rfl
  | .i64 n, d, _, _, _ => passes_of_carried .i64 (carried_i64 n) rfl rfl
  | .double bits, d, _, _, _ => passes_of_carried .double (carried_double bits) rfl rfl
  | .binary bs, d, _, hwithin, _ =>
    passes_of_carried .binary (carried_binary (hwithin _ (List.mem_singleton_self _))) rfl rfl
  | .string s, d, _, hwithin, _ =>
    passes_of_carried .string (carried_string (hwithin _ (List.mem_singleton_self _))) rfl rfl
  | .list t vs, d, hdepth, hwithin, hsteady => by
    obtain ⟨hsize, helems⟩ := List.forall_mem_cons.mp hwithin
    obtain ⟨s, hs⟩ := passes_of_carried (e := .list t vs.length) (fun h => .list h.1 h.2)
      (carried_listBegin t (by decide) hsize) rfl rfl
    obtain ⟨u, hu⟩ := Tree.elems_pass o vs d hdepth helems hsteady
    exact ⟨s ++ u, fun i => (hs i).append (hu i)⟩
  | .struct fs, 0, hdepth, _, _ => absurd hdepth (Nat.not_succ_le_zero _)
  | .struct fs, d + 1, hdepth, hwithin, hsteady => by
    obtain ⟨hids, hinner⟩ := List.forall_mem_cons.mp hsteady
    have hfields : ∀ e ∈ Tree.fieldEvents fs, e.Within o := fun e he =>
      hwithin e (List.mem_cons_of_mem _ (List.mem_append_left _ he))
    obtain ⟨s, j, h⟩ := Tree.fields_pass o fs d 0 (Nat.le_of_succ_le_succ hdepth) hfields hinner hids
    exact ⟨s ++ [0], fun i => passes_struct h⟩

theorem Tree.elems_pass (o : Options) : ∀ (vs : List Tree) (d : Nat), Tree.elemDepth vs ≤ d →
    (∀ e ∈ Tree.elemEvents vs, e.Within o) → (∀ ids ∈ Tree.elemStructs vs, Steady 0 ids) →
    ∃ s, ∀ i, Passes o d i i s (Tree.elemEvents vs)
  | [], d, _, _, _ => ⟨[], fun _ => passes_nil⟩
  | v :: vs, d, hdepth, hwithin, hsteady => by
    obtain ⟨hd, hds⟩ := Nat.max_le.mp hdepth
    obtain ⟨hw, hws⟩ := List.forall_mem_append.mp hwithin
    obtain ⟨hst, hsts⟩ := List.forall_mem_append.mp hsteady
    obtain ⟨s, hs⟩ := Tree.passes o v d hd hw hst
    obtain ⟨u, hu⟩ := Tree.elems_pass o vs d hds hws hsts
    exact ⟨s ++ u, fun i => (hs i).append (hu i)⟩

theorem Tree.fields_pass (o : Options) : ∀ (fs : List (Int16 × Tree)) (d : Nat) (i : Int16),
    Tree.fieldDepth fs ≤ d → (∀ e ∈ Tree.fieldEvents fs, e.Within o) →
    (∀ ids ∈ Tree.fieldStructs fs, Steady 0 ids) → Steady i (fs.map Prod.fst) →
    ∃ s j, Passes o d i j s (Tree.fieldEvents fs)
  | [], d, i, _, _, _, _ => ⟨[], i, passes_nil⟩
  | (id, v) :: fs, d, i, hdepth, hwithin, hinner, hids => by
    obtain ⟨hd, hds⟩ := Nat.max_le.mp hdepth
    obtain ⟨hfield, hws⟩ := List.forall_mem_append.mp hwithin
    have hw : ∀ e ∈ v.events, e.Within o := fun e he =>
      hfield e (List.mem_cons_of_mem _ (List.mem_append_left _ he))
    obtain ⟨hst, hsts⟩ := List.forall_mem_append.mp hinner
    obtain ⟨s, hs⟩ := Tree.passes_field hids.1 (Tree.passes o v d hd hw hst)
    obtain ⟨u, j, hu⟩ := Tree.fields_pass o fs d id hds hws hsts hids.2
    exact ⟨s ++ u, j, hs.append hu⟩

end

/-! ## steps that are too wide -/

/-- a step of the cursor changes nothing else -/
theorem Read.ofCursor_eq_ok {α : Type} {x : Step Cursor Error α} {r r' : Reader} {a : α}
    (h : Read.ofCursor x r = (.ok a, r')) :
    x r.cursor = (.ok a, r'.cursor) ∧ r' = { r with cursor := r'.cursor } := by
  rw [Read.ofCursor, Step.on_apply] at h
  obtain ⟨hanswer, rfl⟩ := Prod.mk.inj h
  refine ⟨?_, rfl⟩
  replace hanswer : (Step.mapError Failure.error x r.cursor).1 = .ok a := hanswer
  show x r.cursor = (.ok a, (Step.mapError Failure.error x r.cursor).2)
  rw [Step.mapError] at hanswer ⊢
  rcases hx : x r.cursor with ⟨e | b, c⟩
  · rw [hx] at hanswer
    cases hanswer
  · rw [hx] at hanswer
    cases hanswer
    rfl

/-- a number takes a byte at least -/
theorem i16_remaining {r r' : Reader} {n : Int16} (h : Read.i16 r = (.ok n, r')) :
    r'.cursor.remaining < r.cursor.remaining := by
  obtain ⟨m, r₁, hfolded, h₁⟩ := Step.bind_eq_ok.mp h
  cases h₁
  obtain ⟨raw, r₂, hvarint, h₂⟩ := Step.bind_eq_ok.mp hfolded
  have hread := (Read.ofCursor_eq_ok hvarint).1
  have hfollows : r.cursor.Follows r₂.cursor := by
    have h := Varint.read_follows r.cursor
    rwa [hread] at h
  have hpos := Varint.read_pos hread
  have hsum := hfollows.remaining
  split at h₂
  · cases h₂
    omega
  · cases h₂

theorem toInt_nextField {last id : Int16} {n : Nat} (h : Read.nextField last n = some id) :
    id.toInt = last.toInt + n := by
  have hlow := last.le_toInt
  rw [Read.nextField] at h
  split at h
  · cases h
    exact Int16.toInt_ofInt_of_le (by omega) (by omega)
  · cases h

/-- a header that is read says a number at most fifteen above the last one, or it goes on behind
its first byte -/
theorem fieldBegin_number {r r' : Reader} {t : WireType} {id : Int16}
    (h : Read.fieldBegin r = (.ok (some (t, id)), r')) :
    id.toInt ≤ r.lastField.toInt + 15 ∨ r'.cursor.remaining + 1 < r.cursor.remaining := by
  obtain ⟨b, r₁, hbyte, h₁⟩ := Step.bind_eq_ok.mp h
  obtain ⟨hb, hr₁⟩ := Read.ofCursor_eq_ok hbyte
  have hfollows : r.cursor.Follows r₁.cursor := by
    have h := Cursor.byte_follows r.cursor
    rwa [hb] at h
  have hpos := Cursor.byte_pos hb
  have hsum := hfollows.remaining
  have hlast : r₁.lastField = r.lastField := by rw [hr₁]
  split at h₁
  · cases h₁
  · obtain ⟨t', r₂, htype, h₂⟩ := Step.bind_eq_ok.mp h₁
    have hr₂ : r₂ = r₁ := by
      rw [Read.wireType] at htype
      rcases hcode : WireType.ofCode? (b &&& 0x0F) with _ | t''
      · rw [hcode] at htype
        cases htype
      · rw [hcode] at htype
        cases htype
        rfl
    rw [hr₂, Read.holdBack, Step.update_bind] at h₂
    obtain ⟨id', r₃, hnumber, h₃⟩ := Step.bind_eq_ok.mp h₂
    cases h₃
    rw [Read.fieldNumber, Step.bind_ok (Step.look_apply _ _)] at hnumber
    split at hnumber
    · have hless := i16_remaining hnumber
      replace hless : r₃.cursor.remaining < r₁.cursor.remaining := hless
      right
      show r₃.cursor.remaining + 1 < r.cursor.remaining
      omega
    · rcases hnext : Read.nextField r₁.lastField (b >>> 4).toNat with _ | id''
      · rw [hnext] at hnumber
        cases hnumber
      · rw [hnext] at hnumber
        cases hnumber
        have hnibble : (b >>> 4).toNat < 16 := by
          have hb := b.toNat_lt
          rw [UInt8.toNat_shiftRight, Nat.shiftRight_eq_div_pow]
          exact Nat.div_lt_of_lt_mul hb
        rw [toInt_nextField hnext, hlast]
        exact .inl (by omega)

/-- a header is read as what it was written for exactly when the number lies less than `2 ^ 15`
above the last one -/
theorem fieldBegin_header_iff {r : Reader} {before rest : Bytes} {code : UInt8} {t : WireType}
    {id : Int16} (hcode : WireType.ofCode? code = some t) (hpos : code ≠ 0)
    (hlt : code.toNat < 16)
    (hc : r.cursor = ⟨before, headerBytes code r.lastField id ++ rest⟩) :
    (∃ r', Read.fieldBegin r = (.ok (some (t, id)), r') ∧ r'.cursor.rest = rest) ↔
      id.toInt - r.lastField.toInt < 2 ^ 15 := by
  constructor
  · rintro ⟨r', hr', hrest⟩
    refine Decidable.byContradiction fun hwide => ?_
    -- the step wraps to a negative number, so that the header is one byte
    have hlast : r.lastField < id := Int16.lt_iff_toInt_lt.mpr (by omega)
    have hwrap : id - r.lastField ≤ 15 := by
      have hlow := r.lastField.le_toInt
      have hhigh := id.toInt_lt
      have hneg : (id - r.lastField).toInt = id.toInt - r.lastField.toInt - 2 ^ 16 := by
        rw [Int16.toInt_sub, Int.bmod_def, Int.emod_eq_of_lt, if_neg] <;> omega
      rw [Int16.le_iff_toInt_le, hneg]
      exact (by omega : id.toInt - r.lastField.toInt - 2 ^ 16 ≤ 15)
    have hleft : r.cursor.remaining = rest.length + 1 := by
      rw [hc, headerBytes, if_pos ⟨hlast, hwrap⟩]
      rfl
    rcases fieldBegin_number hr' with hnear | hpast
    · omega
    · rw [hleft, Cursor.remaining, hrest] at hpast
      omega
  · exact fun hstep => ⟨_, fieldBegin_header hcode hpos hlt hstep hc, rfl⟩

/-- a tree whose fields do not step up by `2 ^ 15` or more comes back call by call, from exactly
its own bytes and wherever it stands in a struct: the last fields of that struct and of those
around it are what they were before, for the writer and for the reader -/
theorem Tree.reads_written {o : Options} {v : Tree} (hwithin : ∀ e ∈ v.events, e.Within o)
    (hsteady : ∀ ids ∈ v.structs, Steady 0 ids) : ∃ bs : Bytes,
    (∀ w : Writer, w.sink.Open → w.pendingBool = none →
      w.enclosing.length + v.depth ≤ maxStructDepth →
      ∃ z : Sink, writes v.events w = (.ok bs.length, { w with sink := z }) ∧
        z.bytes = w.sink.bytes ++ bs) ∧
    ∀ (r : Reader) (before rest : Bytes), r.Obeys o → r.pendingBool = none →
      r.enclosing.length + v.depth ≤ maxStructDepth → r.cursor = ⟨before, bs ++ rest⟩ →
      reads (v.events.map Event.call) r =
        (.ok v.events, { r with cursor := ⟨bs.reverse ++ before, rest⟩ }) := by
  obtain ⟨s, hs⟩ := Tree.passes o v v.depth (Nat.le_refl _) hwithin hsteady
  refine ⟨s, fun w hopen hpending hdepth => ?_, fun r before rest hlimits hpending hdepth hc => ?_⟩
  · obtain ⟨z, hw, hz⟩ := (hs w.lastField).emits w ⟨hopen, rfl, hpending, hdepth⟩
    exact ⟨z, hw, hz.bytes⟩
  · exact (hs r.lastField).takes r before rest ⟨hlimits, rfl, hpending, hdepth⟩ hc

/-- a struct in a struct, with numbers that go down and below zero, and with booleans in fields
and in a list -/
def Tree.nested : Tree :=
  .struct [(-3, .bool true),
    (2, .struct [(20, .string "nested"), (1, .list .bool [.bool false, .bool true])]),
    (-1, .i64 (-7))]

theorem Tree.reads_written_nested : ∃ (bs : Bytes) (z : Sink),
    writes Tree.nested.events { sink := .unbounded } = (.ok bs.length, { sink := z }) ∧
      z.bytes = bs ∧
      reads (Tree.nested.events.map Event.call) (.ofCursor (.ofBytes bs) {}) =
        (.ok Tree.nested.events, .ofCursor ⟨bs.reverse, []⟩ {}) := by
  obtain ⟨bs, hwrite, hread⟩ :=
    Tree.reads_written (o := {}) (v := Tree.nested) (by decide) (by decide)
  obtain ⟨z, hw, hz⟩ := hwrite { sink := .unbounded } (fun _ _ => rfl) rfl (by decide)
  refine ⟨bs, z, hw, hz, ?_⟩
  have hr := hread (.ofCursor (.ofBytes bs) {}) [] [] ⟨rfl, rfl⟩ rfl
    (by decide : 0 + Tree.nested.depth ≤ maxStructDepth)
    (congrArg (Cursor.mk []) (List.append_nil bs).symm)
  rw [List.append_nil] at hr
  exact hr

/-- a struct with the least number in front of the greatest -/
def Tree.wide : Tree := .struct [(-32768, .i32 1), (32767, .i32 1)]

/-- the second header of it is one byte that says a number 15 above the first -/
theorem Tree.not_reads_written_wide :
    (∀ e ∈ Tree.wide.events, e.Within {}) ∧ Tree.wide.depth ≤ maxStructDepth ∧
      ∃ (w : Writer) (es : List Event),
        writes Tree.wide.events { sink := .unbounded } = (.ok 8, w) ∧
        w.sink.bytes = [5, 255, 255, 3, 2, 0xF5, 2, 0] ∧
        (reads (Tree.wide.events.map Event.call) (.ofCursor (.ofBytes w.sink.bytes) {})).1 =
          .ok es ∧
        es ≠ Tree.wide.events := by
  refine ⟨by decide, by decide, (writes Tree.wide.events { sink := .unbounded }).2,
    [.structBegin, .field .i32 (-32768), .i32 1, .fieldEnd, .field .i32 (-32753), .i32 1,
      .fieldEnd, .stop, .structEnd], ?_, ?_, ?_, by decide⟩
  · have h : (writes Tree.wide.events { sink := .unbounded }).1 = .ok 8 := by cbv
    rw [← h]
  · cbv
  · cbv

end Columnar.Compact
