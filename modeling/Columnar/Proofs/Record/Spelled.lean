import Columnar.Proofs.Compact.Settled
import Columnar.Proofs.Compact.Spelled
import Columnar.Proofs.Record.Delimited
import Mathlib.Data.List.Forall2

/-!
# What the payloads of records look like

The bytes of a payload and what they say, kind by kind.  A record inside another is described by
what it is read as, wherever it stands; `takes_readsAs` says that the place has no part in it.

* `Format.known F t id`            the field of a table with a number and type;
* `Format.ReadsAs F o d bs r`      `bs` is read as the record `r`, to its end, where `d` structs may
                                  still be opened;
* `Listed o t room P bs xs`        `bs` is a list that declares the elements `t`; `P` relates each
                                  of its elements to a member of `xs`;
* `Codec.Spells o d c code bs x`   `bs`, behind a header with a type nibble, is the payload `x`;
* `Codec.Spells.takes`             it is read as `x` there.
-/

namespace Columnar

open Columnar.Compact

variable {α R : Type} {F : Format R} {o : Options} {d : Nat} {i : Int16} {bs : Bytes} {r : R}

/-! ## fields by number and type -/

namespace Format

/-- the field of a number and type -/
def known (F : Format R) (t : WireType) (id : Int16) : Option (Field F.Draft) :=
  F.fields.find? fun f => f.id == id && f.codec.type == t

variable {t : WireType} {id : Int16} {f : Field F.Draft}

theorem known_eq_some (h : F.known t id = some f) :
    f ∈ F.fields ∧ f.id = id ∧ f.codec.type = t := by
  have hp := List.find?_some h
  rw [Bool.and_eq_true, beq_iff_eq, beq_iff_eq] at hp
  exact ⟨List.mem_of_find?_eq_some h, hp⟩

theorem readField_known (h : F.known t id = some f) (e : F.Draft) :
    F.readField e t id = (do let x ← f.codec.read; pure (f.set e x)) := by
  rw [known] at h
  rw [readField, h]

theorem readField_other (h : F.known t id = none) (e : F.Draft) :
    F.readField e t id = (do Read.skip t; pure e) := by
  rw [known] at h
  rw [readField, h]

end Format

/-! ## records where they stand -/

/-- a reader in front of `bs` that may open `d` more structs -/
def Compact.Reader.withRoom (o : Options) (d : Nat) (bs : Bytes) : Reader :=
  { Reader.ofCursor (.ofBytes bs) o with enclosing := List.replicate (maxStructDepth - d) 0 }

/-- `bs` is read as `r` where `d` structs may still be opened, and nothing is left of it -/
def Format.ReadsAs (F : Format R) (o : Options) (d : Nat) (bs : Bytes) (r : R) : Prop :=
  ∃ s, F.read (.withRoom o d bs) = (.ok r, s) ∧ s.cursor.rest = []

theorem Codec.Built.settles {c : Codec α} (h : c.Built) : Read.Settles c.type c.read := by
  have hformat {R : Type} {F : Format R}
      (hF : ∀ f ∈ F.fields, Read.Settles f.codec.type f.codec.read) : Read.Quiet F.read := by
    refine Read.quiet_bind (Read.quiet_foldStruct (fun d t id => ?_) _) fun d => Read.quiet_lift _
    intro q hq
    rcases hfind : F.known t id with _ | f
    · rw [Format.readField_other hfind]
      exact Read.endsSettled_bind (Read.settles_skipWithin _ t q hq) fun _ => Read.quiet_pure d
    · obtain ⟨hf, -, ht⟩ := Format.known_eq_some hfind
      rw [Format.readField_known hfind]
      exact Read.endsSettled_bind (hF f hf q (ht ▸ hq)) fun x => Read.quiet_pure _
  induction h with
  | bool => exact Read.settles_bool
  | i16 => exact Read.quiet_i16.settles nofun
  | i32 => exact Read.quiet_i32.settles nofun
  | i64 => exact Read.quiet_i64.settles nofun
  | binary => exact Read.quiet_binary.settles nofun
  | string => exact Read.quiet_string.settles nofun
  | code =>
    exact Read.Quiet.settles (Read.quiet_bind Read.quiet_i32 fun c => Read.quiet_lift _) nofun
  | codes =>
    refine Read.Quiet.settles (Read.quiet_bind Read.quiet_listBegin fun h => ?_) nofun
    refine Read.quiet_bind (Read.quiet_reserve _ _) fun _ => ?_
    exact Read.quiet_bind (Read.quiet_times Read.quiet_i32 _) fun cs => Read.quiet_lift _
  | strings =>
    refine Read.Quiet.settles (Read.quiet_bind Read.quiet_listBegin fun h => ?_) nofun
    refine Read.quiet_bind (Read.quiet_reserve _ _) fun _ => ?_
    exact Read.quiet_times Read.quiet_string _
  | record _ ih => exact (hformat ih).settles nofun
  | records _ ih =>
    refine Read.Quiet.settles (Read.quiet_bind Read.quiet_listBegin fun h => ?_) nofun
    dsimp only
    split
    · refine Read.quiet_bind (Read.quiet_reserve _ _) fun _ => ?_
      exact Read.quiet_times (hformat ih) _
    · exact Read.quiet_fail _

theorem Compact.Read.delimits_pure {q : Reader} (a : α) : Read.Delimits (pure a) q [] a q :=
  ⟨fun _ _ _ _ => rfl, fun _ _ _ _ _ hsplit hback =>
    absurd (List.append_eq_nil_iff.mp hsplit.symm).2 hback⟩

/-- the last field of the struct around a record has no part in it either -/
theorem Format.delimits_behind (hF : ∀ f ∈ F.fields, Read.Delimited f.codec.read) {q s : Reader}
    (hq : q.enclosing.length ≤ maxStructDepth) (h : F.read q = (.ok r, s)) : ∃ bs,
      q.cursor.rest = bs ++ s.cursor.rest ∧ ∀ last,
        Read.Delimits F.read { q with lastField := last } bs r { s with lastField := last } := by
  obtain ⟨e, s', hfold, hfinish⟩ := Step.bind_eq_ok.mp h
  have hd := Read.delimited_fields (Format.delimited_readField hF) F.blank
  obtain ⟨hlt, bs, q', hbs, rfl, hfields⟩ := Read.frame_eq_ok hq hd hfold
  rcases hr : F.finish e with err | r'
  · rw [hr] at hfinish
    cases hfinish
  · rw [hr] at hfinish
    cases hfinish
    refine ⟨bs, hbs, fun last => ?_⟩
    have hread : F.read = Read.foldStruct F.readField F.blank >>= fun e => liftM (F.finish e) := rfl
    have hbind := (hfields.frame hlt last).bind (f := fun e => liftM (F.finish e)) rfl (by
      rw [hr]
      exact Read.delimits_pure r)
    rw [List.append_nil] at hbind
    exact hbind

/-- a record is read alike wherever as many structs may be opened -/
theorem takes_readsAs {kind : RecordKind} {r : kind.Record} (h : kind.format.ReadsAs o d bs r) :
    Read.Takes o d i i kind.format.read bs r := by
  obtain ⟨s, hrun, hrest⟩ := h
  have hroom : (Reader.withRoom o d bs).enclosing.length = maxStructDepth - d :=
    List.length_replicate
  obtain ⟨bs', hbs, hd⟩ := Format.delimits_behind
    (fun f hf => (kind.built f hf).delimited) (hroom ▸ Nat.sub_le _ _) hrun
  rw [hrest, List.append_nil] at hbs
  cases (hbs : bs = bs')
  -- what the run left of the limits, and that it left nothing held back
  have hlimits : s.Obeys o :=
    (Step.Maintains.of_eq kind.stable (⟨rfl, rfl⟩ : (Reader.withRoom o d bs).Obeys o) hrun).1
  have hpending : s.pendingBool = none := by
    have hs := (Codec.Built.record kind.built).settles (.withRoom o d bs) (.inr rfl)
    change Read.EndsSettled (kind.format.read (.withRoom o d bs)) at hs
    rw [hrun] at hs
    exact hs
  intro q before rest hq hc
  have hle : q.enclosing.length ≤ (Reader.withRoom o d bs).enclosing.length := by
    have := hq.depth
    omega
  have htakes := (hd i).takes q.enclosing before rest hle
  obtain ⟨c, last, e, pending, sl, cl⟩ := q
  obtain ⟨c', last', e', pending', sl', cl'⟩ := s
  cases hq.limits.stringLimit
  cases hq.limits.containerLimit
  cases hq.last
  cases hq.pending
  cases hlimits.stringLimit
  cases hlimits.containerLimit
  cases hpending
  cases hc
  exact htakes

/-! ## payloads -/

/-- a list that declares the elements `t`, each of `room` bytes, and what its elements are -/
inductive Listed (o : Options) (t : WireType) (room : Nat) (P : Bytes → α → Prop) :
    Bytes → List α → Prop
  | mk {head : Bytes} {bss : List Bytes} {xs : List α} (hhead : Heads o t.code xs.length head)
    (hroom : xs.length * room ≤ Read.maxListRoom) (helems : List.Forall₂ P bss xs) :
    Listed o t room P (head ++ bss.flatten) xs

/-- `bs` spells the signed number `n` -/
def Varint.SpellsInt (bs : Bytes) (n : Int) : Prop := Varint.Spells bs (Zigzag.fold n)

/-- `bs` is a text -/
inductive TextSpelled (o : Options) : Bytes → String → Prop
  | mk {head : Bytes} {t : String} (h : Varint.Spells head (Utf8.encode t).length)
    (hfits : Fits o (Utf8.encode t).length) : TextSpelled o (head ++ Utf8.encode t) t

/-- `bs` is the number of a member of a closed set -/
def CodeSpelled [Coded α] (bs : Bytes) (x : α) : Prop :=
  ∃ c : Int32, Varint.SpellsInt bs c.toInt ∧ Coded.ofCode? c = some x

/-- `bs` is the payload `x` behind a header with the type nibble `code`, where `d` structs may be
opened -/
inductive Codec.Spells (o : Options) (d : Nat) : {α : Type} → Codec α → UInt8 → Bytes → α → Prop
  | bool {code : UInt8} : Spells o d .bool code [] (code == 1)
  | i16 {code : UInt8} {bs : Bytes} {n : Int16} (h : Varint.SpellsInt bs n.toInt) :
    Spells o d .i16 code bs n
  | i32 {code : UInt8} {bs : Bytes} {n : Int32} (h : Varint.SpellsInt bs n.toInt) :
    Spells o d .i32 code bs n
  | i64 {code : UInt8} {bs : Bytes} {n : Int64} (h : Varint.SpellsInt bs n.toInt) :
    Spells o d .i64 code bs n
  | binary {code : UInt8} {head bs : Bytes} (h : Varint.Spells head bs.length)
    (hfits : Fits o bs.length) : Spells o d .binary code (head ++ bs) bs
  | string {code : UInt8} {bs : Bytes} {t : String} (h : TextSpelled o bs t) :
    Spells o d .string code bs t
  | code {α : Type} [Coded α] {code : UInt8} {bs : Bytes} {x : α} (h : CodeSpelled bs x) :
    Spells o d (.code α) code bs x
  | codes {α : Type} [Coded α] {code : UInt8} {bs : Bytes} {xs : List α}
    (h : Listed o .i32 codeRoom CodeSpelled bs xs) : Spells o d (.codes α) code bs xs
  | strings {code : UInt8} {bs : Bytes} {ts : List String}
    (h : Listed o .binary textRoom (TextSpelled o) bs ts) : Spells o d .strings code bs ts
  | record {code : UInt8} {bs : Bytes} (kind : RecordKind) {r : kind.Record}
    (h : kind.format.ReadsAs o d bs r) : Spells o d (.record kind.format) code bs r
  | records {code : UInt8} {bs : Bytes} (kind : RecordKind) {rs : List kind.Record}
    (h : Listed o .struct kind.room (kind.format.ReadsAs o d) bs rs) :
    Spells o d (.records kind.format) code bs rs

/-! ## payloads are read as what they say -/

theorem fold_lt_16 (n : Int16) : Zigzag.fold n.toInt < 2 ^ 16 :=
  Zigzag.fold_lt (k := 15) n.le_toInt n.toInt_lt

theorem fold_lt_32 (n : Int32) : Zigzag.fold n.toInt < 2 ^ 32 :=
  Zigzag.fold_lt (k := 31) n.le_toInt n.toInt_lt

namespace Compact

theorem takes_int16 {n : Int16} (h : Varint.SpellsInt bs n.toInt) :
    Read.Takes o d i i Read.i16 bs n := by
  have h' := takes_i16 (o := o) (d := d) (i := i) h (fold_lt_16 n)
  rwa [Zigzag.unfold_fold, Int16.ofInt_toInt] at h'

theorem takes_int32 {n : Int32} (h : Varint.SpellsInt bs n.toInt) :
    Read.Takes o d i i Read.i32 bs n := by
  have h' := takes_i32 (o := o) (d := d) (i := i) h (fold_lt_32 n)
  rwa [Zigzag.unfold_fold, Int32.ofInt_toInt] at h'

theorem takes_int64 {n : Int64} (h : Varint.SpellsInt bs n.toInt) :
    Read.Takes o d i i Read.i64 bs n := by
  have h' := takes_i64 (o := o) (d := d) (i := i) h
  rwa [Zigzag.unfold_fold, Int64.ofInt_toInt] at h'

theorem takes_text {t : String} (h : TextSpelled o bs t) :
    Read.Takes o d i i Read.string bs t := by
  obtain ⟨h, hfits⟩ := h
  apply Read.takes_bind_pure (takes_binary h hfits)
  rw [Utf8.decode_encode]
  exact Read.takes_pure t

theorem takes_times {y : Read α} {bss : List Bytes} {xs : List α}
    (h : List.Forall₂ (fun bs x => Read.Takes o d i i y bs x) bss xs) :
    Read.Takes o d i i (Step.times xs.length y) bss.flatten xs := by
  induction h with
  | nil => exact Read.takes_pure []
  | @cons bs x bss xs hx _ ih =>
    rw [List.length_cons, Step.times_succ, List.flatten_cons]
    exact Read.takes_bind hx (Read.takes_bind_pure ih (Read.takes_pure (x :: xs)))

/-- a list behind its header -/
theorem takes_listed {β : Type} {t : WireType} {room : Nat} {P : Bytes → α → Prop} {xs : List α}
    {f : WireType × Nat → Read β} {b : β} (h : Listed o t room P bs xs)
    (hf : ∀ bss, List.Forall₂ P bss xs → xs.length * room ≤ Read.maxListRoom →
      Read.Takes o d i i (f (t, xs.length)) bss.flatten b) :
    Read.Takes o d i i (Read.listBegin >>= f) bs b := by
  obtain ⟨hhead, hroom, helems⟩ := h
  exact Read.takes_bind (hhead.takes (WireType.ofCode?_code t)) (hf _ helems hroom)

theorem takes_room {n room : Nat} (h : n * room ≤ Read.maxListRoom) :
    Read.Takes o d i i (Read.reserve n room) [] () := by
  rw [Read.reserve_ok h]
  exact Read.takes_pure ()

/-- the numbers of codes, and what they are looked up as -/
theorem exists_codes [Coded α] {bss : List Bytes} {xs : List α}
    (h : List.Forall₂ CodeSpelled bss xs) : ∃ cs : List Int32,
      List.Forall₂ (fun bs c => Varint.SpellsInt bs c.toInt) bss cs ∧ cs.length = xs.length ∧
        cs.mapM (decodeCode α) = .ok xs := by
  induction h with
  | nil => exact ⟨[], .nil, rfl, rfl⟩
  | cons hx _ ih =>
    obtain ⟨c, hc, hcode⟩ := hx
    obtain ⟨cs, hcs, hlen, hm⟩ := ih
    refine ⟨c :: cs, .cons hc hcs, congrArg Nat.succ hlen, ?_⟩
    rw [List.mapM_cons, decodeCode, hcode, hm]
    rfl

end Compact

/-- a payload is read as what it says -/
theorem Codec.Spells.takes {c : Codec α} {code : UInt8} {x : α} (h : c.Spells o d code bs x) :
    TakesPayload o d c.type code c.read bs x := by
  cases h with
  | bool => exact takesPayload_bool
  | i16 h => exact takesPayload_of_takes (by rintro ⟨⟩) fun i => takes_int16 h
  | i32 h => exact takesPayload_of_takes (by rintro ⟨⟩) fun i => takes_int32 h
  | i64 h => exact takesPayload_of_takes (by rintro ⟨⟩) fun i => takes_int64 h
  | binary h hfits => exact takesPayload_of_takes (by rintro ⟨⟩) fun i => takes_binary h hfits
  | string h => exact takesPayload_of_takes (by rintro ⟨⟩) fun i => takes_text h
  | code h =>
    obtain ⟨c, hc, hcode⟩ := h
    refine takesPayload_of_takes (by rintro ⟨⟩) fun i => Read.takes_bind_pure (takes_int32 hc) ?_
    refine Read.takes_lift ?_
    rw [decodeCode, hcode]
  | codes h =>
    refine takesPayload_of_takes (by rintro ⟨⟩) fun i => takes_listed h fun bss hbss hroom => ?_
    obtain ⟨cs, hcs, hlen, hm⟩ := exists_codes hbss
    have htimes := takes_times (hcs.imp fun bs c hc => takes_int32 (o := o) (d := d) (i := i) hc)
    rw [hlen] at htimes
    exact Read.takes_pure_bind (takes_room hroom) (Read.takes_bind_pure htimes (Read.takes_lift hm))
  | strings h =>
    refine takesPayload_of_takes (by rintro ⟨⟩) fun i => takes_listed h fun bss hbss hroom => ?_
    exact Read.takes_pure_bind (takes_room hroom)
      (takes_times (hbss.imp fun bs t ht => takes_text ht))
  | record kind h => exact takesPayload_of_takes (by rintro ⟨⟩) fun i => takes_readsAs h
  | records kind h =>
    refine takesPayload_of_takes (by rintro ⟨⟩) fun i => takes_listed h fun bss hbss hroom => ?_
    show Read.Takes o d i i (if _ then _ else _) _ _
    rw [if_pos rfl, kind.format_kind]
    exact Read.takes_pure_bind (takes_room hroom)
      (takes_times (hbss.imp fun bs r hr => takes_readsAs hr))

/-- a payload says one thing -/
theorem Codec.Spells.unique (hd : d ≤ maxStructDepth) {c : Codec α} {code : UInt8} {x y : α}
    (h : c.Spells o d code bs x) (h' : c.Spells o d code bs y) : x = y := by
  have hat : (Reader.ofCursor (.ofBytes bs) o).At o d 0 :=
    ⟨⟨rfl, rfl⟩, rfl, rfl, by
      show 0 + d ≤ maxStructDepth
      omega⟩
  have hc : (Reader.ofCursor (.ofBytes bs) o).cursor = ⟨[], bs ++ []⟩ := by
    rw [List.append_nil]
    rfl
  have e := (h.takes _ 0 [] [] hat hc).symm.trans (h'.takes _ 0 [] [] hat hc)
  cases e
  rfl

end Columnar
