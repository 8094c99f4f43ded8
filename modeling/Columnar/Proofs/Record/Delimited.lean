import Columnar.Proofs.Compact.Delimited
import Columnar.Proofs.Record.Built

/-!
# Records say where they end

A record is read from the bytes it takes and from nothing behind them, and no front of these bytes
is another record: reading it runs out of bytes.  A header can therefore be read from the rest of
a chunk without its length.

* `Codec.Built.delimited`         every payload says where it ends, and so do records;
* `RecordKind.decode_delimited`   the same of records that are read on their own.
-/

namespace Columnar

open Columnar.Compact

variable {α R : Type} {F : Format R} {o : Options} {bs : Bytes} {r : R} {n : Nat}

theorem Format.delimited_readField (h : ∀ f ∈ F.fields, Read.Delimited f.codec.read)
    (d : F.Draft) (t : WireType) (id : Int16) : Read.Delimited (F.readField d t id) := by
  unfold readField
  split
  · rename_i f hfind
    have hf := h f (List.mem_of_find?_eq_some hfind)
    exact Read.delimited_bind hf fun _ => Read.delimited_pure _
  · exact Read.delimited_bind (Read.delimited_skip t) fun _ => Read.delimited_pure d

/-- a record says where it ends as soon as its fields do -/
theorem Format.delimited (h : ∀ f ∈ F.fields, Read.Delimited f.codec.read) :
    Read.Delimited F.read :=
  Read.delimited_bind (Read.delimited_foldStruct (delimited_readField h) F.blank) fun _ =>
    Read.delimited_lift _

/-- every payload says where it ends -/
theorem Codec.Built.delimited {c : Codec α} (h : c.Built) : Read.Delimited c.read := by
  induction h with
  | bool => exact Read.delimited_bool
  | i16 => exact Read.delimited_i16
  | i32 => exact Read.delimited_i32
  | i64 => exact Read.delimited_i64
  | binary => exact Read.delimited_binary
  | string => exact Read.delimited_string
  | code =>
    exact Read.delimited_bind Read.delimited_i32 fun c => Read.delimited_lift _
  | codes =>
    refine Read.delimited_bind Read.delimited_listBegin fun h => ?_
    refine Read.delimited_bind (Read.delimited_reserve _ _) fun _ => ?_
    exact Read.delimited_bind (Read.delimited_times Read.delimited_i32 _) fun cs =>
      Read.delimited_lift _
  | strings =>
    refine Read.delimited_bind Read.delimited_listBegin fun h => ?_
    refine Read.delimited_bind (Read.delimited_reserve _ _) fun _ => ?_
    exact Read.delimited_times Read.delimited_string _
  | record _ ih => exact Format.delimited ih
  | records _ ih =>
    refine Read.delimited_bind Read.delimited_listBegin fun h => ?_
    dsimp only
    split
    · refine Read.delimited_bind (Read.delimited_reserve _ _) fun _ => ?_
      exact Read.delimited_times (Format.delimited ih) _
    · exact Read.delimited_fail _

/-! ## records on their own -/

namespace Format

/-- a record that was read on its own, as what its format takes -/
theorem delimits_of_decode (hF : Read.Delimited F.read) (h : F.decode o bs = .ok (r, n)) :
    ∃ front behind r', bs = front ++ behind ∧ n = front.length ∧
      Read.Delimits F.read (.ofCursor (.ofBytes []) o) front r r' := by
  unfold decode at h
  split at h
  · rename_i r₁ s e
    cases h
    obtain ⟨front, hfront, -, hd⟩ := hF _ (Nat.zero_le _) _ _ e
    -- from the same place, the reader goes where it went
    have hs := hd.takes [] [] s.cursor.rest (Nat.le_refl _)
    have hsame : (Reader.ofCursor (.ofBytes bs) o).at [] [] (front ++ s.cursor.rest) =
        .ofCursor (.ofBytes bs) o := by
      rw [← hfront]
      rfl
    rw [hsame, e] at hs
    have hpos : s.cursor.pos = front.length := by
      rw [show s = s.at [] (front.reverse ++ []) s.cursor.rest from congrArg Prod.snd hs]
      exact (congrArg List.length (List.append_nil _)).trans List.length_reverse
    exact ⟨front, s.cursor.rest, s, hfront, hpos, hd.takes, hd.starves⟩
  · cases h

/-- the bytes of a record give the record whatever stands behind them -/
theorem decode_of_delimits {front : Bytes} {r' : Reader}
    (h : Read.Delimits F.read (.ofCursor (.ofBytes []) o) front r r') (behind : Bytes) :
    F.decode o (front ++ behind) = .ok (r, front.length) := by
  have e : F.read (.ofCursor (.ofBytes (front ++ behind)) o) = _ :=
    h.takes [] [] behind (Nat.le_refl _)
  rw [decode, e]
  show Except.ok (r, (front.reverse ++ []).length) = _
  rw [List.append_nil, List.length_reverse]

/-- a front of the bytes of a record is too short -/
theorem decode_short {front back : Bytes} {r' : Reader}
    (h : Read.Delimits F.read (.ofCursor (.ofBytes []) o) (front ++ back) r r')
    (hback : back ≠ []) : ∃ e, F.decode o front = .error e ∧ e.Short := by
  obtain ⟨e, s, he, hshort⟩ := h.starves [] [] front back (Nat.le_refl _) rfl hback
  have he' : F.read (.ofCursor (.ofBytes front) o) = _ := he
  refine ⟨e.within (.decodingRecord F.kind), ?_, hshort.within _⟩
  rw [decode, he']

end Format

/-- a record is read from the bytes it takes, whatever stands behind them, and from no front of
these bytes: there the layout is at fault -/
theorem RecordKind.decode_delimited (kind : RecordKind) {o : Options} {bs : Bytes}
    {r : kind.Record} {n : Nat} (h : kind.format.decode o bs = .ok (r, n)) :
    n ≤ bs.length ∧
      (∀ cs, cs.take n = bs.take n → kind.format.decode o cs = .ok (r, n)) ∧
      ∀ m < n, ∃ e : Error, kind.format.decode o (bs.take m) = .error (.error e) ∧
        e.kind = .layout := by
  obtain ⟨front, behind, r', rfl, rfl, hd⟩ :=
    Format.delimits_of_decode (Format.delimited fun f hf => (kind.built f hf).delimited) h
  refine ⟨?_, fun cs hcs => ?_, fun m hm => ?_⟩
  · rw [List.length_append]
    exact Nat.le_add_right _ _
  · rw [List.take_left] at hcs
    rw [← List.take_append_drop front.length cs, hcs]
    exact Format.decode_of_delimits hd _
  · rw [List.take_append_of_le_length (Nat.le_of_lt hm)]
    have hback : front.drop m ≠ [] := by
      intro e
      have hlen := congrArg List.length e
      rw [List.length_drop, List.length_nil] at hlen
      omega
    rw [← List.take_append_drop m front] at hd
    obtain ⟨e, he, hshort⟩ := Format.decode_short hd hback
    cases e with
    | error e => exact ⟨e, he, hshort⟩
    | misuse m => exact hshort.elim

/-- an empty key with a byte behind it, behind other bytes, and cut off -/
theorem RecordKind.decode_delimited_keyValue :
    KeyValue.format.decode {} [0x18, 0, 0, 7] = .ok (⟨"", none⟩, 3) ∧
      KeyValue.format.decode {} [0x18, 0, 0, 1, 2] = .ok (⟨"", none⟩, 3) ∧
      ∃ e : Error, KeyValue.format.decode {} [0x18, 0] = .error (.error e) ∧
        e.kind = .layout :=
  have h : (RecordKind.format .keyValue).decode {} [0x18, 0, 0, 7] = .ok (⟨"", none⟩, 3) := by rfl
  have d := RecordKind.decode_delimited .keyValue h
  ⟨h, d.2.1 [0x18, 0, 0, 1, 2] rfl, d.2.2 2 (by decide)⟩

end Columnar
