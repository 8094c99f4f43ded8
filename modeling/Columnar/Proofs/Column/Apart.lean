import Columnar.Proofs.Column.Delta
import Columnar.Proofs.Column.Disabled

/-!
# A delta chunk is no column

The page of a delta chunk has the header of a dictionary, and its entries are read as those of a
dictionary are.  But the header counts the values alone, and each run is ended by an entry that is
no value, so that as many entries as are counted never fill the page.

* `ColumnReader.entries_short`       a page that holds more than it counts is no dictionary;
* `ColumnReader.Refuses n d x`       with `x`, a page of `n` values and more entries is refused;
* `ColumnReader.prepare_deltaChunk`  wherever a delta chunk lies, a column reader refuses it.
-/

namespace Columnar

namespace ColumnReader

variable {b : Binding} {r : ColumnReader}

/-! ## dictionaries that do not fill their page -/

/-- a page that has something behind the values that it counts is no dictionary -/
theorem entries_short {vs : List Bytes} {rest : Bytes} {d : Plain.Decoder}
    (htype : b.type ≠ .boolean) (hstaged : ∀ v ∈ vs, Plain.Staged b.type b.typeLength v)
    (hopen : Plain.Decoder.ofBytes (vs.flatten ++ rest) b.type b.typeLength = .ok d)
    (hrest : rest ≠ []) : entries ⟨vs.length, vs.flatten ++ rest⟩ b =
      .error (Fault.dictionarySizeMismatch (vs.flatten ++ rest).length vs.length
        vs.flatten.length) := by
  obtain ⟨hd, hwidth⟩ := Plain.Decoder.ofBytes_eq_ok hopen
  have htimes := @Plain.Decoder.times_flatten rest b.type d.width vs htype
    (fun ha v hv => hwidth v htype ha (hstaged v hv))
    (fun ha v hv => by
      have hv' := hstaged v hv
      rw [ha] at hv'
      exact hv') 0 0 []
  have hconsumed : (vs.flatten.reverse ++ []).length = vs.flatten.length := by
    rw [List.append_nil, List.length_reverse]
  have hpos := List.length_pos_iff.mpr hrest
  have hne : ¬ (vs.flatten.reverse ++ []).length = (vs.flatten ++ rest).length := by
    rw [hconsumed, List.length_append]
    omega
  rw [entries, Except.bind_ok hopen, hd]
  dsimp only
  rw [show Cursor.ofBytes (vs.flatten ++ rest) = ⟨[], vs.flatten ++ rest⟩ from rfl, htimes]
  refine (if_neg hne).trans ?_
  show Except.error (Fault.dictionarySizeMismatch _ _ (vs.flatten.reverse ++ []).length : Error) = _
  rw [hconsumed]

/-- a page that is read but is no dictionary -/
theorem loadDictionary_refused {page : DictionaryPage} {c : Cursor} {x : Error}
    (hr : r.options.dictionary = true) (hb : r.binding = some b)
    (hdeclared : b.dictionaryOffset.isSome)
    (hpage : DictionaryPage.read r.options r.chunk = (.ok page, c))
    (h : entries page b = .error x) :
    loadDictionary r = (.error (.error x), { r with chunk := c }) := by
  rw [loadDictionary, Step.bind_ok (bound_ok hb), Step.state_bind, if_pos hdeclared,
    if_neg (not_not_intro hr), Step.bind_ok (onChunk_apply hpage), h]
  rfl

/-! ## the page of a delta column -/

theorem laid_append (us vs : List (Option Bytes)) :
    DeltaReader.laid (us ++ vs) = DeltaReader.laid us ++ DeltaReader.laid vs :=
  List.flatMap_append

/-- a page of more entries than it counts is no dictionary -/
theorem entries_laid {vs : List (Option Bytes)} {n : Nat} (htype : b.type = .byteArray)
    (hfits : ∀ bs, some bs ∈ vs → bs.length < 2 ^ 32) (hn : n < vs.length) :
    entries ⟨n, DeltaReader.laid vs⟩ b = .error (Fault.dictionarySizeMismatch
      (DeltaReader.laid vs).length n (DeltaReader.laid (vs.take n)).length) := by
  -- the entries that are counted, and at least one that is not
  let front : List Bytes := (vs.take n).map fun v => Plain.byteArray (v.getD [])
  have hfront : front.flatten = DeltaReader.laid (vs.take n) := (List.flatMap_def).symm
  have hlen : front.length = n := by
    rw [List.length_map, List.length_take, Nat.min_eq_left (Nat.le_of_lt hn)]
  have hsplit : DeltaReader.laid vs = front.flatten ++ DeltaReader.laid (vs.drop n) := by
    rw [hfront, ← laid_append, List.take_append_drop]
  have hrest : DeltaReader.laid (vs.drop n) ≠ [] := by
    have hlaid := DeltaReader.length_laid (vs.drop n)
    rw [List.length_drop] at hlaid
    exact List.ne_nil_of_length_pos (by omega)
  have hstaged : ∀ v ∈ front, Plain.Staged b.type b.typeLength v := by
    intro v hv
    obtain ⟨u, hu, rfl⟩ := List.mem_map.mp hv
    rw [htype]
    refine ⟨u.getD [], rfl, ?_⟩
    cases u with
    | none => decide
    | some bs => exact hfits bs (List.mem_of_mem_take hu)
  have hopen : Plain.Decoder.ofBytes (front.flatten ++ DeltaReader.laid (vs.drop n)) b.type
      b.typeLength = .ok ⟨.ofBytes (front.flatten ++ DeltaReader.laid (vs.drop n)), .byteArray, 0,
        0, 0⟩ := by
    rw [htype]
    rfl
  have hshort := entries_short (by rw [htype]; exact fun h => nomatch h) hstaged hopen hrest
  rwa [hlen, ← hsplit, hfront] at hshort

/-- how a page of `count` values that are not all of its entries is refused as a dictionary: the
values that are counted take less than the page -/
inductive Refuses (count : Nat) : Bool → Error → Prop
  | disabled : Refuses count false Fault.dictionaryDisabled
  | short {size taken : Nat} (h : taken < size) :
    Refuses count true (Fault.dictionarySizeMismatch size count taken)

/-- a page of more entries than it counts is refused, whether dictionaries are allowed or not -/
theorem loadDictionary_laid {vs : List (Option Bytes)} {n : Nat} {bs : Bytes}
    (hb : r.binding = some b) (hdeclared : b.dictionaryOffset.isSome) (htype : b.type = .byteArray)
    (hchunk : r.chunk = .ofBytes bs)
    (hpage : Cursor.Takes (DictionaryPage.read r.options) bs ⟨n, DeltaReader.laid vs⟩)
    (hfits : ∀ bs, some bs ∈ vs → bs.length < 2 ^ 32) (hn : n < vs.length) :
    ∃ x t, loadDictionary r = (.error (.error x), t) ∧ Refuses n r.options.dictionary x ∧
      t.progress = r.progress := by
  cases hdictionary : r.options.dictionary with
  | false => exact ⟨_, r, loadDictionary_disabled hdictionary hb hdeclared, .disabled, rfl⟩
  | true =>
    have hread := hpage [] []
    rw [List.append_nil, ← show r.chunk = ⟨[], bs⟩ from hchunk] at hread
    have hlaid : (DeltaReader.laid (vs.take n)).length < (DeltaReader.laid vs).length := by
      have hrest := DeltaReader.length_laid (vs.drop n)
      rw [List.length_drop] at hrest
      have hsplit := congrArg List.length (laid_append (vs.take n) (vs.drop n))
      rw [List.take_append_drop, List.length_append] at hsplit
      omega
    exact ⟨_, _, loadDictionary_refused hdictionary hb hdeclared hread
      (entries_laid htype hfits hn), .short hlaid, rfl⟩

/-- wherever a delta chunk that holds values lies, a column reader refuses it and is not ready -/
theorem prepare_deltaChunk {spec : ColumnSpec} {values : List (Option Bytes)}
    {c : Written ColumnChunk} {front behind : Bytes} (column : Nat) (htype : spec.type = .byteArray)
    (h : DeltaWriter.chunk front.length spec values = .ok c)
    (hbuffer : r.buffer = front ++ c.bytes ++ behind) (hroom : r.buffer.length < 2 ^ 63)
    (hvalues : 0 < values.countP Option.isSome) :
    ∃ x t, prepare column spec.leaf c.record r =
        (.error (.error (x.within (.preparingColumn column))), t) ∧
      Refuses (values.countP Option.isSome) r.options.dictionary x ∧
      t.progress = .uninitialized := by
  obtain ⟨m, hrecord, hm, -⟩ := DeltaWriter.chunk_record htype h
  obtain ⟨hcount, vs, hpage, -, hfits, hpos⟩ := DeltaWriter.chunk_page h
  obtain ⟨hsize, hmore⟩ := hpos hvalues
  have hend : front.length + c.bytes.length ≤ r.buffer.length := by
    rw [hbuffer, List.length_append, List.length_append]
    exact Nat.le_add_right _ _
  have hbind := Binding.ofChunk_describes hm (by rw [htype]; exact fun h => nomatch h)
    (by rw [htype]; exact fun h => nomatch h) (by omega) hend hroom column
  rw [← hrecord] at hbind
  have hbytes : (Binding.ofSpec column spec (values.countP Option.isSome) front.length
      c.bytes.length true).bytes r.buffer = c.bytes := by
    rw [hbuffer]
    exact Binding.bytes_append rfl rfl
  obtain ⟨x, t, hload, hrefuses, hprogress⟩ := loadDictionary_laid (r := r.atChunk _)
    (b := .ofSpec column spec (values.countP Option.isSome) front.length c.bytes.length true)
    rfl rfl htype (congrArg Cursor.ofBytes hbytes) (hpage r.options)
    (fun bs hbs => (hfits bs hbs).2) hmore
  exact ⟨x, t, prepare_unloaded hbind hvalues hsize hload, hrefuses, hprogress⟩

end ColumnReader

end Columnar
