import Columnar.Proofs.Column.Staging
import Columnar.Proofs.Hybrid.Batches

/-!
# Columns as dictionaries and indices

A dictionary with the indices of the slots says what the slots do.

* `Dictionary.pairwise_entries`    the entries stand in the order in which they are met;
* `Staging.Met.Sound s m`          what was met is looked up by its bytes;
* `Staging.indexSlots_eq`          what one pass over the slots finds;
* `Staging.Names entries width`    the index of a slot names the entry with its bytes;
* `Staging.indexBody_ok`           rows with their indices can be written;
* `Staging.dictionary_factors`     the dictionary of a column that was staged.
-/

namespace Columnar

/-! ## entries -/

namespace Dictionary

theorem ofSlots_concat (slots : List (Option Bytes)) (slot : Option Bytes) :
    (ofSlots (slots ++ [slot])).entries = (ofSlots slots).entries ++
      slot.toList.filter fun bs => some bs ∉ slots := by
  rw [ofSlots, ofSlots, List.filterMap_append, List.eraseDups_append]
  cases slot with
  | none => rfl
  | some bs =>
    by_cases hbs : some bs ∈ slots
    · simp [List.removeAll, hbs]
    · simp [List.removeAll, hbs, List.eraseDups_cons]

/-- entries are met one behind the other; the induction is on the slots from the last one on -/
theorem pairwise_entries (slots : List (Option Bytes)) :
    ((ofSlots slots).entries.map fun bs => slots.idxOf (some bs)).Pairwise (· < ·) := by
  induction slots using List.reverseRecOn with
  | nil => exact List.Pairwise.nil
  | append_singleton slots slot ih =>
    have hold : (ofSlots slots).entries.map (fun bs => (slots ++ [slot]).idxOf (some bs)) =
        (ofSlots slots).entries.map fun bs => slots.idxOf (some bs) :=
      List.map_congr_left fun bs hbs => List.idxOf_append_of_mem (mem_entries.mp hbs)
    rw [ofSlots_concat, List.map_append, hold, List.pairwise_append]
    refine ⟨ih, ?_, ?_⟩
    · cases slot with
      | none => exact List.Pairwise.nil
      | some bs => exact (List.pairwise_singleton _ _).sublist (List.filter_sublist.map _)
    · intro i hi j hj
      obtain ⟨bs, hbs, rfl⟩ := List.mem_map.mp hi
      obtain ⟨cs, hcs, rfl⟩ := List.mem_map.mp hj
      obtain ⟨hslot, hnew⟩ := List.mem_filter.mp hcs
      rw [List.idxOf_append_of_notMem (of_decide_eq_true hnew)]
      exact Nat.lt_of_lt_of_le (List.idxOf_lt_length_of_mem (mem_entries.mp hbs))
        (Nat.le_add_right _ _)

theorem nodup_entries (slots : List (Option Bytes)) : (ofSlots slots).entries.Nodup :=
  (List.pairwise_map.mp (pairwise_entries slots)).imp fun hlt heq => by
    rw [heq] at hlt
    exact Nat.lt_irrefl _ hlt

end Dictionary

namespace Staging

variable {s : Staging} {m : Met}

/-! ## one slot -/

/-- the bytes of the entries that were met -/
def Met.keys (s : Staging) (m : Met) : List Bytes := m.entries.map (ByteRange.of s.bytes)

/-- what was met is found by its bytes, and no other bytes are -/
def Met.Sound (s : Staging) (m : Met) : Prop :=
  ∀ bs, m.lookup.lookup bs =
    if bs ∈ m.keys s then some (UInt32.ofNat ((m.keys s).idxOf bs)) else none

theorem sound_nil (s : Staging) : Met.Sound s {} := fun _ => rfl

/-- a range is found by its bytes, or is the next entry -/
theorem enter_sound (h : m.Sound s) (r : ByteRange) :
    let t := s.enter r m
    t.2.Sound s ∧ t.1 = UInt32.ofNat ((t.2.keys s).idxOf (r.of s.bytes)) ∧
      t.2.keys s = if r.of s.bytes ∈ m.keys s then m.keys s else m.keys s ++ [r.of s.bytes] := by
  intro t
  have hfind := h (r.of s.bytes)
  by_cases hmet : r.of s.bytes ∈ m.keys s
  · rw [if_pos hmet] at hfind
    have ht : t = (UInt32.ofNat ((m.keys s).idxOf (r.of s.bytes)), m) := by
      show s.enter r m = _
      rw [enter, hfind]
    rw [ht, if_pos hmet]
    exact ⟨h, rfl, rfl⟩
  · rw [if_neg hmet] at hfind
    have ht : t = (UInt32.ofNat m.entries.length, ⟨m.entries ++ [r],
        (r.of s.bytes, UInt32.ofNat m.entries.length) :: m.lookup⟩) := by
      show s.enter r m = _
      rw [enter, hfind]
      dsimp only
      rw [List.length_append, List.length_singleton, Nat.add_sub_cancel]
    have hkeys : t.2.keys s = m.keys s ++ [r.of s.bytes] := by
      rw [ht, Met.keys, List.map_append]
      rfl
    have hlen : m.entries.length = (m.keys s).length := (List.length_map _).symm
    have hidx : (m.keys s ++ [r.of s.bytes]).idxOf (r.of s.bytes) = m.entries.length := by
      rw [List.idxOf_append_of_notMem hmet, hlen]
      simp
    rw [if_neg hmet]
    refine ⟨fun bs => ?_, ?_, hkeys⟩
    · rw [hkeys, ht, List.lookup_cons]
      by_cases hbs : bs = r.of s.bytes
      · subst hbs
        rw [beq_self_eq_true, if_pos (by simp), hidx]
      · rw [beq_eq_false_iff_ne.mpr hbs]
        dsimp only
        rw [h bs]
        by_cases hold : bs ∈ m.keys s
        · rw [if_pos hold, if_pos (List.mem_append_left _ hold), List.idxOf_append_of_mem hold]
        · rw [if_neg hold, if_neg (by simp [hold, hbs])]
    · rw [hkeys, hidx, ht]

/-! ## all slots -/

/-- the entries are those that were met, and the others each once; indices are places among the
entries.  The induction is on the slots, and what was met stays in front -/
theorem indexSlots_eq (slots : List (Option ByteRange)) : ∀ {m : Met}, m.Sound s →
    let d := s.indexSlots slots m
    let entries := d.entries.map (ByteRange.of s.bytes)
    entries = m.keys s ++ (((slots.filterMap id).map (ByteRange.of s.bytes)).filter
        fun bs => bs ∉ m.keys s).eraseDups ∧
      d.indices = slots.map (·.map fun r => UInt32.ofNat (entries.idxOf (r.of s.bytes))) := by
  induction slots with
  | nil =>
    intro m _ d entries
    exact ⟨(List.append_nil _).symm, rfl⟩
  | cons slot slots ih =>
    intro m h d entries
    cases slot with
    | none =>
      obtain ⟨hentries, hindices⟩ := ih h
      exact ⟨hentries, congrArg (none :: ·) hindices⟩
    | some r =>
      obtain ⟨hsound, hindex, hkeys⟩ := enter_sound h r
      obtain ⟨hentries, hindices⟩ := ih hsound
      have hmem : r.of s.bytes ∈ (s.enter r m).2.keys s := by
        rw [hkeys]
        split
        · assumption
        · exact List.mem_append_right _ List.mem_cons_self
      refine ⟨hentries.trans ?_, ?_⟩
      · rw [hkeys, List.filterMap_cons_some (f := id) rfl, List.map_cons]
        split
        · rename_i hmet
          rw [List.filter_cons_of_neg (by simpa using hmet)]
        · rename_i hnew
          rw [List.filter_cons_of_pos (by simpa using hnew), List.eraseDups_cons,
            List.filter_filter, List.append_assoc, List.singleton_append]
          congr 4
          funext bs
          by_cases hbs : bs = r.of s.bytes <;> simp [hbs]
      · have hplace : (s.enter r m).1 = UInt32.ofNat (entries.idxOf (r.of s.bytes)) := by
          rw [hindex, show entries = _ from hentries, List.idxOf_append_of_mem hmem]
        have hd : d.indices = some (s.enter r m).1 ::
          (s.indexSlots slots (s.enter r m).2).indices := rfl
        rw [hd, hindices, hplace]
        rfl

/-- an entry is the range of a slot -/
theorem mem_indexSlots (slots : List (Option ByteRange)) : ∀ {m : Met} {r : ByteRange},
    r ∈ (s.indexSlots slots m).entries → r ∈ m.entries ∨ some r ∈ slots := by
  induction slots with
  | nil => exact Or.inl
  | cons slot slots ih =>
    intro m r hr
    cases slot with
    | none => exact (ih hr).imp_right (List.mem_cons_of_mem _)
    | some x =>
      refine (ih hr).elim (fun hm => ?_) fun hslots => .inr (List.mem_cons_of_mem _ hslots)
      split at hm
      · exact .inl hm
      · rcases List.mem_append.mp hm with hm | hm
        · exact .inl hm
        · exact .inr (List.mem_singleton.mp hm ▸ List.mem_cons_self)

/-- what the pass finds is what the slots say by their bytes -/
theorem dictionary_eq (s : Staging) :
    s.dictionary.entries.map (ByteRange.of s.bytes) = (Dictionary.ofSlots s.slotBytes).entries ∧
      s.dictionary.indices = s.slotBytes.map (·.map fun bs =>
        UInt32.ofNat ((Dictionary.ofSlots s.slotBytes).entries.idxOf bs)) := by
  have hslots : (s.slots.filterMap id).map (ByteRange.of s.bytes) = s.slotBytes.filterMap id := by
    rw [slotBytes, List.filterMap_map, List.map_filterMap]
    rfl
  obtain ⟨hentries, hindices⟩ := indexSlots_eq s.slots (sound_nil s)
  have heq : s.dictionary.entries.map (ByteRange.of s.bytes) =
      (Dictionary.ofSlots s.slotBytes).entries := by
    refine hentries.trans ?_
    rw [hslots]
    show [] ++ _ = (s.slotBytes.filterMap id).eraseDups
    simp [Met.keys]
  refine ⟨heq, hindices.trans ?_⟩
  rw [slotBytes, List.map_map]
  refine List.map_congr_left fun slot _ => ?_
  cases slot with
  | none => rfl
  | some r => exact congrArg (fun es => some (UInt32.ofNat (List.idxOf _ es))) heq

/-! ## indices -/

/-- the index of a slot is there where its value is, names the entry with its bytes, and has `width`
bits -/
def Names (entries : List Bytes) (width : Nat) : Option Bytes → Option UInt32 → Prop
  | none, none => True
  | some bs, some i => entries[i.toNat]? = some bs ∧ i.toNat < 2 ^ width
  | _, _ => False

/-- the bytes of a slot have a place among the entries -/
theorem place_lt {bs : Bytes} (h : some bs ∈ s.slotBytes) :
    (Dictionary.ofSlots s.slotBytes).entries.idxOf bs < s.dictionary.entries.length := by
  rw [← List.length_map (ByteRange.of s.bytes), (dictionary_eq s).1]
  exact List.idxOf_lt_length_of_mem (Dictionary.mem_entries.mpr h)

/-- a place among the entries has the bits of an index -/
theorem lt_bitWidth {d : StagedDictionary} (hmany : d.entries.length ≤ 2 ^ 32) {i : Nat}
    (hi : i < d.entries.length) : i < 2 ^ d.bitWidth := by
  have hmod : (d.entries.length - 1) % 2 ^ 32 = d.entries.length - 1 := Nat.mod_eq_of_lt (by omega)
  have hlast : d.entries.length - 1 < 2 ^ d.bitWidth := by
    rw [StagedDictionary.bitWidth, hmod]
    exact (Hybrid.bitWidth_le_iff _ _).mp (Nat.le_refl _)
  omega

theorem bitWidth_le (d : StagedDictionary) : d.bitWidth ≤ Hybrid.maxWidth :=
  (Hybrid.bitWidth_le_iff _ _).mpr (Nat.mod_lt _ (by decide))

/-- the indices of slots name their entries -/
theorem dictionary_names (hmany : s.dictionary.entries.length ≤ 2 ^ 32) :
    List.Forall₂ (Names (s.dictionary.entries.map (ByteRange.of s.bytes)) s.dictionary.bitWidth)
      s.slotBytes s.dictionary.indices := by
  obtain ⟨hentries, hindices⟩ := dictionary_eq s
  rw [hindices, List.forall₂_map_right_iff]
  refine List.forall₂_same.mpr fun slot hslot => ?_
  cases slot with
  | none => trivial
  | some bs =>
    have hlt := place_lt hslot
    have htoNat : (UInt32.ofNat ((Dictionary.ofSlots s.slotBytes).entries.idxOf bs)).toNat =
        (Dictionary.ofSlots s.slotBytes).entries.idxOf bs :=
      UInt32.toNat_ofNat_of_lt' (Nat.lt_of_lt_of_le hlt hmany)
    show _ ∧ _
    rw [htoNat, hentries]
    exact ⟨Dictionary.getElem?_idxOf hslot, lt_bitWidth hmany hlt⟩

/-- indices are what the dictionary says of the bytes of the slots -/
theorem dictionary_indices (hmany : s.dictionary.entries.length ≤ 2 ^ 32) :
    s.dictionary.indices.map (·.map UInt32.toNat) =
      (Dictionary.ofSlots s.slotBytes).indices s.slotBytes := by
  obtain ⟨hentries, hindices⟩ := dictionary_eq s
  rw [hindices, List.map_map, Dictionary.indices]
  refine List.map_congr_left fun slot hslot => ?_
  cases slot with
  | none => rfl
  | some bs =>
    exact congrArg some (UInt32.toNat_ofNat_of_lt' (Nat.lt_of_lt_of_le (place_lt hslot) hmany))

/-! ## pages -/

theorem exists_encode {w : Nat} (hw : w ≤ Hybrid.maxWidth) (vs : List Nat)
    (h : ∀ v ∈ vs, v < 2 ^ w) : ∃ bs, Hybrid.encode w vs = .ok bs := by
  have hwidth : Hybrid.Encoder.ofWidth w = .ok ⟨w, []⟩ := if_pos hw
  have hencode := Hybrid.Encoder.encode_of_fits (e := ⟨w, []⟩) (Hybrid.fits_iff.mpr h)
  refine ⟨(Hybrid.cut vs).flatMap (Hybrid.Piece.bytes w), ?_⟩
  rw [Hybrid.encode, Except.bind_ok hwidth, Except.bind_ok hencode]
  rfl

theorem exists_encodeLevels (defined : List Bool) : ∃ bs, encodeLevels defined = .ok bs := by
  have hone : 1 ≤ Hybrid.maxWidth := by decide
  obtain ⟨bs, hbs⟩ := exists_encode hone (defined.map Bool.toNat) fun v hv => by
    obtain ⟨b, -, rfl⟩ := List.mem_map.mp hv
    cases b <;> decide
  exact ⟨_, Except.bind_eq_ok.mpr ⟨bs, hbs, rfl⟩⟩

/-- a part of the slots with their indices -/
theorem slice_indices (hmany : s.dictionary.entries.length ≤ 2 ^ 32)
    {front rows back : List (Option ByteRange)} (hslots : s.slots = front ++ rows ++ back) :
    ((s.dictionary.indices.drop front.length).take rows.length).map (·.map UInt32.toNat) =
      (Dictionary.ofSlots s.slotBytes).indices (rows.map (·.map (ByteRange.of s.bytes))) := by
  rw [List.map_take, List.map_drop, dictionary_indices hmany]
  generalize Dictionary.ofSlots s.slotBytes = d
  rw [slotBytes, hslots, Dictionary.indices, List.map_append, List.map_append, List.map_append,
    List.map_append, List.append_assoc, List.drop_left' (by simp), List.take_left' (by simp)]
  rfl

/-- the indices of slots have the bits of an index -/
theorem indices_lt (hmany : s.dictionary.entries.length ≤ 2 ^ 32) {slots : List (Option Bytes)}
    (hslots : ∀ slot ∈ slots, slot ∈ s.slotBytes) :
    ∀ i ∈ ((Dictionary.ofSlots s.slotBytes).indices slots).filterMap id,
      i < 2 ^ s.dictionary.bitWidth := by
  intro i hi
  obtain ⟨_, hindex, rfl⟩ := List.mem_filterMap.mp hi
  obtain ⟨slot, hslot, hplace⟩ := List.mem_map.mp hindex
  obtain ⟨bs, rfl, rfl⟩ := Option.map_eq_some_iff.mp hplace
  exact lt_bitWidth hmany (place_lt (hslots _ hslot))

/-- rows and their indices are always written, just as the bytes of the rows are -/
theorem indexBody_ok (hmany : s.dictionary.entries.length ≤ 2 ^ 32)
    {front rows back : List (Option ByteRange)} (hslots : s.slots = front ++ rows ++ back) :
    ∃ body, indexBody s.dictionary.bitWidth rows
        ((s.dictionary.indices.drop front.length).take rows.length) = .ok body ∧
      ∀ t, ColumnWriter.body t (some (.ofSlots s.slotBytes))
        (rows.map (·.map (ByteRange.of s.bytes))) = .ok (body, .rleDictionary) := by
  have hslice := slice_indices hmany hslots
  have hentries := (dictionary_eq s).1
  have hlen : s.dictionary.entries.length = (Dictionary.ofSlots s.slotBytes).entries.length := by
    rw [← hentries, List.length_map]
  have hwidth : s.dictionary.bitWidth = (Dictionary.ofSlots s.slotBytes).bitWidth := by
    rw [StagedDictionary.bitWidth, Dictionary.bitWidth, hlen]
  have hvalues : (((s.dictionary.indices.drop front.length).take rows.length).filterMap id).map
      UInt32.toNat = ((Dictionary.ofSlots s.slotBytes).indices
        (rows.map (·.map (ByteRange.of s.bytes)))).filterMap id := by
    rw [← hslice, List.filterMap_map, List.map_filterMap]
    rfl
  obtain ⟨levels, hlevels⟩ := exists_encodeLevels (rows.map Option.isSome)
  obtain ⟨is, his⟩ := exists_encode (bitWidth_le s.dictionary) (((Dictionary.ofSlots
      s.slotBytes).indices (rows.map (·.map (ByteRange.of s.bytes)))).filterMap id) <|
    indices_lt hmany fun slot hslot => by
      rw [slotBytes, hslots, List.map_append, List.map_append]
      exact List.mem_append_left _ (List.mem_append_right _ hslot)
  have hsome : (rows.map (·.map (ByteRange.of s.bytes))).map Option.isSome =
      rows.map Option.isSome := by simp
  refine ⟨levels ++ UInt8.ofNat s.dictionary.bitWidth :: is, ?_, fun t => ?_⟩
  · rw [indexBody, Except.bind_ok hlevels, hvalues, Except.bind_ok his]
    rfl
  · rw [ColumnWriter.body, hsome, Except.bind_ok hlevels]
    dsimp only
    rw [← hwidth, Except.bind_ok his]
    rfl

theorem encodeRanges_ends (rs : List ByteRange) : ∀ {e : Plain.Encoder} {bs : Bytes},
    Holds (fun _ => s.bytes) e bs → (∀ r ∈ rs, r.Within s.bytes) →
    ∃ e', s.encodeRanges rs e = (.ok (), e') ∧
      Holds (fun _ => s.bytes) e' (bs ++ (rs.map (ByteRange.of s.bytes)).flatten) := by
  induction rs with
  | nil =>
    intro e bs h _
    refine ⟨e, rfl, ?_⟩
    rwa [List.map_nil, List.flatten_nil, List.append_nil]
  | cons r rs ih =>
    intro e bs h hwithin
    obtain ⟨hr, hrs⟩ := List.forall_mem_cons.mp hwithin
    obtain ⟨e₁, hspan, h₁⟩ := h.span 0 hr
    obtain ⟨e₂, hspans, h₂⟩ := ih h₁ hrs
    refine ⟨e₂, ?_, ?_⟩
    · rw [encodeRanges, Step.bind_ok hspan, hspans]
    · rwa [List.map_cons, List.flatten_cons, ← List.append_assoc]

/-- the page of a dictionary has the bytes of its entries -/
theorem dictionaryBody_ok (hwithin : ∀ r, some r ∈ s.slots → r.Within s.bytes) :
    s.dictionaryBody s.dictionary =
      .ok (s.dictionary.entries.map (ByteRange.of s.bytes)).flatten := by
  have hentries : ∀ r ∈ s.dictionary.entries, r.Within s.bytes := fun r hr =>
    hwithin r ((mem_indexSlots s.slots hr).resolve_left List.not_mem_nil)
  obtain ⟨e, hrun, h⟩ := encodeRanges_ends _ (holds_new _) hentries
  rw [dictionaryBody, collect_ok hrun h]
  rfl

/-! ## columns -/

/-- The dictionary of a column that was staged, with fewer than `2 ^ 32` values of different bytes.
The slots are staged by the bytes of their values.  The entries are pairwise different, are the
bytes of the slots, and stand in the order in which these are first met; the index of a slot is
there just where its value is, and names the entry with its bytes, in the bits of an index.  All
rows with their indices can be written, and the page of the dictionary has just the bytes of its
entries.  The dictionary, the indices and the rows are those that the writer of columns has. -/
theorem dictionary_factors {spec : ColumnSpec} {vs : ColumnValues} (h : ofColumn spec vs = .ok s)
    (hmany : (s.slotBytes.filterMap id).eraseDups.length < 2 ^ 32) :
    let d := s.dictionary
    let entries := d.entries.map (ByteRange.of s.bytes)
    (vs.staged spec = .ok s.slotBytes ∧ s.slotBytes = vs.data.map (·.map Datum.plain) ∧
      Dictionary.ofSlots s.slotBytes = ⟨entries⟩ ∧
      (Dictionary.ofSlots s.slotBytes).indices s.slotBytes = d.indices.map (·.map UInt32.toNat)) ∧
    (entries.Nodup ∧ (∀ bs, bs ∈ entries ↔ some bs ∈ s.slotBytes) ∧
      (entries.map fun bs => s.slotBytes.idxOf (some bs)).Pairwise (· < ·)) ∧
    List.Forall₂ (Names entries d.bitWidth) s.slotBytes d.indices ∧
    (∀ front rows back, s.slots = front ++ rows ++ back →
      ∃ body,
        indexBody d.bitWidth rows ((d.indices.drop front.length).take rows.length) = .ok body ∧
        ∀ t, ColumnWriter.body t (some ⟨entries⟩) (rows.map (·.map (ByteRange.of s.bytes))) =
          .ok (body, .rleDictionary)) ∧
    s.dictionaryBody d = .ok entries.flatten := by
  intro d entries
  have hentries : entries = (Dictionary.ofSlots s.slotBytes).entries := (dictionary_eq s).1
  have hd : Dictionary.ofSlots s.slotBytes = ⟨entries⟩ := by rw [hentries]
  have hlen : s.dictionary.entries.length ≤ 2 ^ 32 := by
    rw [← List.length_map (ByteRange.of s.bytes), (dictionary_eq s).1]
    exact Nat.le_of_lt hmany
  obtain ⟨hok, herror⟩ := ofColumn_ends spec vs
  obtain ⟨staged, hstaged⟩ : ∃ staged, vs.staged spec = .ok staged := by
    rcases hstaged : vs.staged spec with x | staged
    · exact nomatch (herror x hstaged).symm.trans h
    · exact ⟨staged, rfl⟩
  obtain ⟨s', hs', hwithin, rfl⟩ := hok staged hstaged
  obtain rfl : s' = s := Except.ok.inj (hs'.symm.trans h)
  refine ⟨⟨hstaged, (ColumnValues.staged_ok hstaged).1, hd, (dictionary_indices hlen).symm⟩,
    ⟨?_, fun bs => ?_, ?_⟩, dictionary_names hlen, fun front rows back hslots => ?_,
    dictionaryBody_ok hwithin⟩
  · rw [hentries]
    exact Dictionary.nodup_entries _
  · rw [hentries]
    exact Dictionary.mem_entries
  · rw [hentries]
    exact Dictionary.pairwise_entries _
  · rw [← hd]
    exact indexBody_ok hlen hslots

/-- an empty slot and an empty byte array, and one value that stands twice: three entries, and
indices of two bits -/
theorem dictionary_factors_repeated :
    let vs : ColumnValues := .byteArray [some [97], none, some [], some [97], some [98]]
    let s : Staging := ⟨[1, 0, 0, 0, 97, 0, 0, 0, 0, 1, 0, 0, 0, 97, 1, 0, 0, 0, 98],
      [some ⟨0, 5⟩, none, some ⟨5, 9⟩, some ⟨9, 14⟩, some ⟨14, 19⟩]⟩
    ofColumn ⟨"s", .byteArray, none⟩ vs = .ok s ∧
      (s.slotBytes.filterMap id).eraseDups.length < 2 ^ 32 ∧
      s.dictionary = ⟨[⟨0, 5⟩, ⟨5, 9⟩, ⟨14, 19⟩], [some 0, none, some 1, some 0, some 2]⟩ ∧
      s.dictionary.bitWidth = 2 ∧
      s.dictionaryBody s.dictionary = .ok [1, 0, 0, 0, 97, 0, 0, 0, 0, 1, 0, 0, 0, 98] ∧
      ∃ body, indexBody 2 [none, some ⟨5, 9⟩, some ⟨9, 14⟩] [none, some 1, some 0] = .ok body := by
  intro vs s
  have hstaged : ofColumn ⟨"s", .byteArray, none⟩ vs = .ok s := by decide +kernel +zetaReduce
  have hmany : (s.slotBytes.filterMap id).eraseDups.length < 2 ^ 32 := by
    decide +kernel +zetaReduce
  have hdictionary : s.dictionary =
      ⟨[⟨0, 5⟩, ⟨5, 9⟩, ⟨14, 19⟩], [some 0, none, some 1, some 0, some 2]⟩ := by
    decide +kernel +zetaReduce
  have hwidth : s.dictionary.bitWidth = 2 := by decide +kernel +zetaReduce
  obtain ⟨-, -, -, hrows, hbody⟩ := dictionary_factors hstaged hmany
  obtain ⟨body, hindices, -⟩ := hrows [some ⟨0, 5⟩] [none, some ⟨5, 9⟩, some ⟨9, 14⟩]
    [some ⟨14, 19⟩] rfl
  rw [hwidth, hdictionary] at hindices
  refine ⟨hstaged, hmany, hdictionary, hwidth, ?_, body, hindices⟩
  rw [hbody, hdictionary]
  rfl

end Staging

end Columnar
