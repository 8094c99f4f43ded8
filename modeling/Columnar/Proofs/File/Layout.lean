import Columnar.Proofs.Column.Delta

/-!
# Where the chunks of a file lie

Row groups stand one behind the other, and so do the chunks of a row group.

* `LaysOut write start i as ws`   the parts `as` are written from `start` on, the first of them as
                                  number `i`;
* `LaysOut.getElem?`              each part lies where it was written for;
* `FileWriter.chunk_lies`         and so does each chunk of a file.
-/

namespace Columnar

/-- parts are written one behind the other, each with its place and its number -/
inductive LaysOut {α β : Type} (write : Nat → Nat → α → Except Error (Written β)) :
    Nat → Nat → List α → Written (List β) → Prop where
  | nil (start i : Nat) : LaysOut write start i [] ⟨[], []⟩
  | cons {start i : Nat} {a : α} {as : List α} {w : Written β} {ws : Written (List β)}
      (h : write start i a = .ok w) (hrest : LaysOut write (start + w.bytes.length) (i + 1) as ws) :
      LaysOut write start i (a :: as) ⟨w.bytes ++ ws.bytes, w.record :: ws.record⟩

namespace LaysOut

variable {α β : Type} {write : Nat → Nat → α → Except Error (Written β)} {start i : Nat}
  {as : List α} {ws : Written (List β)}

theorem length (h : LaysOut write start i as ws) : ws.record.length = as.length := by
  induction h with
  | nil => rfl
  | cons _ _ ih => rw [List.length_cons, List.length_cons, ih]

/-- a part lies behind those in front of it -/
theorem getElem? (h : LaysOut write start i as ws) : ∀ {k : Nat} {a : α}, as[k]? = some a →
    ∃ front w behind, ws.bytes = front ++ w.bytes ++ behind ∧ ws.record[k]? = some w.record ∧
      write (start + front.length) (i + k) a = .ok w := by
  induction h with
  | nil => exact fun h => nomatch h
  | @cons start i b as w ws h hrest ih =>
    intro k a hk
    cases k with
    | zero =>
      cases hk
      exact ⟨[], w, ws.bytes, rfl, rfl, h⟩
    | succ k =>
      obtain ⟨front, w', behind, hbytes, hrecord, hwrite⟩ := ih hk
      refine ⟨w.bytes ++ front, w', behind, ?_, hrecord, ?_⟩
      · show w.bytes ++ ws.bytes = _
        rw [hbytes]
        simp only [List.append_assoc]
      · rw [List.length_append, ← Nat.add_assoc, ← Nat.add_assoc, Nat.add_right_comm i k 1]
        exact hwrite

/-- a record belongs to a part, which lies behind those in front of it -/
theorem part (h : LaysOut write start i as ws) {k : Nat} {r : β} (hk : ws.record[k]? = some r) :
    ∃ a front w behind, as[k]? = some a ∧ ws.bytes = front ++ w.bytes ++ behind ∧ w.record = r ∧
      write (start + front.length) (i + k) a = .ok w := by
  have hlt : k < as.length := h.length ▸ (List.getElem?_eq_some_iff.mp hk).1
  have ha := List.getElem?_eq_getElem hlt
  obtain ⟨front, w, behind, hbytes, hrecord, hw⟩ := h.getElem? ha
  exact ⟨_, front, w, behind, ha, hbytes, Option.some.inj (hrecord.symm.trans hk), hw⟩

/-- each record belongs to a part -/
theorem exists_of_mem (h : LaysOut write start i as ws) : ∀ r ∈ ws.record,
    ∃ a ∈ as, ∃ start i w, write start i a = .ok w ∧ w.record = r := by
  intro r hr
  obtain ⟨k, hk⟩ := List.getElem?_of_mem hr
  obtain ⟨a, front, w, _, ha, -, hrecord, hw⟩ := h.part hk
  exact ⟨a, List.mem_of_getElem? ha, _, _, w, hw, hrecord⟩

end LaysOut

namespace FileWriter

variable {w : FileWriter}

theorem groups_laysOut (gs : List (List ColumnValues)) : ∀ {start ordinal : Nat}
    {ws : Written (List RowGroup)}, w.groups start ordinal gs = .ok ws →
    LaysOut w.rowGroup start ordinal gs ws := by
  induction gs with
  | nil =>
    intro start ordinal ws h
    cases h
    exact .nil start ordinal
  | cons columns gs ih =>
    intro start ordinal ws h
    obtain ⟨g, hg, h₁⟩ := Except.bind_eq_ok.mp h
    obtain ⟨rest, hrest, h₂⟩ := Except.bind_eq_ok.mp h₁
    cases h₂
    refine .cons ?_ (ih hrest)
    cases hgroup : w.rowGroup start ordinal columns with
    | error e =>
      rw [hgroup] at hg
      cases hg
    | ok g' =>
      rw [hgroup] at hg
      cases hg
      rfl

/-- the chunk of the column with the number `i` -/
def chunkAt (w : FileWriter) (rows start i : Nat) (column : ColumnSpec × ColumnValues) :
    Except Error (Written ColumnChunk) :=
  w.chunk rows start (decide (i < w.columns.length)) column.1 column.2

theorem chunks_laysOut {rows : Nat} (columns : List (ColumnSpec × ColumnValues)) :
    ∀ {start i : Nat} {ws : Written (List ColumnChunk)},
    w.chunks rows start (w.columns.length - i) columns = .ok ws →
    LaysOut (w.chunkAt rows) start i columns ws := by
  induction columns with
  | nil =>
    intro start i ws h
    cases h
    exact .nil start i
  | cons column columns ih =>
    intro start i ws h
    obtain ⟨c, hc, h₁⟩ := Except.bind_eq_ok.mp h
    obtain ⟨rest, hrest, h₂⟩ := Except.bind_eq_ok.mp h₁
    cases h₂
    have hregular : decide (0 < w.columns.length - i) = decide (i < w.columns.length) :=
      decide_eq_decide.mpr Nat.sub_pos_iff_lt
    rw [hregular] at hc
    rw [Nat.sub_sub] at hrest
    exact .cons hc (ih hrest)

/-- a row group has a chunk for each column -/
theorem rowGroup_ok {start ordinal : Nat} {columns : List ColumnValues} {g : Written RowGroup}
    (h : w.rowGroup start ordinal columns = .ok g) : columns.length = w.specs.length ∧
      ∃ rows, LaysOut (w.chunkAt rows) start 0 (w.specs.zip columns)
        ⟨g.bytes, g.record.columns⟩ := by
  rw [rowGroup] at h
  split at h
  · cases h
  · rename_i hlen
    obtain ⟨cs, hcs, h₁⟩ := Except.bind_eq_ok.mp h
    cases h₁
    exact ⟨Decidable.not_not.mp hlen, _, chunks_laysOut _ hcs⟩

/-! ## chunks -/

section
variable {rows start : Nat} {spec : ColumnSpec} {values : ColumnValues} {c : Written ColumnChunk}

theorem regularChunk_ok (h : w.regularChunk rows start spec values = .ok c) :
    values.size = rows ∧ w.columnWriter.chunk start spec values = .ok c := by
  rw [regularChunk] at h
  split at h
  · cases h
  · rename_i hsize
    exact ⟨Decidable.not_not.mp hsize, h⟩

/-- a chunk of a regular column, or of a delta column -/
theorem chunk_ok {regular : Bool} (h : w.chunk rows start regular spec values = .ok c) :
    values.type = spec.type ∧
      (w.regularChunk rows start spec values = .ok c ∧
          (regular = false → spec.type ≠ .byteArray) ∨
        ∃ slots, values = .byteArray slots ∧ regular = false ∧
          DeltaWriter.chunk start spec slots = .ok c) := by
  rw [chunk.eq_def] at h
  split at h
  · cases h
  · rename_i htype
    have htype := Decidable.not_not.mp htype
    refine ⟨htype, ?_⟩
    split at h
    · exact Or.inr ⟨_, rfl, rfl, h⟩
    · rename_i hnot
      refine Or.inl ⟨h, fun hregular hbytes => ?_⟩
      rw [← htype] at hbytes
      match values, hbytes with
      | .byteArray slots, _ => exact hnot slots hregular rfl

/-- the record of a chunk describes it, and is within the limits when the name of the column
is -/
theorem chunk_record {regular : Bool} (h : w.chunk rows start regular spec values = .ok c) :
    ∃ m numValues dictionary, c.record = ⟨none, 0, some m⟩ ∧
      m.Describes spec numValues start c.bytes.length dictionary ∧
      ∀ o, TextFits o spec.name → m.Within o := by
  obtain ⟨htype, ⟨hregular, -⟩ | ⟨slots, rfl, -, hdelta⟩⟩ := chunk_ok h
  · obtain ⟨_, _, _, m, -, -, -, -, hrecord, hm, -, -, hwithin⟩ :=
      ColumnWriter.chunk_spec (regularChunk_ok hregular).2
    exact ⟨m, _, _, hrecord, hm, hwithin⟩
  · obtain ⟨m, hrecord, hm, hwithin⟩ := DeltaWriter.chunk_record htype.symm hdelta
    exact ⟨m, _, _, hrecord, hm, hwithin⟩

end

/-- a chunk lies in the row groups where it was written for -/
theorem chunk_lies {start k j : Nat} {gs : Written (List RowGroup)} {columns : List ColumnValues}
    {spec : ColumnSpec} {values : ColumnValues} (h : w.groups start 0 w.rowGroups = .ok gs)
    (hk : w.rowGroups[k]? = some columns) (hspec : w.specs[j]? = some spec)
    (hvalues : columns[j]? = some values) :
    ∃ g c rows front behind, gs.record[k]? = some g ∧ g.columns[j]? = some c.record ∧
      gs.bytes = front ++ c.bytes ++ behind ∧
      w.chunk rows (start + front.length) (decide (j < w.columns.length)) spec values = .ok c := by
  obtain ⟨front, g, behind, hbytes, hrecord, hg⟩ := (groups_laysOut _ h).getElem? hk
  obtain ⟨-, rows, hlays⟩ := rowGroup_ok hg
  have hj : (w.specs.zip columns)[j]? = some (spec, values) :=
    List.getElem?_zip_eq_some.mpr ⟨hspec, hvalues⟩
  obtain ⟨front', c, behind', hbytes', hrecord', hc⟩ := hlays.getElem? hj
  refine ⟨g.record, c, rows, front ++ front', behind' ++ behind, hrecord, hrecord', ?_, ?_⟩
  · replace hbytes' : g.bytes = _ := hbytes'
    rw [hbytes, hbytes']
    simp only [List.append_assoc]
  · rw [List.length_append, ← Nat.add_assoc]
    rw [Nat.zero_add] at hc
    exact hc

end FileWriter

end Columnar
