import Columnar.Page
import Columnar.Proofs.Checked.Compact
import Columnar.Proofs.Record.Built

/-!
# Reading records and pages with every operation checked

A record is read by the checked readers of its payloads, which its shape tells.  Structs are opened
and closed wherever records stand in records, and are never more than there is room for: a whole
record is read with no check failing, and so is the header of a page.

* `Codec.Shape.checked`, `Fields.Shape.checked`   the checked readers of a payload and of a field;
* `Codec.Shape.checks`                            they read alike, among structs that are not too
                                                  many, and leave no more of them;
* `Format.Checked.decode_eq`                      a record at the front of a byte string;
* `DataPage.Checked.read_eq`, `DictionaryPage.Checked.read_eq`   pages.
-/

namespace Columnar

open Columnar.Compact Step

variable {α D R : Type} {F : Format R}

/-- one field of a struct: into the draft when the table has it, else skipped -/
def Fields.readField (fs : List (Field D)) (d : D) (t : WireType) (id : Int16) : Read D :=
  match fs.find? fun f => f.id == id && f.codec.type == t with
  | some f => do
    let x ← f.codec.read
    pure (f.set d x)
  | none => do
    Read.skip t
    pure d

theorem Fields.readField_cons (f : Field D) (fs : List (Field D)) (d : D) (t : WireType)
    (id : Int16) : readField (f :: fs) d t id =
      if f.id == id && f.codec.type == t then do
        let x ← f.codec.read
        pure (f.set d x)
      else readField fs d t id := by
  rw [readField, List.find?_cons]
  cases f.id == id && f.codec.type == t with
  | true => rfl
  | false => rfl

theorem Format.readField_eq : F.readField = Fields.readField F.fields := by
  funext d t id
  unfold Format.readField Fields.readField
  rcases F.fields.find? _ with _ | f
  · rfl
  · rfl

/-! ## the checked readers -/

/-- a record, each of its fields by `f` -/
def Format.readBy (F : Format R) (f : F.Draft → WireType → Int16 → Read F.Draft) : Read R := do
  let d ← Read.Checked.foldStruct f F.blank
  let r ← F.finish d
  pure r

mutual

/-- a payload, every operation checked -/
def Codec.Shape.checked : {α : Type} → {c : Codec α} → c.Shape → Read α
  | _, _, .bool => Read.bool
  | _, _, .i16 => Read.Checked.i16
  | _, _, .i32 => Read.Checked.i32
  | _, _, .i64 => Read.Checked.i64
  | _, _, .binary => Read.Checked.binary
  | _, _, .string => Read.Checked.string
  | _, _, @Codec.Shape.code α _ => do
    let c ← Read.Checked.i32
    let x ← decodeCode α c
    pure x
  | _, _, @Codec.Shape.codes α _ => do
    let (_, n) ← Read.Checked.listBegin
    Read.reserve n Codec.codeRoom
    let cs ← Step.times n Read.Checked.i32
    let xs ← (cs.mapM (decodeCode α) : Except Error (List α))
    pure xs
  | _, _, .strings => do
    let (_, n) ← Read.Checked.listBegin
    Read.reserve n Codec.textRoom
    Step.times n Read.Checked.string
  | _, _, @Codec.Shape.record _ F fields => F.readBy fields.checked
  | _, _, @Codec.Shape.records _ F fields => do
    let (t, n) ← Read.Checked.listBegin
    if t = .struct then
      Read.reserve n F.kind.room
      Step.times n (F.readBy fields.checked)
    else
      Step.fail (Fault.notAListOf F.kind t)

/-- one field of a struct, every operation checked -/
def Fields.Shape.checked : {D : Type} → {fs : List (Field D)} → Fields.Shape fs →
    D → WireType → Int16 → Read D
  | _, _, .nil, d, t, _ => do
    Read.Checked.skip t
    pure d
  | _, _, @Fields.Shape.cons _ f _ head tail, d, t, id =>
    if f.id == id && f.codec.type == t then do
      let x ← head.checked
      pure (f.set d x)
    else
      tail.checked d t id

end

/-! ## whole records -/

section

open Read

/-- a record is read as its fields are -/
theorem Format.checks_readBy {f : F.Draft → WireType → Int16 → Read F.Draft}
    (h : ∀ d t id, Checks (f d t id) (Fields.readField F.fields d t id)) :
    Checks (F.readBy f) F.read := by
  rw [Format.readBy, Format.read, Format.readField_eq]
  exact checks_bind (checks_foldStruct h F.blank) fun d => checks_lift (F.finish d)

mutual

/-- a payload is read with no check failing, among structs that are not too many, and they are no
more behind it -/
theorem Codec.Shape.checks : ∀ {α : Type} {c : Codec α} (s : c.Shape), Checks s.checked c.read
  | _, _, .bool => checks_bool
  | _, _, .i16 => checks_i16
  | _, _, .i32 => checks_i32
  | _, _, .i64 => checks_i64
  | _, _, .binary => checks_binary
  | _, _, .string => checks_string
  | _, _, @Codec.Shape.code α _ => checks_bind checks_i32 fun c => checks_lift (decodeCode α c)
  | _, _, @Codec.Shape.codes α _ => by
    rw [Codec.Shape.checked]
    refine checks_bind checks_listBegin fun p => checks_bind (checks_reserve _ _) fun _ => ?_
    refine checks_bind (checks_times checks_i32 p.2) fun cs => ?_
    exact checks_lift (cs.mapM (decodeCode α))
  | _, _, .strings => by
    rw [Codec.Shape.checked]
    refine checks_bind checks_listBegin fun p => checks_bind (checks_reserve _ _) fun _ => ?_
    exact checks_times checks_string p.2
  | _, _, @Codec.Shape.record _ F fields => Format.checks_readBy fields.checks
  | _, _, @Codec.Shape.records _ F fields => by
    rw [Codec.Shape.checked]
    refine checks_bind checks_listBegin fun p => ?_
    dsimp only
    split
    · refine checks_bind (checks_reserve _ _) fun _ => ?_
      exact checks_times (Format.checks_readBy fields.checks) p.2
    · exact checks_fail _

/-- and so is a field, which is the first of the table with its number and type, or is skipped -/
theorem Fields.Shape.checks : ∀ {D : Type} {fs : List (Field D)} (s : Fields.Shape fs) (d : D)
    (t : WireType) (id : Int16), Checks (s.checked d t id) (Fields.readField fs d t id)
  | _, _, .nil, d, t, _ => checks_bind (checks_skip t) fun _ => checks_pure d
  | _, _, @Fields.Shape.cons _ f _ head tail, d, t, id => by
    rw [Fields.readField_cons, Fields.Shape.checked]
    split
    · exact checks_bind head.checks fun x => checks_pure _
    · exact tail.checks d t id

end

end

namespace Format.Checked

/-- the record at the front of a byte string, and how many bytes it takes -/
def decode (F : Format R) (s : Fields.Shape F.fields) (o : Options) (bs : Bytes) :
    Except Failure (R × Nat) :=
  match (Codec.Shape.record s).checked (.ofCursor (.ofBytes bs) o) with
  | (.ok r, s) => .ok (r, s.cursor.pos)
  | (.error e, _) => .error (e.within (.decodingRecord F.kind))

/-- no struct is open in front of a record, so it is read with no check failing -/
theorem decode_eq (s : Fields.Shape F.fields) (o : Options) (bs : Bytes) :
    decode F s o bs = F.decode o bs := by
  have hsame : (Codec.Shape.record s).checked (.ofCursor (.ofBytes bs) o) =
      F.read (.ofCursor (.ofBytes bs) o) := (Codec.Shape.record s).checks.same _ (Nat.zero_le _)
  rcases hread : F.read (.ofCursor (.ofBytes bs) o) with ⟨e | r, t⟩
  · rw [decode, Format.decode, hsame, hread]
  · rw [decode, Format.decode, hsame, hread]

end Format.Checked

/-! ## pages -/

namespace PageHeader.Checked

/-- the page header at the cursor, which has to stand in its data -/
def read (o : Options) : Step Cursor Failure PageHeader := do
  let c ← Step.state
  let rest ← slice c.data c.pos c.data.length
  let (header, len) ← Format.Checked.decode PageHeader.format PageHeader.shape o rest
  Cursor.skip len
  pure header

theorem read_eq (o : Options) : read o = PageHeader.read o := by
  funext c
  have hpos : c.pos = c.before.reverse.length := List.length_reverse.symm
  have hrest : slice c.data c.pos c.data.length = .ok c.rest := by
    rw [slice_rest (by rw [hpos, Cursor.data, List.length_append]; omega), hpos, Cursor.data,
      List.drop_left]
  rw [read, PageHeader.read, state_bind, bind_ok (look_apply _ _)]
  refine (bind_ok (ofExcept_ok hrest c) _).trans ?_
  rw [Format.Checked.decode_eq]

end PageHeader.Checked

namespace DataPage.Checked

def read (o : Options) : Step Cursor Failure DataPage := do
  let header ← PageHeader.Checked.read o
  let size ← header.bodySize
  let d ← DataPage.check header
  let body ← Cursor.view size
  pure ⟨d.numValues.toInt.toNat, d.encoding, body⟩

theorem read_eq (o : Options) : read o = DataPage.read o := by
  rw [read, DataPage.read, PageHeader.Checked.read_eq]

end DataPage.Checked

namespace DictionaryPage.Checked

def read (o : Options) : Step Cursor Failure DictionaryPage := do
  let header ← PageHeader.Checked.read o
  let size ← header.bodySize
  let d ← DictionaryPage.check header
  let body ← Cursor.view size
  pure ⟨d.numValues.toInt.toNat, body⟩

theorem read_eq (o : Options) : read o = DictionaryPage.read o := by
  rw [read, DictionaryPage.read, PageHeader.Checked.read_eq]

end DictionaryPage.Checked

end Columnar
