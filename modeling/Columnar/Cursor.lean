import Columnar.Step

/-!
# Cursors

A cursor stands between the bytes of a buffer that were read and those that were not.

* `view n`   the next `n` bytes, or a failure that does not move the cursor;
* `byte`     the next byte;
* `upTo n`   at most `n` bytes, as many as there are;
* `seek`     a new place in the same buffer.

`Cursor.view_append` is the equation that round trips use: a cursor in front of `bs ++ rest`
reads `bs` and stands in front of `rest`.
-/

namespace Columnar

/-- a place in a buffer: the bytes before it, the nearest first, and the bytes behind it -/
structure Cursor where
  before : Bytes
  rest : Bytes
deriving DecidableEq

namespace Cursor

def ofBytes (bs : Bytes) : Cursor := ⟨[], bs⟩

/-- the whole buffer -/
def data (c : Cursor) : Bytes := c.before.reverse ++ c.rest

def size (c : Cursor) : Nat := c.before.length + c.rest.length

def pos (c : Cursor) : Nat := c.before.length

def remaining (c : Cursor) : Nat := c.rest.length

/-- the next `n` bytes; a failure leaves the cursor where it is -/
def view (n : Nat) : Step Cursor Error Bytes := fun c =>
  match splitFirst? n c.rest with
  | some (front, rest) => (.ok front, ⟨front.reverse ++ c.before, rest⟩)
  | none => (.error (Fault.readPastEnd n c.pos c.size), c)

/-- the next byte -/
def byte : Step Cursor Error UInt8 := fun c =>
  match c.rest with
  | b :: rest => (.ok b, ⟨b :: c.before, rest⟩)
  | [] => (.error (Fault.readPastEnd 1 c.pos c.size), c)

def skip (n : Nat) : Step Cursor Error Unit := do
  let _ ← view n

/-- at most `n` bytes: fewer only where the buffer ends -/
def upTo (n : Nat) : Step Cursor Error Bytes := fun c =>
  (.ok (c.rest.take n), ⟨(c.rest.take n).reverse ++ c.before, c.rest.drop n⟩)

/-- a place in the same buffer, counted from its start -/
def seek (offset : Nat) : Step Cursor Error Unit := fun c =>
  if offset ≤ c.size then
    (.ok (), ⟨(c.data.take offset).reverse, c.data.drop offset⟩)
  else (.error (Fault.seekPastEnd offset c.size), c)

/-! ## equations -/

@[simp] theorem data_length (c : Cursor) : c.data.length = c.size := by
  simp [data, size]

@[simp] theorem pos_add_remaining (c : Cursor) : c.pos + c.remaining = c.size := rfl

theorem view_append (before bs rest : Bytes) :
    view bs.length ⟨before, bs ++ rest⟩ = (.ok bs, ⟨bs.reverse ++ before, rest⟩) := by
  simp [view, splitFirst?_eq]

theorem view_eq (n : Nat) (c : Cursor) :
    view n c = if n ≤ c.rest.length then
      (.ok (c.rest.take n), ⟨(c.rest.take n).reverse ++ c.before, c.rest.drop n⟩)
    else (.error (Fault.readPastEnd n c.pos c.size), c) := by
  unfold view
  rw [splitFirst?_eq]
  by_cases h : n ≤ c.rest.length <;> simp [h]

/-- reading keeps the buffer -/
theorem view_data (n : Nat) (c : Cursor) : (view n c).2.data = c.data := by
  rw [view_eq]
  split
  · simp [data, List.append_assoc]
  · rfl

end Cursor

end Columnar
