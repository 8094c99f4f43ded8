import Columnar.Record.Format

/-!
# Schema elements

A schema is a tree written depth first; the first element is its root.  An element without a
physical type is a group.  The trees read here have leaves only below the root.
-/

namespace Columnar

structure SchemaElement where
  physicalType : Option PhysicalType := none
  typeLength : Option Int32 := none
  repetition : Option Repetition := none
  name : String
  numChildren : Option Int32 := none
  convertedType : Option Int32 := none
  scale : Option Int32 := none
  precision : Option Int32 := none
  fieldId : Option Int32 := none
deriving DecidableEq

namespace SchemaElement

structure Draft where
  physicalType : Option PhysicalType := none
  typeLength : Option Int32 := none
  repetition : Option Repetition := none
  name : Option String := none
  numChildren : Option Int32 := none
  convertedType : Option Int32 := none
  scale : Option Int32 := none
  precision : Option Int32 := none
  fieldId : Option Int32 := none

def format : Format SchemaElement where
  kind := .schemaElement
  Draft := Draft
  blank := {}
  fields := [
    { id := 1, codec := .code PhysicalType, get := (·.physicalType),
      set := fun d x => { d with physicalType := some x } },
    { id := 2, codec := .i32, get := (·.typeLength),
      set := fun d x => { d with typeLength := some x } },
    { id := 3, codec := .code Repetition, get := (·.repetition),
      set := fun d x => { d with repetition := some x } },
    { id := 4, codec := .string, get := (·.name), set := fun d x => { d with name := some x } },
    { id := 5, codec := .i32, get := (·.numChildren),
      set := fun d x => { d with numChildren := some x } },
    { id := 6, codec := .i32, get := (·.convertedType),
      set := fun d x => { d with convertedType := some x } },
    { id := 7, codec := .i32, get := (·.scale), set := fun d x => { d with scale := some x } },
    { id := 8, codec := .i32, get := (·.precision),
      set := fun d x => { d with precision := some x } },
    { id := 9, codec := .i32, get := (·.fieldId),
      set := fun d x => { d with fieldId := some x } }]
  finish d := do
    let name ← require .schemaElement "name" d.name
    pure { d with name }
  draft r := { r with name := some r.name }

/-- a leaf that may be empty -/
def optional (name : String) (t : PhysicalType) : SchemaElement :=
  { name, physicalType := some t, repetition := some .optional }

/-- the root of a schema -/
def root (name : String) (numChildren : Int32) : SchemaElement :=
  { name, numChildren := some numChildren }

end SchemaElement

end Columnar
