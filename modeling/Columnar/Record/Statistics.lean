import Columnar.Record.Format

/-!
# Key-value pairs and statistics

Two small records that others carry along: a pair of texts, and what a writer noted about the
values of a page or a chunk.  Statistics are not interpreted; every field of theirs may be
missing, so a draft is a record already.
-/

namespace Columnar

structure KeyValue where
  key : String
  value : Option String
deriving DecidableEq

structure KeyValue.Draft where
  key : Option String := none
  value : Option String := none

def KeyValue.format : Format KeyValue where
  kind := .keyValue
  Draft := KeyValue.Draft
  blank := {}
  fields := [
    { id := 1, codec := .string, get := (·.key), set := fun d x => { d with key := some x } },
    { id := 2, codec := .string, get := (·.value), set := fun d x => { d with value := some x } }]
  finish d := do
    let key ← require .keyValue "key" d.key
    pure { key, value := d.value }
  draft r := { key := some r.key, value := r.value }

structure Statistics where
  max : Option Bytes := none
  min : Option Bytes := none
  nullCount : Option Int64 := none
  distinctCount : Option Int64 := none
  maxValue : Option Bytes := none
  minValue : Option Bytes := none
deriving DecidableEq

def Statistics.format : Format Statistics where
  kind := .statistics
  Draft := Statistics
  blank := {}
  fields := [
    { id := 1, codec := .binary, get := (·.max), set := fun d x => { d with max := some x } },
    { id := 2, codec := .binary, get := (·.min), set := fun d x => { d with min := some x } },
    { id := 3, codec := .i64, get := (·.nullCount),
      set := fun d x => { d with nullCount := some x } },
    { id := 4, codec := .i64, get := (·.distinctCount),
      set := fun d x => { d with distinctCount := some x } },
    { id := 5, codec := .binary, get := (·.maxValue),
      set := fun d x => { d with maxValue := some x } },
    { id := 6, codec := .binary, get := (·.minValue),
      set := fun d x => { d with minValue := some x } }]
  finish d := pure d
  draft r := r

end Columnar
