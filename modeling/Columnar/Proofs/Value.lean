import Columnar.Proofs.Plain.Layout

/-!
# What values answer

* `Value.Gives v d`        the reader for the type of `d` finds `d` in `v`;
* `Value.Of t length v`    `v` is a value of a column of type `t`, and takes just the bytes that a
                           value of that column takes.

`Value.gives_iff` says that the readers of one type and `Value.datum` agree, and `Value.Of.gives`
that neither of them is misused on a value of a column.
-/

namespace Columnar

theorem Except.map_eq_ok {ε α β : Type} {f : α → β} {x : Except ε α} {b : β} :
    f <$> x = .ok b ↔ ∃ a, x = .ok a ∧ f a = b := by
  cases x <;> simp [Functor.map, Except.map]

namespace Value

variable {t : PhysicalType} {length : Option Nat} {v : Value} {d : Datum}

/-- the reader for the type of a datum finds it in a value of that type -/
def Gives (v : Value) : Datum → Prop
  | .boolean b => v.asBool = .ok b
  | .int32 n => v.asInt32 = .ok n
  | .int64 n => v.asInt64 = .ok n
  | .float bits => v.asFloat = .ok bits
  | .double bits => v.asDouble = .ok bits
  | .byteArray bs => v.physicalType = .byteArray ∧ v.asBytes = .ok bs
  | .fixedLenByteArray bs => v.physicalType = .fixedLenByteArray ∧ v.asBytes = .ok bs

/-- the reader of one type finds what the reader of all types does -/
theorem gives_iff : v.Gives d ↔ v.datum = .ok d := by
  cases v <;> cases d <;>
    simp [Gives, datum, Except.map_eq_ok, asBool, asInt32, asInt64, asFloat, asDouble, asBytes,
      physicalType]

/-- the bytes of a value are as many as a value of its type takes, and those of a byte array say how
many follow them -/
def Sized (length : Option Nat) : Value → Prop
  | boolean _ => True
  | int32 bs | float bs => bs.length = 4
  | int64 bs | double bs => bs.length = 8
  | byteArray bs => ∃ payload : Bytes,
      bs = toLE 4 payload.length ++ payload ∧ payload.length < 2 ^ 32
  | fixedLenByteArray bs => length = some bs.length

/-- a value of a column of type `t`, whose values have a fixed length if it has one -/
structure Of (t : PhysicalType) (length : Option Nat) (v : Value) : Prop where
  type : v.physicalType = t
  sized : v.Sized length

theorem number_ok {width : Nat} {bs : Bytes} (h : bs.length = width) :
    number width bs = .ok (fromLE bs) := if_pos h

/-- no reader is misused on a value of a column -/
theorem Of.gives (h : v.Of t length) : ∃ d, v.Gives d ∧ v.datum = .ok d ∧ d.type = t := by
  obtain ⟨rfl, hsized⟩ := h
  suffices ∃ d, v.datum = .ok d ∧ d.type = v.physicalType by
    obtain ⟨d, hd, ht⟩ := this
    exact ⟨d, gives_iff.mpr hd, hd, ht⟩
  cases v with
  | boolean b => exact ⟨.boolean b, rfl, rfl⟩
  | int32 bs =>
    refine ⟨.int32 (Int32.ofNat (fromLE bs)), ?_, rfl⟩
    rw [datum, asInt32, number_ok hsized]
    rfl
  | int64 bs =>
    refine ⟨.int64 (Int64.ofNat (fromLE bs)), ?_, rfl⟩
    rw [datum, asInt64, number_ok hsized]
    rfl
  | float bs =>
    refine ⟨.float (UInt32.ofNat (fromLE bs)), ?_, rfl⟩
    rw [datum, asFloat, number_ok hsized]
    rfl
  | double bs =>
    refine ⟨.double (UInt64.ofNat (fromLE bs)), ?_, rfl⟩
    rw [datum, asDouble, number_ok hsized]
    rfl
  | byteArray bs =>
    obtain ⟨payload, rfl, -⟩ := hsized
    refine ⟨.byteArray payload, ?_, rfl⟩
    have hlen : 4 ≤ (toLE 4 payload.length ++ payload).length := by simp
    rw [datum, asBytes, Value.payload, if_pos hlen, List.drop_left' (toLE_length 4 _)]
    rfl
  | fixedLenByteArray bs => exact ⟨.fixedLenByteArray bs, rfl, rfl⟩

end Value

end Columnar
