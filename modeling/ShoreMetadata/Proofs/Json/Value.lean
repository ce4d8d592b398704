import ShoreMetadata.Entity.Json
import ShoreMetadata.Proofs.Calendar.Rfc3339
import ShoreMetadata.Proofs.Json.Number
import ShoreMetadata.Proofs.Json.RoundTrip
import ShoreMetadata.Proofs.Number.Integer

/-! Values of fields are read back from their JSON form. -/

namespace ShoreMetadata

open Number (Binary Single)

/-- The shortest digits of a number of single precision give it back after they have been read in
double precision. -/
def Number.Binary.DigitsReadBack : Single → Prop
  | .nan => False
  | .number negative rank bounded =>
    (Binary.ofDecimal negative (Number.Format.binary32.shortest .toEven rank) :
      Number.Double).convert = (.number negative rank bounded : Single)

instance : (x : Single) → Decidable x.DigitsReadBack
  | .nan => inferInstanceAs (Decidable False)
  | .number .. => inferInstanceAs (Decidable (_ = _))

namespace Json

variable (range : PositionalRange) {F : Number.Format} {x : Binary F}

private theorem ofBinary_finite (finite : x.isFinite = true) :
    ∃ negative rank, ∃ bounded : rank ≤ F.infinity,
      x = .number negative rank bounded ∧ rank < F.infinity ∧
        ofBinary range x =
          .number (numberOfDecimal range negative (F.shortest .toEven rank)) := by
  cases x with
  | nan => cases finite
  | number negative rank bounded =>
      have small : rank < F.infinity := of_decide_eq_true finite
      exact ⟨negative, rank, bounded, rfl, small, if_pos small⟩

private theorem ofBinary_wellFormed (x : Binary F) : (ofBinary range x).WellFormed := by
  cases x with
  | nan => exact .null
  | number negative rank bounded =>
      rw [ofBinary]
      split
      · exact .number (numberOfDecimal_wellFormed range negative _)
      · exact .null

private theorem double?_ofBinary {x : Number.Double} (finite : x.isFinite = true) :
    (ofBinary range x).double? = some x := by
  obtain ⟨negative, rank, bounded, rfl, small, written⟩ := ofBinary_finite range finite
  rw [written, double?, binary_shortest range negative .toEven small bounded]

/-- No number is written as a whole one, so that it is read in double precision first. -/
theorem single?_ofBinary {x : Single} (finite : x.isFinite = true) (digits : x.DigitsReadBack) :
    (ofBinary range x).single? = some x := by
  obtain ⟨negative, rank, bounded, rfl, small, written⟩ := ofBinary_finite range finite
  rw [written, single?, isWord_numberOfDecimal, if_neg Bool.false_ne_true,
    binary_numberOfDecimal range negative _
      (Number.Format.binary32.shortest_expandable .toEven rank)]
  exact congrArg some digits

theorem int64?_ofInt (n : Int64) : (ofInt n.toInt).int64? = some n := by
  rw [ofInt, int64?, integer?_ofInt, Option.bind_some, Number.int64OfInt?_toInt]

private theorem int32?_ofInt (n : Int32) : (ofInt n.toInt).int32? = some n := by
  rw [ofInt, int32?, integer?_ofInt, Option.bind_some, Number.int32OfInt?_toInt]

private theorem byte?_ofNat (b : UInt8) : (ofNat b.toNat).byte? = some b := by
  have small := b.toNat_lt
  rw [ofNat, ofInt, byte?, integer?_ofInt, Option.bind_some, if_pos (by omega), Int.toNat_natCast,
    UInt8.ofNat_toNat]

theorem mapM_map_eq_some {α : Type} {write : α → Json} {read? : Json → Option α} {xs : List α}
    (each : ∀ x ∈ xs, read? (write x) = some x) : (xs.map write).mapM read? = some xs := by
  induction xs with
  | nil => rfl
  | cons x rest ih =>
      rw [List.forall_mem_cons] at each
      rw [List.map_cons, List.mapM_cons, each.1, ih each.2]
      rfl

end Json

namespace FieldType

/-- Numbers are finite, and dates lie in years of four digits and in no leap second. -/
def Portable : (t : FieldType) → t.Value → Prop
  | .double, (x : Number.Double) => x.isFinite = true
  | .float, (x : Single) => x.isFinite = true
  | .date, (time : Calendar.Instant) => time.Plain
  | _, _ => True

instance : (t : FieldType) → (v : t.Value) → Decidable (t.Portable v)
  | .double, (x : Number.Double) => inferInstanceAs (Decidable (x.isFinite = true))
  | .float, (x : Single) => inferInstanceAs (Decidable (x.isFinite = true))
  | .date, (time : Calendar.Instant) => inferInstanceAs (Decidable time.Plain)
  | .long, _ | .int, _ | .bool, _ | .text, _ | .containerType, _ | .producerType, _ | .bytes, _ =>
    inferInstanceAs (Decidable True)

def DigitsReadBack : (t : FieldType) → t.Value → Prop
  | .float, (x : Single) => x.DigitsReadBack
  | _, _ => True

instance : (t : FieldType) → (v : t.Value) → Decidable (t.DigitsReadBack v)
  | .float, (x : Single) => inferInstanceAs (Decidable x.DigitsReadBack)
  | .double, _ | .date, _ | .long, _ | .int, _ | .bool, _ | .text, _ | .containerType, _
  | .producerType, _ | .bytes, _ => inferInstanceAs (Decidable True)

theorem ofJson?_toJson {t : FieldType} {v : t.Value} (portable : t.Portable v)
    (digits : t.DigitsReadBack v) : t.ofJson? (t.toJson v) = some v := by
  cases t with
  | long => exact Json.int64?_ofInt v
  | int => exact Json.int32?_ofInt v
  | double => exact Json.double?_ofBinary Json.doubleRange portable
  | float => exact Json.single?_ofBinary Json.singleRange portable digits
  | bool => rfl
  | date => exact Calendar.Rfc3339.parse?_format portable
  | text => rfl
  | containerType => cases v <;> decide
  | producerType => cases v <;> decide
  | bytes => exact Json.mapM_map_eq_some fun b _ => Json.byte?_ofNat b

theorem ofJson?_null (t : FieldType) : t.ofJson? .null = none := by
  cases t <;> rfl

theorem toJson_wellFormed (t : FieldType) (v : t.Value) : (t.toJson v).WellFormed := by
  cases t with
  | long => exact .number (Json.ofInt_wellFormed (Int64.toInt v))
  | int => exact .number (Json.ofInt_wellFormed (Int32.toInt v))
  | double => exact Json.ofBinary_wellFormed _ v
  | float => exact Json.ofBinary_wellFormed _ v
  | bool => exact .bool v
  | date => exact .string _
  | text => exact .string v
  | containerType => exact .string _
  | producerType => exact .string _
  | bytes =>
      refine .array (List.forall_mem_map.mpr fun b _ => ?_)
      exact .number (Json.ofInt_wellFormed b.toNat)

end FieldType

end ShoreMetadata
