import ShoreMetadata.Proofs.Base64
import ShoreMetadata.Proofs.Calendar.Profile
import ShoreMetadata.Proofs.Number.Binary
import ShoreMetadata.Scalar

/-! Every text that is written for a value can be read, and gives the same value
where the text can tell it. -/

namespace ShoreMetadata

open Number Text

private theorem trimmed_integerText (n : Int) : trimmed (integerText n) = integerDigits n :=
  trimBy_integerText n

theorem Version.parse?_integerText (version : Version) :
    Version.parse? (integerText version.toInt) = some version := by
  rw [parse?, trimmed_integerText, int64?_integerDigits]

private theorem bytesOfText_encode_toOption (bytes : List UInt8) :
    (bytesOfText (Base64.encode bytes)).toOption = some bytes := by
  rw [Base64.bytesOfText_encode]
  rfl

theorem ContainerType.parse?_name (type : ContainerType) : parse? type.name = some type := by
  cases type <;> decide

theorem ProducerType.parse?_name (type : ProducerType) : parse? type.name = some type := by
  cases type <;> decide

namespace FieldType

def Dated : (t : FieldType) → t.Value → Prop
  | .date, (time : Calendar.Instant) => time.HasPlainYear
  | _, _ => True

/-- Values that their text can tell: texts are not empty, numbers are numbers, and dates
are whole seconds in years of four digits. -/
def Tellable : (t : FieldType) → t.Value → Prop
  | .date, (time : Calendar.Instant) => time.HasPlainYear ∧ time.nanos = 0
  | .text, (s : String) => s ≠ ""
  | .double, (x : Double) => x.isNaN = false
  | .float, (x : Single) => x.isNaN = false
  | _, _ => True

instance : (t : FieldType) → (v : t.Value) → Decidable (t.Dated v)
  | .date, (time : Calendar.Instant) =>
      inferInstanceAs (Decidable (0 ≤ time.date.year ∧ time.date.year ≤ 9999))
  | .long, _ | .int, _ | .double, _ | .float, _ | .bool, _ | .text, _ | .containerType, _
  | .producerType, _ | .bytes, _ => .isTrue trivial

instance : (t : FieldType) → (v : t.Value) → Decidable (t.Tellable v)
  | .date, (time : Calendar.Instant) =>
      inferInstanceAs (Decidable ((0 ≤ time.date.year ∧ time.date.year ≤ 9999) ∧ time.nanos = 0))
  | .text, (s : String) => inferInstanceAs (Decidable (s ≠ ""))
  | .double, (x : Double) => inferInstanceAs (Decidable (x.isNaN = false))
  | .float, (x : Single) => inferInstanceAs (Decidable (x.isNaN = false))
  | .long, _ | .int, _ | .bool, _ | .containerType, _ | .producerType, _ | .bytes, _ =>
      .isTrue trivial

theorem Tellable.dated {t : FieldType} {v : t.Value} (tellable : t.Tellable v) : t.Dated v := by
  cases t with
  | date => exact tellable.1
  | _ => exact trivial

theorem read_of_parse? {t : FieldType} {value : String} {v : t.Value} (field : String)
    (parsed : t.parse? value = some v) : t.read field value = .ok v := by
  cases t with
  | bytes =>
      change (bytesOfText value).toOption = some v at parsed
      change (bytesOfText value).mapError _ = .ok v
      cases decoded : bytesOfText value with
      | ok bytes =>
          rw [decoded] at parsed
          cases parsed
          rfl
      | error fault =>
          rw [decoded] at parsed
          cases parsed
  | _ =>
      unfold read
      simp only [parsed]

private theorem read?_trimmed {F : Format} {x : Binary F} {s : String}
    (written : x.text? = some s) : Binary.read? (trimmed s) = some x := by
  rw [trimmed, trimBy_of_forall (Binary.isBlank_of_mem_text? written), Binary.read?_text? written]

private theorem text?_text {text written : String} :
    FieldType.text.text? text = some written ↔ text ≠ "" ∧ text = written := by
  simp [text?]

/-- Beside the date of a leap second and an empty text nothing changes by being written
and read. -/
theorem parse?_text? {t : FieldType} {v : t.Value} {s : String} (dated : t.Dated v)
    (written : t.text? v = some s) :
    ∃ w, t.parse? s = some w ∧ (t.Tellable v → w = v) := by
  cases t with
  | long =>
      cases written
      refine ⟨v, ?_, fun _ => rfl⟩
      rw [parse?, trimmed_integerText]
      exact int64?_integerDigits v
  | int =>
      cases written
      refine ⟨v, ?_, fun _ => rfl⟩
      rw [parse?, trimmed_integerText]
      exact int32?_integerDigits v
  | double => exact ⟨v, read?_trimmed written, fun _ => rfl⟩
  | float => exact ⟨v, read?_trimmed written, fun _ => rfl⟩
  | bool =>
      cases written
      refine ⟨v, ?_, fun _ => rfl⟩
      cases v <;> decide
  | date =>
      cases written
      refine ⟨_, Calendar.Profile.parse?_format dated, fun tellable => ?_⟩
      have same := Calendar.Profile.parse?_format_whole tellable.1 tellable.2
      rw [Calendar.Profile.parse?_format dated] at same
      exact Option.some.inj same
  | text =>
      obtain ⟨_, rfl⟩ := text?_text.mp written
      exact ⟨v, rfl, fun _ => rfl⟩
  | containerType =>
      cases written
      exact ⟨v, ContainerType.parse?_name v, fun _ => rfl⟩
  | producerType =>
      cases written
      exact ⟨v, ProducerType.parse?_name v, fun _ => rfl⟩
  | bytes =>
      cases written
      exact ⟨v, bytesOfText_encode_toOption v, fun _ => rfl⟩

theorem exists_text?_of_tellable {t : FieldType} {v : t.Value} (tellable : t.Tellable v) :
    ∃ s, t.text? v = some s := by
  cases t with
  | text => exact ⟨v, if_neg tellable⟩
  | double =>
      cases v with
      | nan => cases tellable
      | number negative rank le_infinity => exact ⟨_, rfl⟩
  | float =>
      cases v with
      | nan => cases tellable
      | number negative rank le_infinity => exact ⟨_, rfl⟩
  | _ => exact ⟨_, rfl⟩

/-! Dates that are read are whole seconds. -/

def Whole : (t : FieldType) → t.Value → Prop
  | .date, (time : Calendar.Instant) => time.nanos = 0
  | _, _ => True

theorem whole_of_parse? {t : FieldType} {s : String} {v : t.Value} (parsed : t.parse? s = some v) :
    t.Whole v := by
  cases t with
  | date => exact Calendar.Profile.nanos_parse? parsed
  | _ => exact trivial

theorem exists_parse?_of_text {t : FieldType} (text : t = .text) (v : t.Value) :
    ∃ s, t.parse? s = some v := by
  subst text
  exact ⟨v, rfl⟩

theorem parse?_of_read {t : FieldType} {field value : String} {v : t.Value}
    (read : t.read field value = .ok v) : t.parse? value = some v := by
  cases t with
  | bytes =>
      change (bytesOfText value).mapError _ = .ok v at read
      change (bytesOfText value).toOption = some v
      cases decoded : bytesOfText value with
      | ok bytes =>
          rw [decoded] at read
          cases read
          rfl
      | error fault =>
          rw [decoded] at read
          cases read
  | _ =>
      unfold FieldType.read at read
      dsimp only at read
      split at read
      · rename_i w parsed
        cases read
        exact parsed
      · cases read

theorem toOption_read (t : FieldType) (field value : String) :
    (t.read field value).toOption = t.parse? value := by
  cases read : t.read field value with
  | ok v => exact (parse?_of_read read).symm
  | error e =>
      cases parsed : t.parse? value with
      | none => rfl
      | some v => cases read.symm.trans (read_of_parse? field parsed)

theorem tellable_of_text? {t : FieldType} {v : t.Value} (written : (t.text? v).isSome = true)
    (dated : t.Dated v) (whole : t.Whole v) : t.Tellable v := by
  cases t with
  | date => exact ⟨dated, whole⟩
  | text =>
      intro empty
      have unwritten : FieldType.text.text? v = none := if_pos empty
      rw [unwritten] at written
      cases written
  | double =>
      cases v with
      | nan => cases written
      | number negative rank le_infinity => rfl
  | float =>
      cases v with
      | nan => cases written
      | number negative rank le_infinity => rfl
  | _ => exact trivial

end FieldType

end ShoreMetadata
