import ShoreMetadata.Calendar.Profile
import ShoreMetadata.Error
import ShoreMetadata.Text.Case
import ShoreMetadata.Text.Utf8

/-! The text of field values in attributes. -/

namespace ShoreMetadata

open Text Number

def ContainerType.parse? (value : String) : Option ContainerType :=
  let word := trim value
  if sameName word ContainerType.file.name then some .file
  else if sameName word ContainerType.stream.name then some .stream
  else none

def ProducerType.parse? (value : String) : Option ProducerType :=
  let word := trim value
  if sameName word ProducerType.deployment.name then some .deployment
  else if sameName word ProducerType.processRun.name then some .processRun
  else none

def bool? (value : String) : Option Bool :=
  let word := trim value
  if sameName word "true" then some true
  else if sameName word "false" then some false
  else none

def trimmed (value : String) : List Char :=
  trimBy isBlank value.toList

def bytesOfText (value : String) : Except Base64.Fault (List UInt8) :=
  Base64.decode (utf8Bytes (value.toList.filter (!isBlank ·)))

def Version.parse? (value : String) : Option Version :=
  int64? (trimmed value)

namespace FieldType

def parse? : (t : FieldType) → String → Option t.Value
  | .long, value => int64? (trimmed value)
  | .int, value => int32? (trimmed value)
  | .double, value => Binary.read? (trimmed value)
  | .float, value => Binary.read? (trimmed value)
  | .bool, value => bool? value
  | .date, value => Calendar.Profile.parse? value
  | .text, value => some value
  | .containerType, value => ContainerType.parse? value
  | .producerType, value => ProducerType.parse? value
  | .bytes, value => (bytesOfText value).toOption

def read (t : FieldType) (field value : String) : Except Error t.Value :=
  match t with
  | .bytes => (bytesOfText value).mapError (.encoding field)
  | t =>
    match t.parse? value with
    | some v => .ok v
    | none => .error (.conversion field value t)

/-- The text of a value; an empty text and a NaN are not written. -/
def text? : (t : FieldType) → t.Value → Option String
  | .long, (n : Int64) => some (integerText n.toInt)
  | .int, (n : Int32) => some (integerText n.toInt)
  | .double, x => Binary.text? x
  | .float, x => Binary.text? x
  | .bool, (b : Bool) => some (if b then "true" else "false")
  | .date, t => some (Calendar.Profile.format t)
  | .text, (s : String) => if s = "" then none else some s
  | .containerType, (c : ContainerType) => some c.name
  | .producerType, (p : ProducerType) => some p.name
  | .bytes, content => some (Base64.encode content)

end FieldType

end ShoreMetadata
