import ShoreMetadata.Base64
import ShoreMetadata.Schema.Field
import ShoreMetadata.Xml.Fault

/-! Why a document or a value is rejected, and what is passed over without
rejecting it. -/

namespace ShoreMetadata

def FieldType.title : FieldType → String
  | .long => "long"
  | .int => "integer"
  | .double => "double"
  | .float => "float"
  | .bool => "boolean"
  | .date => "date"
  | .text => "text"
  | .containerType => "DataContainer type"
  | .producerType => "DataProducer type"
  | .bytes => "base64"

structure Violation where
  position : Xml.Position
  message : String
deriving DecidableEq

def Violation.text (v : Violation) : String :=
  s!"line {v.position.line}, column {v.position.column}: {v.message}"

inductive Error where
  | xml (error : Xml.Error)
  | schemaMismatch (expected found : String)
  | conversion (field value : String) (target : FieldType)
  | validity (violations : List Violation)
  | encoding (field : String) (fault : Base64.Fault)
  | unknownAttribute (name element : String) (line : Nat)
  | unknownElement (name : String) (line : Nat)
  | unroutable (child parent : String) (line : Nat)
  | configuration (reason : String)
deriving DecidableEq

namespace Error

def message : Error → String
  | .xml error =>
    let place := error.position
    s!"XML error at line {place.line}, column {place.column}: {error.fault.message}"
  | .schemaMismatch expected found => s!"Element <{found}> cannot be built as {expected}"
  | .conversion field value target => s!"Cannot convert {field}=\"{value}\" to {target.title}"
  | .validity violations => s!"Document failed validation with {violations.length} error(s)"
  | .encoding field fault => s!"Encoding error on {field}: {fault.message}"
  | .unknownAttribute name element line =>
    s!"Unknown attribute {name} in <{element}> at line {line}"
  | .unknownElement name line => s!"Unknown element <{name}> in line {line}"
  | .unroutable child parent line =>
    s!"Unknown child <{child}> in <{parent}> at line {line}"
  | .configuration reason => s!"Configuration error: {reason}"

def violations : Error → List Violation
  | .validity violations => violations
  | _ => []

end Error

inductive Problem where
  | unknownElement (name : String) (line : Nat)
  | unroutable (child parent : String) (line : Nat) (kind : Kind)
deriving DecidableEq

def Problem.message : Problem → String
  | .unknownElement name line => s!"unknown element <{name}> at line {line}"
  | .unroutable child parent line kind =>
    s!"<{parent}> at line {line} has no relationship for child <{child}> ({kind.tag})"

end ShoreMetadata
