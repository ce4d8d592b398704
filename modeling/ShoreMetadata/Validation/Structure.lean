import ShoreMetadata.Scalar
import ShoreMetadata.Schema.Tag
import ShoreMetadata.Xml.Element

/-! Checks of the structure of a document before anything is built from it: tags
that are known and allowed where they stand, content of wrappers, and attributes
whose values are of their type. -/

namespace ShoreMetadata.Structure

open Xml (Element Position)
open Text

/-- The attributes whose values have a type other than plain text, by their names in lower
case. They are the same on whatever element they stand. -/
def typedAttributes : List (String × FieldType) :=
  [("id", .long), ("contentlength", .long), ("numberofrecords", .long), ("recordtype", .long),
    ("columnindex", .long), ("sourcesensorid", .long), ("byteoffset", .long),
    ("numheaderlines", .int),
    ("original", .bool), ("dodsaccessible", .bool), ("nonetcdf", .bool), ("parseable", .bool),
    ("startdate", .date), ("enddate", .date),
    ("minlatitude", .double), ("maxlatitude", .double), ("minlongitude", .double),
    ("maxlongitude", .double), ("nominallatitude", .double), ("nominallongitude", .double),
    ("displaymin", .double), ("displaymax", .double), ("conversionscale", .double),
    ("conversionoffset", .double),
    ("mindepth", .float), ("maxdepth", .float), ("nominallatitudeaccuracy", .float),
    ("nominallongitudeaccuracy", .float), ("nominaldepth", .float),
    ("nominaldepthaccuracy", .float), ("nominalbenthicaltitude", .float),
    ("nominalbenthicaltitudeaccuracy", .float), ("xoffset", .float), ("yoffset", .float),
    ("zoffset", .float),
    ("bytearray", .bytes),
    ("datacontainertype", .containerType), ("dataproducertype", .producerType)]

def typeOfAttribute? (name : String) : Option FieldType :=
  typedAttributes.lookup (lower name)

def allowedTags : Kind → List String
  | .dataContainer =>
    ["consumer", "destiny", "description", "DataContainerGroup", "HeaderDescription", "Keyword",
      "Person", "RecordDescription", "Resource"]
  | .dataProducer =>
    ["DataProducer", "Deployment", "ProcessRun", "DataProducerGroup", "description", "Device",
      "Event", "Keyword", "output", "Person", "Resource", "Software"]
  | .device => ["description", "DeviceType", "Person", "Resource"]
  | .resource => ["description", "Keyword", "Person", "ResourceBLOB", "ResourceType"]
  | .software => ["description", "Person", "Resource"]
  | .person => ["UserGroup"]
  | .headerDescription => ["description", "CommentTag"]
  | .recordDescription => ["RecordVariable"]
  | .recordVariable =>
    ["description", "StandardDomain", "StandardKeyword", "StandardReferenceScale",
      "StandardUnit", "StandardVariable"]
  | .standardVariable => ["description", "StandardUnit"]
  | .commentTag | .userGroup => []
  | .dataContainerGroup | .dataProducerGroup | .deviceType | .event | .keyword | .resourceBlob
  | .resourceType | .standardDomain | .standardKeyword | .standardReferenceScale
  | .standardUnit => ["description"]

def valueComplaint? (t : FieldType) (name value : String) : Option String :=
  match t.read name value with
  | .ok _ => none
  | .error e =>
    match t with
    | .date => some s!"attribute {name}=\"{value}\" is not a valid date"
    | .containerType | .producerType =>
      some s!"attribute {name}=\"{value}\" is not a {t.title}"
    | _ => some e.message

def attributeViolations (position : Position) (attributes : List (String × String)) :
    List Violation :=
  attributes.filterMap fun (name, value) => do
    let t ← typeOfAttribute? name
    let complaint ← valueComplaint? t name value
    return ⟨position, complaint⟩

mutual
def check : Option Role → Element → List Violation
  | some (.entity k), ⟨name, attributes, children, _, position⟩ =>
    attributeViolations position attributes ++ checkChildren name (allowedTags k) children
  | some (.wrapper w), ⟨name, _, children, _, position⟩ =>
    checkContent w ⟨position, s!"<{name}> must contain exactly one of "
      ++ String.intercalate ", " w.contentTags⟩ children
  | some .description, ⟨_, _, children, _, position⟩ =>
    if children.isEmpty then [] else [⟨position, "<description> may only contain text"⟩]
  | none, ⟨name, _, _, _, position⟩ => [⟨position, s!"unknown element <{name}>"⟩]

def checkContent (w : Wrapper) (violation : Violation) : List Element → List Violation
  | [] => [violation]
  | content :: rest =>
    if rest.isEmpty && content.hasTagIn w.contentTags then
      check (some (.entity w.contentKind)) content
    else [violation]

def checkChildren (parent : String) (allowed : List String) : List Element → List Violation
  | [] => []
  | child :: rest =>
    (if child.hasTagIn allowed then check (Role.ofTag? child.name) child
      else [⟨child.position, s!"<{child.name}> is not allowed inside <{parent}>"⟩])
      ++ checkChildren parent allowed rest
end

def checkTop (child : Element) : List Violation :=
  match Role.ofTag? child.name with
  | some (.entity k) => check (some (.entity k)) child
  | _ => [⟨child.position, s!"<{child.name}> is not allowed at the top level"⟩]

def violations (root : Element) : List Violation :=
  if root.hasTag rootTag then root.children.flatMap checkTop
  else [⟨root.position, s!"root element must be <{rootTag}>, found <{root.name}>"⟩]

end ShoreMetadata.Structure
