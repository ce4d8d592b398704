import ShoreMetadata.Config
import ShoreMetadata.Entity.Basic
import ShoreMetadata.Scalar

/-! Attributes of entity elements. Case does not matter, some fields have further
names, and some attributes name an entity in a slot. -/

namespace ShoreMetadata

open Text

def Kind.aliases : Kind → List (String × Field)
  | .dataContainer =>
    [("uri", .uriString), ("url", .uriString), ("contentType", .mimeType),
      ("dodsUrl", .dodsUrlString)]
  | .resource | .software => [("uri", .uriString), ("url", .uriString)]
  | _ => []

def Kind.shorthands : Kind → List (String × Slot)
  | .device => [("type", .deviceType)]
  | .resource => [("resourceType", .resourceType)]
  | _ => []

inductive AttributeUse where
  | version
  | field (field : Field)
  | shorthand (slot : Slot)
deriving DecidableEq

def Kind.attributeNames (k : Kind) : List (String × AttributeUse) :=
  ("version", .version) :: k.fields.map (fun f => (f.xmlName, .field f))
    ++ k.aliases.map (fun entry => (entry.1, .field entry.2))
    ++ k.shorthands.map fun entry => (entry.1, .shorthand entry.2)

def Kind.attributeUse? (k : Kind) (name : String) : Option AttributeUse :=
  (k.attributeNames.find? fun entry => sameName name entry.1).map Prod.snd

structure Place where
  tag : String
  line : Nat

namespace Entity

variable {k : Kind}

def setVersion (e : Entity k) (version : Version) : Entity k :=
  .mk e.values version e.links

def updateLinks (e : Entity k) (f : Links k.slots → Links k.slots) : Entity k :=
  .mk e.values e.version (f e.links)

/-- A version that is no number is unknown. Software then has the text for its
release, unless that is given otherwise. -/
def readVersion (config : Config) (e : Entity k) (value : String) : Except Error (Entity k) := do
  let version ← match Version.parse? value with
    | some version => .ok version
    | none => if config.isStrict then .error (.conversion "version" value .long) else .ok .unknown
  let e := e.setVersion version
  if k = .software ∧ version = .unknown ∧ (e.get? .softwareVersion).isNone then
    return e.set .softwareVersion (some value)
  else return e

def readAttribute (config : Config) (place : Place) (e : Entity k) (name value : String) :
    Except Error (Entity k) :=
  match k.attributeUse? name with
  | some .version => e.readVersion config value
  | some (.field f) => (f.type.read name value).map fun v => e.set f (some v)
  | some (.shorthand s) =>
    .ok (e.updateLinks fun links =>
      links.update s fun members => members.accept (fun _ _ => false) (named s.target value))
  | none =>
    if config.isStrict then .error (.unknownAttribute name place.tag place.line) else .ok e

/-- Reads attributes in their order; of two for one field the later counts. -/
def readAttributes (config : Config) (place : Place) (e : Entity k) :
    List (String × String) → Except Error (Entity k)
  | [] => .ok e
  | (name, value) :: rest => do
    let e ← e.readAttribute config place name value
    e.readAttributes config place rest

def ofTag (k : Kind) (tag : String) : Entity k :=
  ((empty k).set .dataContainerType (ContainerType.ofTag? tag)).set .dataProducerType
    (ProducerType.ofTag? tag)

end Entity

end ShoreMetadata
