import ShoreMetadata.Entity.Variables
import ShoreMetadata.Scalar
import ShoreMetadata.Schema.Tag
import ShoreMetadata.Xml.Element

/-! Elements of entities. Fields become attributes, but a description becomes a
child; the entities in slots become children in an order that depends on the
kind and on the dialect. Children without any content are left out. -/

namespace ShoreMetadata

open Xml (Element)

/-- Containers and producers refer to each other. One pass follows only one side
of these relations. -/
inductive Direction where
  | outputs
  | consumers
deriving DecidableEq

def Kind.direction : Kind → Direction
  | .dataContainer => .consumers
  | _ => .outputs

def Slot.isFollowed (direction : Direction) : Slot → Bool
  | .consumers => direction = .consumers
  | .outputs => direction = .outputs
  | _ => true

def Kind.required? : Kind → Option Field
  | .commentTag => some .tagString
  | .userGroup => some .groupName
  | .dataContainerGroup | .dataProducerGroup | .deviceType | .keyword | .resourceType
  | .standardDomain | .standardKeyword | .standardReferenceScale | .standardUnit
  | .standardVariable => some .name
  | _ => none

/-- The version stands behind the other attributes, but in units and variables of
a standard right behind the name. -/
def Kind.precedesVersion : Kind → Field → Bool
  | .standardUnit, f | .standardVariable, f => f = .id || f = .name
  | _, _ => true

/-- Descriptions are children, and types are told by the tag in the legacy
dialect. -/
def Field.isAttribute (dialect : Dialect) : Field → Bool
  | .description => false
  | .dataContainerType | .dataProducerType => dialect = .current
  | _ => true

def Values.toAttributes (p : Field → Bool) {fs : List Field} (values : Values fs) :
    List (String × String) :=
  (values.mapPresent fun f value =>
    if p f then (f.type.text? value).map fun text => (f.xmlName, text) else none).filterMap id

def versionAttribute (version : Version) : List (String × String) :=
  if version = .unknown then [] else [("version", Number.integerText version.toInt)]

inductive Part where
  | description
  | slot (slot : Slot)
deriving DecidableEq

def currentParts : Kind → List Part
  | .dataContainer =>
    [.slot .consumers, .description, .slot .dataContainerGroups, .slot .headerDescription,
      .slot .keywords, .slot .person, .slot .recordDescription, .slot .resources]
  | .dataProducer =>
    [.slot .childDataProducers, .slot .dataProducerGroups, .description, .slot .device,
      .slot .events, .slot .keywords, .slot .outputs, .slot .person, .slot .resources,
      .slot .software]
  | .resource =>
    [.description, .slot .keywords, .slot .person, .slot .resourceBlob, .slot .resourceType]
  | k => .description :: k.slots.map .slot

def legacyContainerParts (type : Option ContainerType) : List Part :=
  let header := if type = some .stream then [] else [.slot .headerDescription]
  [.slot .consumers, .slot .person, .slot .resources] ++ header
    ++ [.description, .slot .recordDescription]

def legacyProducerParts (type : Option ProducerType) : List Part :=
  let leading := if type = some .processRun then
      [.description, .slot .person, .slot .software]
    else [.slot .device, .slot .childDataProducers, .slot .person, .description]
  leading ++ [.slot .resources, .slot .events, .slot .outputs]

namespace Entity

def parts (dialect : Dialect) : {k : Kind} → Entity k → List Part
  | .dataContainer, e =>
    if dialect = .legacy then legacyContainerParts (e.get? .dataContainerType)
    else currentParts .dataContainer
  | .dataProducer, e =>
    if dialect = .legacy then legacyProducerParts (e.get? .dataProducerType)
    else currentParts .dataProducer
  | k, _ => currentParts k

def tag (dialect : Dialect) : {k : Kind} → Entity k → String
  | .dataContainer, e => ContainerType.tag (e.get? .dataContainerType) dialect
  | .dataProducer, e => ProducerType.tag (e.get? .dataProducerType) dialect
  | k, _ => k.tag

def descriptionElement {k : Kind} (e : Entity k) : List Element :=
  match (e.get? .description : Option String) with
  | some text => if Text.isBlankText text then [] else [.ofText descriptionTag text]
  | none => []

def toAttributes (dialect : Dialect) {k : Kind} (e : Entity k) : List (String × String) :=
  e.values.toAttributes (fun f => f.isAttribute dialect && k.precedesVersion f)
    ++ versionAttribute e.version
    ++ e.values.toAttributes fun f => f.isAttribute dialect && !k.precedesVersion f

def assemble (dialect : Dialect) {k : Kind} (e : Entity k) (children : Slot → List Element) :
    Option Element :=
  let element : Element :=
    { name := e.tag dialect
      attributes := e.toAttributes dialect
      children := (e.parts dialect).flatMap fun
        | .description => e.descriptionElement
        | .slot s => children s
      text := ""
      position := .none }
  match k.required? with
  | none => some element
  | some f => if (e.get? f).isSome then some element else none

end Entity

def Slot.wrap (dialect : Dialect) (s : Slot) : Option Element → List Element
  | none => []
  | some child =>
    if child.isEmpty then []
    else
      match s.wrapper? with
      | none => [child]
      | some w => [(Element.ofName (w.tag dialect)).pushChild child]

def Slot.arrange : (s : Slot) → List (Entity s.target × α) → List (Entity s.target × α)
  | .recordVariables, items => orderByColumn (fun item => Entity.column? item.1) items
  | _, items => items

mutual
def Entity.toElement (dialect : Dialect) (direction : Direction) :
    {k : Kind} → Entity k → Option Element
  | _, .mk values version links =>
    (Entity.mk values version links).assemble dialect
      fun s => Links.toElements dialect direction s links

def Links.toElements (dialect : Dialect) (direction : Direction) (s : Slot) :
    {ss : List Slot} → Links ss → List Element
  | _, .nil => []
  | t :: _, .cons members rest =>
    if t = s then
      if t.isFollowed direction then
        (t.arrange (Members.toElements dialect direction members)).flatMap
          fun item => t.wrap dialect item.2
      else []
    else Links.toElements dialect direction s rest

def Members.toElements (dialect : Dialect) (direction : Direction) :
    {a : Arity} → {k : Kind} → Members a k → List (Entity k × Option Element)
  | _, _, .absent => []
  | _, _, .present e => [(e, Entity.toElement dialect direction e)]
  | _, _, .nil => []
  | _, _, .cons e rest =>
    (e, Entity.toElement dialect direction e) :: Members.toElements dialect direction rest
end

/-- The element of an entity, `none` if it lacks what its kind requires. -/
def AnyEntity.toElement (dialect : Dialect) (e : AnyEntity) : Option Element :=
  e.entity.toElement dialect e.kind.direction

end ShoreMetadata
