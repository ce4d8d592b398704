import ShoreMetadata.Entity.Identity
import ShoreMetadata.Import.Attribute
import ShoreMetadata.Import.Recorded
import ShoreMetadata.Xml.Element

/-! Building entities from elements. An element is read by its tag, then its
attributes are read, then its children are built, and then each child goes into
the slot that its kind and its wrapper fit. -/

namespace ShoreMetadata

open Xml (Element)

structure Child where
  tag : String
  entity : AnyEntity

structure Offspring where
  description : Option String
  children : List Child

namespace Entity

variable {k : Kind}

def fits (child : Child) (s : Slot) : Bool :=
  s.target = child.entity.kind
    && s.wrapper? = (Role.ofTag? child.tag).bind Role.wrapper?

def accept (e : Entity k) (s : Slot) (other : Entity s.target) : Entity k :=
  e.updateLinks fun links => links.update s fun members => members.accept Entity.same other

def adopt? (e : Entity k) (child : Child) : Option (Entity k) := do
  let s ← k.slots.find? (fits child)
  let other ← child.entity.as? s.target
  return e.accept s other

def adopt (config : Config) (place : Place) (e : Entity k) (child : Child) :
    Recorded (Entity k) :=
  match e.adopt? child with
  | some e => .ok e
  | none =>
    if config.isStrict then .fail (.unroutable child.tag place.tag place.line)
    else do
      .note (.unroutable child.tag place.tag place.line child.entity.kind)
      return e

def adoptAll (config : Config) (place : Place) (e : Entity k) : List Child → Recorded (Entity k)
  | [] => .ok e
  | child :: rest => do
    let e ← e.adopt config place child
    e.adoptAll config place rest

def describe (e : Entity k) : Option String → Entity k
  | some text => e.set .description (some text)
  | none => e

end Entity

def unknownElement (config : Config) (place : Place) : Recorded (Option AnyEntity) :=
  if config.isStrict then .fail (.unknownElement place.tag place.line)
  else do
    .note (.unknownElement place.tag place.line)
    return none

mutual
/-- The entity an element stands for. A wrapper stands for the first of its
content; a description and an empty wrapper stand for none. -/
def buildElement (config : Config) : Element → Recorded (Option AnyEntity)
  | ⟨name, attributes, children, _, position⟩ =>
    let place : Place := ⟨name, position.line⟩
    match Role.ofTag? name with
    | some (.entity k) => do
      let e ← .ofExcept ((Entity.ofTag k name).readAttributes config place attributes)
      let offspring ← buildChildren config children
      let e ← (e.describe offspring.description).adoptAll config place offspring.children
      return some ⟨k, e⟩
    | some (.wrapper w) => buildContent config w.contentTags children
    | some .description => .ok none
    | none => unknownElement config place

def buildContent (config : Config) (tags : List String) :
    List Element → Recorded (Option AnyEntity)
  | [] => .ok none
  | child :: rest =>
    if child.hasTagIn tags then buildElement config child else buildContent config tags rest

/-- Builds every child; of several descriptions the last counts. -/
def buildChildren (config : Config) : List Element → Recorded Offspring
  | [] => .ok ⟨none, []⟩
  | child :: rest =>
    if child.hasTag descriptionTag then do
      let offspring ← buildChildren config rest
      return { offspring with description := offspring.description.or child.textContent }
    else do
      let built ← buildElement config child
      let offspring ← buildChildren config rest
      match built with
      | some entity =>
        return { offspring with children := ⟨child.name, entity⟩ :: offspring.children }
      | none => return offspring
end

def buildKind (config : Config) (k : Kind) (element : Element) : Recorded AnyEntity :=
  if element.hasTagIn k.acceptedTags then do
    match ← buildElement config element with
    | some e => return e
    | none => .fail (.schemaMismatch k.tag element.name)
  else .fail (.schemaMismatch k.tag element.name)

end ShoreMetadata
