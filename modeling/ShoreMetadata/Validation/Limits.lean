import ShoreMetadata.Entity.Basic
import ShoreMetadata.Schema.Tag

/-! Limits on the values of entities: lengths of names, descriptions and URIs,
ranges of coordinates, and depths that are not negative. -/

namespace ShoreMetadata.Limits

open Number

inductive Excess where
  | tooLong (most actual : Nat)
  | outOfRange (value least most : Double)
  | negative (value : Double)
deriving DecidableEq

structure Finding where
  path : String
  field : Field
  excess : Excess
deriving DecidableEq

def numberText (x : Double) : String :=
  x.text?.getD "NaN"

def Finding.message (finding : Finding) : String :=
  let place := finding.path ++ "." ++ finding.field.key
  match finding.excess with
  | .tooLong most actual => s!"{place} exceeds maximum length (max: {most}, got: {actual})"
  | .outOfRange value least most =>
    s!"{place} = {numberText value} is outside [{numberText least}, {numberText most}]"
  | .negative value => s!"{place} = {numberText value} must not be negative"

inductive Limit : FieldType → Type
  | length (most : Nat) : Limit .text
  | range (bound : Int) : Limit .double
  | depth : Limit .float

/-- How a value exceeds a limit. Lengths count characters; a NaN has no
excess. -/
def Limit.excess? : {t : FieldType} → Limit t → t.Value → Option Excess
  | _, .length most, (s : String) =>
    if most < s.length then some (.tooLong most s.length) else none
  | _, .range bound, (x : Double) =>
    if x.lt (.ofInt (-bound)) || Binary.lt (.ofInt bound) x then
      some (.outOfRange x (.ofInt (-bound)) (.ofInt bound))
    else none
  | _, .depth, (x : Single) =>
    if x.lt (.ofInt 0) then some (.negative x.convert) else none

structure Rule where
  field : Field
  limit : Limit field.type

def name : Rule := ⟨.name, .length 255⟩

def description : Rule := ⟨.description, .length 2048⟩

def rules : Kind → List Rule
  | .dataContainer =>
    [name, description, ⟨.uriString, .length 2048⟩, ⟨.dodsUrlString, .length 2048⟩,
      ⟨.minLatitude, .range 90⟩, ⟨.maxLatitude, .range 90⟩, ⟨.minLongitude, .range 360⟩,
      ⟨.maxLongitude, .range 360⟩, ⟨.minDepth, .depth⟩, ⟨.maxDepth, .depth⟩]
  | .dataProducer =>
    [name, description, ⟨.nominalLatitude, .range 90⟩, ⟨.nominalLongitude, .range 360⟩,
      ⟨.nominalDepth, .depth⟩]
  | .device => [name, description, ⟨.infoUrlList, .length 2048⟩]
  | .resource | .software => [name, description, ⟨.uriString, .length 2048⟩]
  | .standardVariable => [name, description, ⟨.namespaceUriString, .length 2048⟩]
  | .headerDescription => [description]
  | .recordDescription | .person | .userGroup | .commentTag => []
  | _ => [name, description]

def checkedSlots : Kind → List Slot
  | .dataContainer =>
    [.headerDescription, .recordDescription, .dataContainerGroups, .keywords, .resources,
      .consumers]
  | .dataProducer =>
    [.device, .software, .childDataProducers, .dataProducerGroups, .events, .keywords,
      .resources, .outputs]
  | .device => [.deviceType, .resources]
  | .software => [.resources]
  | .recordDescription => [.recordVariables]
  | _ => []

def ownFindings (path : String) {k : Kind} (e : Entity k) : List Finding :=
  (rules k).filterMap fun rule => do
    let value ← e.get? rule.field
    let excess ← rule.limit.excess? value
    return ⟨path, rule.field, excess⟩

def step (s : Slot) : String :=
  match s.wrapper? with
  | some w => w.tag .current
  | none => s.target.tag

mutual
def findingsOf (path : String) : {k : Kind} → Entity k → List Finding
  | k, .mk values version links =>
    ownFindings path (Entity.mk values version links)
      ++ (checkedSlots k).flatMap fun s => findingsIn path s links

def findingsIn (path : String) (s : Slot) : {ss : List Slot} → Links ss → List Finding
  | _, .nil => []
  | t :: _, .cons members rest =>
    if t = s then findingsAmong (path ++ "." ++ step t) 0 members
    else findingsIn path s rest

def findingsAmong (path : String) (index : Nat) :
    {a : Arity} → {k : Kind} → Members a k → List Finding
  | _, _, .absent => []
  | _, _, .present e => findingsOf path e
  | _, _, .nil => []
  | _, _, .cons e rest =>
    findingsOf s!"{path}[{index}]" e ++ findingsAmong path (index + 1) rest
end

def findings (e : AnyEntity) : List Finding :=
  findingsOf e.kind.tag e.entity

end ShoreMetadata.Limits
