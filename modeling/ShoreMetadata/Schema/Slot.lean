import ShoreMetadata.Schema.Kind

/-! The relations of entities. A slot of an entity holds at most one entity or a
list of them, always of one kind. -/

namespace ShoreMetadata

inductive Arity where
  | one
  | many
deriving DecidableEq

inductive Wrapper where
  | output
  | consumer
deriving DecidableEq

inductive Slot where
  | person
  | headerDescription
  | recordDescription
  | dataContainerGroups
  | resources
  | keywords
  | consumers
  | device
  | software
  | childDataProducers
  | dataProducerGroups
  | events
  | outputs
  | deviceType
  | commentTags
  | userGroups
  | recordVariables
  | standardDomain
  | standardKeyword
  | standardReferenceScale
  | standardUnit
  | standardVariable
  | resourceType
  | resourceBlob
  | standardUnits
deriving DecidableEq

namespace Slot

def target : Slot → Kind
  | .person => .person
  | .headerDescription => .headerDescription
  | .recordDescription => .recordDescription
  | .dataContainerGroups => .dataContainerGroup
  | .resources => .resource
  | .keywords => .keyword
  | .consumers | .childDataProducers => .dataProducer
  | .device => .device
  | .software => .software
  | .dataProducerGroups => .dataProducerGroup
  | .events => .event
  | .outputs => .dataContainer
  | .deviceType => .deviceType
  | .commentTags => .commentTag
  | .userGroups => .userGroup
  | .recordVariables => .recordVariable
  | .standardDomain => .standardDomain
  | .standardKeyword => .standardKeyword
  | .standardReferenceScale => .standardReferenceScale
  | .standardUnit | .standardUnits => .standardUnit
  | .standardVariable => .standardVariable
  | .resourceType => .resourceType
  | .resourceBlob => .resourceBlob

def arity : Slot → Arity
  | .dataContainerGroups | .resources | .keywords | .consumers | .childDataProducers
  | .dataProducerGroups | .events | .outputs | .commentTags | .userGroups | .recordVariables
  | .standardUnits => .many
  | _ => .one

def wrapper? : Slot → Option Wrapper
  | .consumers => some .consumer
  | .outputs => some .output
  | _ => none

def key : Slot → String
  | .person => "person"
  | .headerDescription => "headerDescription"
  | .recordDescription => "recordDescription"
  | .dataContainerGroups => "dataContainerGroups"
  | .resources => "resources"
  | .keywords => "keywords"
  | .consumers => "consumers"
  | .device => "device"
  | .software => "software"
  | .childDataProducers => "childDataProducers"
  | .dataProducerGroups => "dataProducerGroups"
  | .events => "events"
  | .outputs => "outputs"
  | .deviceType => "deviceType"
  | .commentTags => "commentTags"
  | .userGroups => "userGroups"
  | .recordVariables => "recordVariables"
  | .standardDomain => "standardDomain"
  | .standardKeyword => "standardKeyword"
  | .standardReferenceScale => "standardReferenceScale"
  | .standardUnit => "standardUnit"
  | .standardVariable => "standardVariable"
  | .resourceType => "resourceType"
  | .resourceBlob => "resourceBlob"
  | .standardUnits => "standardUnits"

end Slot

namespace Kind

/-- The slots of a kind in the order of its JSON form. -/
def slots : Kind → List Slot
  | .dataContainer =>
    [.person, .headerDescription, .recordDescription, .dataContainerGroups, .resources,
      .keywords, .consumers]
  | .dataProducer =>
    [.device, .software, .person, .childDataProducers, .dataProducerGroups, .resources,
      .keywords, .events, .outputs]
  | .device => [.deviceType, .person, .resources]
  | .headerDescription => [.commentTags]
  | .person => [.userGroups]
  | .recordDescription => [.recordVariables]
  | .recordVariable =>
    [.standardDomain, .standardKeyword, .standardReferenceScale, .standardUnit,
      .standardVariable]
  | .resource => [.resourceType, .resourceBlob, .person, .keywords]
  | .software => [.person, .resources]
  | .standardVariable => [.standardUnits]
  | _ => []

end Kind

end ShoreMetadata
