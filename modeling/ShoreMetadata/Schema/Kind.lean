/-! The kinds of entities a metadata document describes. -/

namespace ShoreMetadata

inductive Kind where
  | commentTag
  | dataContainer
  | dataContainerGroup
  | dataProducer
  | dataProducerGroup
  | device
  | deviceType
  | event
  | headerDescription
  | keyword
  | person
  | recordDescription
  | recordVariable
  | resource
  | resourceBlob
  | resourceType
  | software
  | standardDomain
  | standardKeyword
  | standardReferenceScale
  | standardUnit
  | standardVariable
  | userGroup
deriving DecidableEq

namespace Kind

/-- Every kind, in the order in which entities are grouped. -/
def all : List Kind :=
  [.commentTag, .dataContainer, .dataContainerGroup, .dataProducer, .dataProducerGroup, .device,
    .deviceType, .event, .headerDescription, .keyword, .person, .recordDescription,
    .recordVariable, .resource, .resourceBlob, .resourceType, .software, .standardDomain,
    .standardKeyword, .standardReferenceScale, .standardUnit, .standardVariable, .userGroup]

theorem mem_all (k : Kind) : k ∈ all := by
  cases k <;> decide

def name : Kind → String
  | .commentTag => "CommentTag"
  | .dataContainer => "DataContainer"
  | .dataContainerGroup => "DataContainerGroup"
  | .dataProducer => "DataProducer"
  | .dataProducerGroup => "DataProducerGroup"
  | .device => "Device"
  | .deviceType => "DeviceType"
  | .event => "Event"
  | .headerDescription => "HeaderDescription"
  | .keyword => "Keyword"
  | .person => "Person"
  | .recordDescription => "RecordDescription"
  | .recordVariable => "RecordVariable"
  | .resource => "Resource"
  | .resourceBlob => "ResourceBlob"
  | .resourceType => "ResourceType"
  | .software => "Software"
  | .standardDomain => "StandardDomain"
  | .standardKeyword => "StandardKeyword"
  | .standardReferenceScale => "StandardReferenceScale"
  | .standardUnit => "StandardUnit"
  | .standardVariable => "StandardVariable"
  | .userGroup => "UserGroup"

def tag : Kind → String
  | .resourceBlob => "ResourceBLOB"
  | k => k.name

def ofName? (name : String) : Option Kind :=
  all.find? (·.name = name)

end Kind

end ShoreMetadata
