import ShoreMetadata.Schema.Field
import ShoreMetadata.Schema.Slot
import ShoreMetadata.Text.Case

/-! Element tags. Case does not matter. Containers and producers have a current
tag and two legacy tags that also tell their type. -/

namespace ShoreMetadata

open Text

inductive Dialect where
  | current
  | legacy
deriving DecidableEq

def rootTag : String := "Metadata"

def descriptionTag : String := "description"

namespace Kind

def acceptedTags : Kind → List String
  | .dataContainer => ["DataContainer", "DataFile", "DataStream"]
  | .dataProducer => ["DataProducer", "Deployment", "ProcessRun"]
  | k => [k.tag]

end Kind

namespace Wrapper

def all : List Wrapper := [.output, .consumer]

def contentKind : Wrapper → Kind
  | .output => .dataContainer
  | .consumer => .dataProducer

def contentTags (w : Wrapper) : List String :=
  w.contentKind.acceptedTags

def tag : Wrapper → Dialect → String
  | .output, _ => "output"
  | .consumer, .current => "consumer"
  | .consumer, .legacy => "destiny"

end Wrapper

inductive Role where
  | entity (kind : Kind)
  | wrapper (wrapper : Wrapper)
  | description
deriving DecidableEq

namespace Role

def tags : Role → List String
  | .entity kind => kind.acceptedTags
  | .wrapper w => [w.tag .current, w.tag .legacy]
  | .description => [descriptionTag]

def all : List Role :=
  Kind.all.map .entity ++ Wrapper.all.map .wrapper ++ [.description]

def ofTag? (tag : String) : Option Role :=
  all.find? fun role => role.tags.any (sameName tag)

def wrapper? : Role → Option Wrapper
  | .wrapper w => some w
  | _ => none

end Role

/-! Types told by legacy tags, and the tags of entities by their types. -/

def ContainerType.ofTag? (tag : String) : Option ContainerType :=
  if sameName tag "DataFile" then some .file
  else if sameName tag "DataStream" then some .stream
  else none

def ProducerType.ofTag? (tag : String) : Option ProducerType :=
  if sameName tag "Deployment" then some .deployment
  else if sameName tag "ProcessRun" then some .processRun
  else none

def ContainerType.tag : Option ContainerType → Dialect → String
  | _, .current => "DataContainer"
  | some .stream, .legacy => "DataStream"
  | _, .legacy => "DataFile"

def ProducerType.tag : Option ProducerType → Dialect → String
  | _, .current => "DataProducer"
  | some .processRun, .legacy => "ProcessRun"
  | _, .legacy => "Deployment"

end ShoreMetadata
