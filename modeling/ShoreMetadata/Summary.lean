import ShoreMetadata.Document.Basic
import ShoreMetadata.Error

/-! A summary of a document: what was passed over, how many entities there are of
each kind, and the data producers. -/

namespace ShoreMetadata.Summary

def problemLines (problems : List Problem) : String :=
  if problems.isEmpty then ""
  else
    "\n⚠️  Skipped:\n" ++ String.join (problems.map fun p => "  - " ++ p.message ++ "\n")

def countLines (d : Document) : String :=
  let noun := if d.size = 1 then "entity" else "entities"
  s!"\n✅ Parsed {d.size} top-level {noun}:\n"
    ++ String.join (d.counts.map fun (kind, count) => s!"  {kind.tag}: {count}\n")

def producerTypeName (producer : Entity .dataProducer) : String :=
  match (producer.get? .dataProducerType : Option ProducerType) with
  | some type => type.name
  | none => "DataProducer"

def producerLine (producer : Entity .dataProducer) : String :=
  let name : String := (producer.get? .name).getD "<unnamed>"
  let outputs := (producer.members .outputs).length
  s!"  - {name} ({producerTypeName producer}, {outputs} output(s))\n"

def producerLines (d : Document) : String :=
  if d.producers.isEmpty then ""
  else "\nData producers:\n" ++ String.join (d.producers.map producerLine)

def text (problems : List Problem) (d : Document) : String :=
  problemLines problems ++ countLines d ++ producerLines d

end ShoreMetadata.Summary
