import ShoreMetadata.Entity.Buckets

/-! The entities at the top level of a document. Each is there once: of two that
stand for the same thing the first is kept. -/

namespace ShoreMetadata

structure Document where
  buckets : Buckets Kind.all

namespace Document

def empty : Document :=
  ⟨.empty Kind.all⟩

def get (d : Document) (k : Kind) : List (Entity k) :=
  d.buckets.get k

def holds (d : Document) (e : AnyEntity) : Bool :=
  (d.get e.kind).any fun other => other.same e.entity

/-- The document with an entity added, and whether it was new. -/
def insert (d : Document) (e : AnyEntity) : Document × Bool :=
  if d.holds e then (d, false)
  else (⟨d.buckets.set e.kind (d.get e.kind ++ [e.entity])⟩, true)

def insertAll (d : Document) (entities : List AnyEntity) : Document :=
  entities.foldl (fun d e => (d.insert e).1) d

def toList (d : Document) : List AnyEntity :=
  d.buckets.toList

def size (d : Document) : Nat :=
  d.buckets.size

def counts (d : Document) : List (Kind × Nat) :=
  d.buckets.counts

def producers (d : Document) : List (Entity .dataProducer) :=
  d.get .dataProducer

def devices (d : Document) : List (Entity .device) :=
  d.get .device

end Document

end ShoreMetadata
