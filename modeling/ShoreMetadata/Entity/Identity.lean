import ShoreMetadata.Entity.Basic

/-! When two entities are equal, and when they stand for the same thing. -/

namespace ShoreMetadata

mutual
def Entity.equal : {k : Kind} → Entity k → Entity k → Bool
  | _, .mk values version links, .mk values' version' links' =>
    values.same values' && version == version' && Links.equal links links'

def Links.equal : {ss : List Slot} → Links ss → Links ss → Bool
  | _, .nil, .nil => true
  | _, .cons members rest, .cons members' rest' =>
    Members.equal members members' && Links.equal rest rest'

def Members.equal : {a : Arity} → {k : Kind} → Members a k → Members a k → Bool
  | _, _, .absent, .absent => true
  | _, _, .present e, .present e' => Entity.equal e e'
  | _, _, .nil, .nil => true
  | _, _, .cons e rest, .cons e' rest' => Entity.equal e e' && Members.equal rest rest'
  | _, _, _, _ => false
end

/-- The fields that identify entities of a kind: two entities that both have the
leading field are the same if it and the further fields agree. -/
structure NaturalKey where
  leading : Field
  further : List Field

namespace Kind

def naturalKey? : Kind → Option NaturalKey
  | .commentTag => some ⟨.tagString, []⟩
  | .dataContainer => some ⟨.uriString, []⟩
  | .dataProducer => some ⟨.name, [.dataProducerType, .startDate]⟩
  | .device => some ⟨.uuid, []⟩
  | .event => some ⟨.name, [.startDate, .endDate]⟩
  | .person => some ⟨.username, []⟩
  | .resource => some ⟨.uriString, []⟩
  | .software => some ⟨.name, [.softwareVersion]⟩
  | .standardVariable => some ⟨.name, [.namespaceUriString]⟩
  | .userGroup => some ⟨.groupName, []⟩
  | .headerDescription | .recordDescription | .recordVariable | .resourceBlob => none
  | _ => some ⟨.name, []⟩

def fallsBackToId : Kind → Bool
  | .dataProducer => true
  | _ => false

end Kind

namespace Entity

variable {k : Kind}

def agreeOn (a b : Entity k) (f : Field) : Bool :=
  Values.sameOption f.type (a.get? f) (b.get? f)

def bothHave? (a b : Entity k) (f : Field) : Option Bool :=
  match a.get? f, b.get? f with
  | some x, some y => some (f.type.same x y)
  | _, _ => none

def sameWithoutKey (a b : Entity k) : Bool :=
  if k.fallsBackToId then (bothHave? a b .id).getD (a.equal b) else a.equal b

def same (a b : Entity k) : Bool :=
  match k.naturalKey? with
  | none => a.equal b
  | some key =>
    match bothHave? a b key.leading with
    | some agree => agree && key.further.all (agreeOn a b)
    | none => sameWithoutKey a b

end Entity

namespace AnyEntity

def same (a b : AnyEntity) : Bool :=
  match b.as? a.kind with
  | some e => a.entity.same e
  | none => false

def equal (a b : AnyEntity) : Bool :=
  match b.as? a.kind with
  | some e => a.entity.equal e
  | none => false

end AnyEntity

end ShoreMetadata
