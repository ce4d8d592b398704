import ShoreMetadata.Entity.Buckets

/-! A store of entities with ids. An entity is found by its id or else as the
same thing under another id. -/

namespace ShoreMetadata

structure Store where
  buckets : Buckets Kind.all
  nextId : Int64

namespace Store

def empty : Store :=
  ⟨.empty Kind.all, 1⟩

def size (store : Store) : Nat :=
  store.buckets.size

def stored (store : Store) (k : Kind) : List (Entity k) :=
  store.buckets.get k

def matchesWithoutId {k : Kind} (e stored : Entity k) : Bool :=
  (stored.setId none).same (e.setId none)

def hasId {k : Kind} (id : Int64) (stored : Entity k) : Bool :=
  stored.id? = some id

def position? (store : Store) {k : Kind} (e : Entity k) : Option Nat :=
  let byId := e.id?.bind fun id => (store.stored k).findIdx? (hasId id)
  byId.or ((store.stored k).findIdx? (matchesWithoutId e))

def find? (store : Store) (k : Kind) (id : Int64) : Option (Entity k) :=
  (store.stored k).find? (hasId id)

def idOf? (store : Store) {k : Kind} (e : Entity k) : Option Int64 := do
  let place ← store.position? e
  let stored ← (store.stored k)[place]?
  stored.id?

def setStored (store : Store) (k : Kind) (entities : List (Entity k)) : Store :=
  { store with buckets := store.buckets.set k entities }

def add (store : Store) {k : Kind} (e : Entity k) : Store × Int64 :=
  let fresh := max store.nextId 1
  let id := e.id?.getD fresh
  let nextId := if e.id?.isSome then store.nextId else fresh + 1
  ({ store.setStored k (store.stored k ++ [e.setId (some id)]) with
      nextId := max nextId (id + 1) }, id)

inductive Fault where
  | notPersistent (kind : Kind)
  | noId (kind : Kind)
deriving DecidableEq

def Fault.message : Fault → String
  | .notPersistent kind => s!"{kind.tag} is not persistent"
  | .noId kind => s!"Storage backend error: stored {kind.tag} has no id"

/-- Stores an entity in place of its equivalent, whose id it takes over, or as a
new one. -/
def put (store : Store) {k : Kind} (e : Entity k) : Except Fault (Store × Int64) :=
  match store.position? e with
  | none => .ok (store.add e)
  | some place =>
    match (store.stored k)[place]?.bind Entity.id? with
    | none => .error (.noId k)
    | some id =>
      .ok (store.setStored k ((store.stored k).set place (e.setId (some id))), id)

def remove (store : Store) {k : Kind} (e : Entity k) : Except Fault Store :=
  match store.position? e with
  | none => .error (.notPersistent k)
  | some place => .ok (store.setStored k ((store.stored k).eraseIdx place))

end Store

end ShoreMetadata
