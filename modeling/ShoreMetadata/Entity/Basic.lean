import ShoreMetadata.Entity.Values
import ShoreMetadata.Schema.Slot

/-! Entities. An entity has the fields of its kind, a version, and entities in
the slots of its kind, so that every graph of entities is a finite tree. -/

namespace ShoreMetadata

mutual
inductive Entity : Kind → Type
  | mk {k : Kind} (values : Values k.fields) (version : Version) (links : Links k.slots) :
    Entity k

inductive Links : List Slot → Type
  | nil : Links []
  | cons {s : Slot} {ss : List Slot} (members : Members s.arity s.target) (rest : Links ss) :
    Links (s :: ss)

inductive Members : Arity → Kind → Type
  | absent {k : Kind} : Members .one k
  | present {k : Kind} (entity : Entity k) : Members .one k
  | nil {k : Kind} : Members .many k
  | cons {k : Kind} (entity : Entity k) (rest : Members .many k) : Members .many k
end

namespace Members

def empty : (a : Arity) → {k : Kind} → Members a k
  | .one, _ => .absent
  | .many, _ => .nil

def toList : {a : Arity} → {k : Kind} → Members a k → List (Entity k)
  | _, _, .absent => []
  | _, _, .present e => [e]
  | _, _, .nil => []
  | _, _, .cons e rest => e :: rest.toList

def ofList {k : Kind} : List (Entity k) → Members .many k
  | [] => .nil
  | e :: rest => .cons e (ofList rest)

/-- Puts an entity into a slot: it replaces a single one and joins a list behind
the others, unless the list holds the same one already. -/
def accept (same : {k : Kind} → Entity k → Entity k → Bool) :
    {a : Arity} → {k : Kind} → Members a k → Entity k → Members a k
  | _, _, .absent, e => .present e
  | _, _, .present _, e => .present e
  | _, _, .nil, e => .cons e .nil
  | _, _, .cons first rest, e =>
    if same first e then .cons first rest else .cons first (rest.accept same e)

end Members

namespace Links

def empty : (ss : List Slot) → Links ss
  | [] => .nil
  | s :: ss => .cons (.empty s.arity) (empty ss)

def get : {ss : List Slot} → Links ss → (s : Slot) → Members s.arity s.target
  | _, .nil, s => .empty s.arity
  | t :: _, .cons members rest, s => if h : t = s then h ▸ members else rest.get s

def update : {ss : List Slot} → Links ss → (s : Slot) →
    (Members s.arity s.target → Members s.arity s.target) → Links ss
  | _, .nil, _, _ => .nil
  | t :: _, .cons members rest, s, f =>
    if h : t = s then .cons (h ▸ f (h ▸ members)) rest else .cons members (rest.update s f)

def build? [Monad m] (g : (s : Slot) → m (Members s.arity s.target)) :
    (ss : List Slot) → m (Links ss)
  | [] => pure .nil
  | s :: ss => do
    let members ← g s
    let rest ← build? g ss
    return .cons members rest

end Links

namespace Entity

variable {k : Kind}

def empty (k : Kind) : Entity k :=
  .mk (.absent k.fields) .unknown (.empty k.slots)

def values : Entity k → Values k.fields
  | .mk values _ _ => values

def version : Entity k → Version
  | .mk _ version _ => version

def links : Entity k → Links k.slots
  | .mk _ _ links => links

def get? (e : Entity k) (f : Field) : Option f.Value :=
  e.values.get? f

def set (e : Entity k) (f : Field) (value : Option f.Value) : Entity k :=
  .mk (e.values.set f value) e.version e.links

def members (e : Entity k) (s : Slot) : List (Entity s.target) :=
  (e.links.get s).toList

def id? (e : Entity k) : Option Int64 :=
  e.get? .id

def setId (e : Entity k) (id : Option Int64) : Entity k :=
  e.set .id id

def named (k : Kind) (name : String) : Entity k :=
  (empty k).set .name (some name)

end Entity

structure AnyEntity where
  kind : Kind
  entity : Entity kind

namespace AnyEntity

def as? (e : AnyEntity) (k : Kind) : Option (Entity k) :=
  if h : e.kind = k then some (h ▸ e.entity) else none

def id? (e : AnyEntity) : Option Int64 :=
  e.entity.id?

def setId (e : AnyEntity) (id : Option Int64) : AnyEntity :=
  ⟨e.kind, e.entity.setId id⟩

end AnyEntity

end ShoreMetadata
