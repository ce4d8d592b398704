import ShoreMetadata.Entity.Identity

/-! Entities grouped by kind. -/

namespace ShoreMetadata

inductive Buckets : List Kind → Type
  | nil : Buckets []
  | cons {k : Kind} {ks : List Kind} (entities : List (Entity k)) (rest : Buckets ks) :
    Buckets (k :: ks)

namespace Buckets

def empty : (ks : List Kind) → Buckets ks
  | [] => .nil
  | _ :: ks => .cons [] (empty ks)

def get : {ks : List Kind} → Buckets ks → (k : Kind) → List (Entity k)
  | _, .nil, _ => []
  | j :: _, .cons entities rest, k => if h : j = k then h ▸ entities else rest.get k

def set : {ks : List Kind} → Buckets ks → (k : Kind) → List (Entity k) → Buckets ks
  | _, .nil, _, _ => .nil
  | j :: _, .cons entities rest, k, new =>
    if h : j = k then .cons (h ▸ new) rest else .cons entities (rest.set k new)

def toList : {ks : List Kind} → Buckets ks → List AnyEntity
  | _, .nil => []
  | k :: _, .cons entities rest => entities.map (AnyEntity.mk k) ++ rest.toList

def size : {ks : List Kind} → Buckets ks → Nat
  | _, .nil => 0
  | _, .cons entities rest => entities.length + rest.size

def counts : {ks : List Kind} → Buckets ks → List (Kind × Nat)
  | _, .nil => []
  | k :: _, .cons entities rest =>
    if entities.isEmpty then rest.counts else (k, entities.length) :: rest.counts

end Buckets

end ShoreMetadata
