import Mathlib.Data.List.Infix
import ShoreMetadata.Proofs.Store.Basic

/-! Runs of a store: calls one after the other from the empty store, and the ids its
entities get. -/

namespace ShoreMetadata

namespace Store

inductive Call where
  | put (e : AnyEntity)
  | remove (e : AnyEntity)

/-- The store after a call. A call that fails leaves it as it was. -/
def perform (store : Store) : Call → Store
  | .put e =>
    match store.put e.entity with
    | .ok (store', _) => store'
    | .error _ => store
  | .remove e =>
    match store.remove e.entity with
    | .ok store' => store'
    | .error _ => store

def run (calls : List Call) : Store :=
  calls.foldl perform empty

def Call.id? : Call → Option Int64
  | .put e => e.id?
  | .remove _ => none

/-- The highest id that can have been in use after a call, by the highest before it: an entity
that has no id may be given the one above. -/
def Call.highest (before : Int) : Call → Int
  | .put e =>
    match e.id? with
    | some id => max before id.toInt
    | none => before + 1
  | .remove _ => before

/-- The ids from outside leave room for those of the store: each of them is so far below the last
id there is as there are later entities that have none. -/
def LeavesRoom (calls : List Call) : Prop :=
  calls.foldl Call.highest 0 < Int64.maxValue.toInt

instance (calls : List Call) : Decidable (LeavesRoom calls) :=
  inferInstanceAs (Decidable (_ < _))

def ids (store : Store) : List Int64 :=
  store.buckets.toList.filterMap AnyEntity.id?

/-- The ids that entities had at any time in a run. -/
def usedIds (calls : List Call) : List Int64 :=
  calls.inits.flatMap fun earlier => (run earlier).ids

variable {store store' : Store} {call : Call} {calls : List Call} {used : List Int64} {k : Kind}
  {e : Entity k} {id : Int64}

@[simp] theorem run_nil : run [] = empty := rfl

@[simp] theorem run_append_singleton (calls : List Call) (call : Call) :
    run (calls ++ [call]) = (run calls).perform call := by
  simp [run]

theorem mem_ids : id ∈ store.ids ↔ ∃ k, ∃ e ∈ store.stored k, e.id? = some id := by
  rw [ids, List.mem_filterMap]
  constructor
  · rintro ⟨e, member, has⟩
    exact ⟨e.kind, e.entity, mem_toList.mp member, has⟩
  · rintro ⟨k, e, member, has⟩
    exact ⟨⟨k, e⟩, mem_toList.mpr member, has⟩

@[simp] theorem ids_empty : empty.ids = [] :=
  List.eq_nil_iff_forall_not_mem.mpr fun id member => by
    simp [mem_ids] at member

@[simp] theorem usedIds_nil : usedIds [] = [] := by
  simp [usedIds]

theorem usedIds_append_singleton (calls : List Call) (call : Call) :
    usedIds (calls ++ [call]) = usedIds calls ++ ((run calls).perform call).ids := by
  simp [usedIds]

theorem mem_usedIds :
    id ∈ usedIds calls ↔ ∃ earlier, earlier <+: calls ∧ id ∈ (run earlier).ids := by
  simp [usedIds]

inductive Step (store : Store) : Call → Store → Prop
  | add {k : Kind} {e : Entity k} (idFree : store.IdFree e) (keyFree : store.KeyFree e) :
    Step store (.put ⟨k, e⟩) (store.add e).1
  | replace {k : Kind} {e found : Entity k} {before after : List (Entity k)} {id : Int64}
    (place : store.FoundAt e before found after) (has : found.id? = some id) :
    Step store (.put ⟨k, e⟩) (store.setStored k (before ++ e.setId (some id) :: after))
  | putFailed {k : Kind} {e found : Entity k} {before after : List (Entity k)}
    (place : store.FoundAt e before found after) (lacks : found.id? = none) :
    Step store (.put ⟨k, e⟩) store
  | drop {k : Kind} {e found : Entity k} {before after : List (Entity k)}
    (place : store.FoundAt e before found after) :
    Step store (.remove ⟨k, e⟩) (store.setStored k (before ++ after))
  | removeFailed {k : Kind} {e : Entity k} (idFree : store.IdFree e) (keyFree : store.KeyFree e) :
    Step store (.remove ⟨k, e⟩) store

theorem step_perform (store : Store) (call : Call) : Step store call (store.perform call) := by
  cases call with
  | put e =>
      obtain ⟨k, e⟩ := e
      rcases store.free_or_foundAt e with ⟨idFree, keyFree⟩ | ⟨before, found, after, place⟩
      · simp only [perform, put_of_free idFree keyFree]
        exact .add idFree keyFree
      · cases has : found.id? with
        | none =>
            have failed : store.put e = .error (.noId k) := by
              simp [put, place.position?_eq, place.stored, has]
            simp only [perform, failed]
            exact .putFailed place has
        | some id =>
            simp only [perform, place.put_eq has]
            exact .replace place has
  | remove e =>
      obtain ⟨k, e⟩ := e
      rcases store.free_or_foundAt e with ⟨idFree, keyFree⟩ | ⟨before, found, after, place⟩
      · simp only [perform, remove_of_free idFree keyFree]
        exact .removeFailed idFree keyFree
      · simp only [perform, place.remove_eq]
        exact .drop place

end Store

/-! Two keywords that the later examples start from, stored under the ids 1 and 2. -/

def AnyEntity.keyword (name : String) (id : Option Int64) : AnyEntity :=
  ⟨.keyword, (Entity.named .keyword name).setId id⟩

def Store.twoKeywords : List Call :=
  [.put (.keyword "salinity" none), .put (.keyword "depth" none)]

end ShoreMetadata
