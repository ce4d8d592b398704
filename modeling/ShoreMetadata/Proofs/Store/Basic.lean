import ShoreMetadata.Proofs.Document.Basic
import ShoreMetadata.Proofs.Entity.Id
import ShoreMetadata.Store

/-! What a store finds for an entity, and what its operations do with that. -/

namespace ShoreMetadata

namespace Buckets

private theorem set_get : {ks : List Kind} → (b : Buckets ks) → (k : Kind) → b.set k (b.get k) = b
  | _, .nil, _ => rfl
  | j :: _, .cons held rest, k => by
      by_cases same : j = k
      · subst same
        simp [set, get]
      · simp [set, get, same, set_get rest k]

private theorem size_set : {ks : List Kind} → (b : Buckets ks) → {k : Kind} → k ∈ ks →
    (entities : List (Entity k)) →
    (b.set k entities).size + (b.get k).length = b.size + entities.length
  | _, .nil, _, member, _ => by cases member
  | j :: _, .cons held rest, k, member, entities => by
      by_cases same : j = k
      · subst same
        simp only [set, get, size, dite_true]
        omega
      · have more := (List.mem_cons.mp member).resolve_left (Ne.symm same)
        have rest := size_set rest more entities
        simp only [set, get, size, same, dite_false]
        omega

end Buckets

namespace Store

variable {store : Store} {k : Kind} {e other : Entity k}

@[simp] theorem stored_empty (k : Kind) : empty.stored k = [] :=
  Buckets.get_empty Kind.all k

@[simp] theorem stored_setStored_same (store : Store) (entities : List (Entity k)) :
    (store.setStored k entities).stored k = entities :=
  store.buckets.get_set_same k.mem_all entities

theorem stored_setStored_of_ne {j : Kind} (differ : j ≠ k) (store : Store)
    (entities : List (Entity k)) : (store.setStored k entities).stored j = store.stored j :=
  store.buckets.get_set_of_ne differ.symm entities

theorem setStored_stored (store : Store) (k : Kind) :
    store.setStored k (store.stored k) = store := by
  simp only [setStored, stored, Buckets.set_get]

theorem size_setStored (store : Store) (entities : List (Entity k)) :
    (store.setStored k entities).size + (store.stored k).length =
      store.size + entities.length :=
  store.buckets.size_set k.mem_all entities

theorem mem_toList {e : AnyEntity} :
    e ∈ store.buckets.toList ↔ e.entity ∈ store.stored e.kind :=
  Document.mem_toList (d := ⟨store.buckets⟩)

theorem hasId_iff {id : Int64} : hasId id e = true ↔ e.id? = some id := by
  simp [hasId]

theorem hasId_eq_false_iff {id : Int64} : hasId id e = false ↔ e.id? ≠ some id := by
  simp [hasId]

theorem matchesWithoutId_refl (known : e.NaNFree) (id : Option Int64) :
    matchesWithoutId e (e.setId id) = true := by
  rw [matchesWithoutId, Entity.setId_setId]
  exact Entity.same_refl (known.setId none)

theorem matchesWithoutId_symm {a b : Entity k} (agree : matchesWithoutId a b = true) :
    matchesWithoutId b a = true :=
  Entity.same_symm agree

theorem matchesWithoutId_trans {a b c : Entity k} (first : matchesWithoutId a b = true)
    (second : matchesWithoutId b c = true) : matchesWithoutId a c = true :=
  Entity.same_trans_of_no_id (by simp) (by simp) second first

@[simp] theorem matchesWithoutId_setId (e other : Entity k) (id : Option Int64) :
    matchesWithoutId (e.setId id) other = matchesWithoutId e other := by
  simp [matchesWithoutId]

/-! Where an entity is found: at the first entity that has its id, or else at the first that
is the same apart from its id. -/

def IdFree (store : Store) (e : Entity k) : Prop :=
  ∀ id, e.id? = some id → ∀ other ∈ store.stored k, other.id? ≠ some id

/-- No stored entity is the same as this one apart from its id. -/
def KeyFree (store : Store) (e : Entity k) : Prop :=
  ∀ other ∈ store.stored k, matchesWithoutId e other = false

inductive FoundAt (store : Store) (e : Entity k) (before : List (Entity k)) (found : Entity k)
    (after : List (Entity k)) : Prop
  | byId {id : Int64} (stored : store.stored k = before ++ found :: after)
    (own : e.id? = some id) (has : found.id? = some id)
    (first : ∀ other ∈ before, other.id? ≠ some id) : FoundAt store e before found after
  | byKey (stored : store.stored k = before ++ found :: after) (idFree : store.IdFree e)
    (agree : matchesWithoutId e found = true)
    (first : ∀ other ∈ before, matchesWithoutId e other = false) :
    FoundAt store e before found after

variable {before after : List (Entity k)} {found : Entity k}

theorem FoundAt.stored (place : store.FoundAt e before found after) :
    store.stored k = before ++ found :: after := by
  cases place <;> assumption

theorem forall_mem_middle {α : Type} {P : α → Prop} {before after : List α} {x : α} :
    (∀ y ∈ before ++ x :: after, P y) ↔ P x ∧ ∀ y ∈ before ++ after, P y := by
  rw [List.forall_mem_append, List.forall_mem_cons, List.forall_mem_append, and_left_comm]

private theorem exists_first {α : Type} (p : α → Bool) {xs : List α}
    (holds : ∃ x ∈ xs, p x = true) :
    ∃ before x after, xs = before ++ x :: after ∧ p x = true ∧ ∀ y ∈ before, p y = false := by
  obtain ⟨x, found⟩ := Option.isSome_iff_exists.mp (List.find?_isSome.mpr holds)
  obtain ⟨here, before, after, split, first⟩ := List.find?_eq_some_iff_append.mp found
  exact ⟨before, x, after, split, here, by simpa using first⟩

theorem free_or_foundAt (store : Store) (e : Entity k) :
    store.IdFree e ∧ store.KeyFree e ∨
      ∃ before found after, store.FoundAt e before found after := by
  by_cases idFree : store.IdFree e
  · by_cases keyFree : store.KeyFree e
    · exact .inl ⟨idFree, keyFree⟩
    · right
      obtain ⟨before, found, after, split, agree, first⟩ :=
        exists_first (matchesWithoutId e) (by simpa [KeyFree] using keyFree)
      exact ⟨before, found, after, .byKey split idFree agree first⟩
  · right
    simp only [IdFree, not_forall, not_not] at idFree
    obtain ⟨id, own, held⟩ := idFree
    obtain ⟨before, found, after, split, has, first⟩ :=
      exists_first (hasId id) (by simpa [hasId_iff] using held)
    exact ⟨before, found, after, .byId split own (hasId_iff.mp has) fun other member =>
      hasId_eq_false_iff.mp (first other member)⟩

private theorem findIdx?_first {α : Type} {p : α → Bool} {before after : List α} {x : α}
    (holds : p x = true) (first : ∀ y ∈ before, p y = false) :
    (before ++ x :: after).findIdx? p = some before.length := by
  rw [List.findIdx?_append, List.findIdx?_eq_none_iff.mpr first]
  simp [List.findIdx?_cons, holds]

theorem findIdx?_hasId {id : Int64} (has : found.id? = some id)
    (first : ∀ other ∈ before, other.id? ≠ some id) :
    (before ++ found :: after).findIdx? (hasId id) = some before.length :=
  findIdx?_first (hasId_iff.mpr has) fun other member =>
    hasId_eq_false_iff.mpr (first other member)

theorem findIdx?_hasId_of_idFree (idFree : store.IdFree e) :
    (e.id?.bind fun id => (store.stored k).findIdx? (hasId id)) = none := by
  cases own : e.id? with
  | none => rfl
  | some id =>
      rw [Option.bind_some, List.findIdx?_eq_none_iff]
      exact fun other member => hasId_eq_false_iff.mpr (idFree id own other member)

theorem FoundAt.position?_eq (place : store.FoundAt e before found after) :
    store.position? e = some before.length := by
  cases place with
  | byId stored own has first =>
      rw [position?, own, Option.bind_some, stored, findIdx?_hasId has first, Option.some_or]
  | byKey stored idFree agree first =>
      rw [position?, findIdx?_hasId_of_idFree idFree, Option.none_or, stored]
      exact findIdx?_first agree first

private theorem position?_eq_none_of_free (idFree : store.IdFree e) (keyFree : store.KeyFree e) :
    store.position? e = none := by
  rw [position?, findIdx?_hasId_of_idFree idFree, Option.none_or]
  exact List.findIdx?_eq_none_iff.mpr keyFree

theorem position?_eq_none_iff :
    store.position? e = none ↔ store.IdFree e ∧ store.KeyFree e := by
  refine ⟨fun nowhere => ?_, fun free => position?_eq_none_of_free free.1 free.2⟩
  refine (store.free_or_foundAt e).resolve_right ?_
  rintro ⟨before, found, after, place⟩
  rw [place.position?_eq] at nowhere
  cases nowhere

theorem FoundAt.idOf?_eq (place : store.FoundAt e before found after) :
    store.idOf? e = found.id? := by
  simp [idOf?, place.position?_eq, place.stored]

theorem FoundAt.put_eq (place : store.FoundAt e before found after) {id : Int64}
    (has : found.id? = some id) : store.put e =
      .ok (store.setStored k (before ++ e.setId (some id) :: after), id) := by
  simp [put, place.position?_eq, place.stored, has]

theorem FoundAt.remove_eq (place : store.FoundAt e before found after) :
    store.remove e = .ok (store.setStored k (before ++ after)) := by
  simp [remove, place.position?_eq, place.stored, List.eraseIdx_append_of_length_le]

theorem idOf?_of_free (idFree : store.IdFree e) (keyFree : store.KeyFree e) :
    store.idOf? e = none := by
  simp [idOf?, position?_eq_none_of_free idFree keyFree]

theorem put_of_free (idFree : store.IdFree e) (keyFree : store.KeyFree e) :
    store.put e = .ok (store.add e) := by
  simp [put, position?_eq_none_of_free idFree keyFree]

theorem remove_of_free (idFree : store.IdFree e) (keyFree : store.KeyFree e) :
    store.remove e = .error (.notPersistent k) := by
  simp [remove, position?_eq_none_of_free idFree keyFree]

theorem stored_add (store : Store) (e : Entity k) :
    (store.add e).1.stored k = store.stored k ++ [e.setId (some (store.add e).2)] :=
  store.stored_setStored_same _

theorem stored_add_of_ne {j : Kind} (differ : j ≠ k) (store : Store) (e : Entity k) :
    (store.add e).1.stored j = store.stored j :=
  stored_setStored_of_ne differ store _

theorem size_add (store : Store) (e : Entity k) : (store.add e).1.size = store.size + 1 := by
  have sizes := store.size_setStored (store.stored k ++ [e.setId (some (store.add e).2)])
  rw [List.length_append, List.length_singleton] at sizes
  have grown : (store.setStored k (store.stored k ++ [e.setId (some (store.add e).2)])).size =
      store.size + 1 := by omega
  exact grown

end Store

end ShoreMetadata
