import ShoreMetadata.Proofs.Store.Ids

/-! The effect of one call: it changes the entity it is about, and nothing else. -/

namespace ShoreMetadata

namespace Store

variable {store store' : Store} {used : List Int64} {k : Kind} {e found : Entity k}
  {before after : List (Entity k)} {id : Int64}

/-- What storing an entity under an id makes of a store. -/
structure Stored (store : Store) (e : Entity k) (store' : Store) (id : Int64) : Prop where
  find? : store'.find? k id = some (e.setId (some id))
  idOf? : store'.idOf? e = some id
  others : (store'.stored k).filter (fun other => !hasId id other) =
    (store.stored k).filter fun other => !hasId id other
  otherKinds : ∀ j, j ≠ k → store'.stored j = store.stored j
  size : store'.size = if store.idOf? e = none then store.size + 1 else store.size
  again : store'.put e = .ok (store', id)

structure Removed (store : Store) (k : Kind) (id : Int64) (store' : Store) : Prop where
  stored : store'.stored k = (store.stored k).filter fun other => !hasId id other
  otherKinds : ∀ j, j ≠ k → store'.stored j = store.stored j
  nextId : store'.nextId = store.nextId
  size : store'.size + 1 = store.size

private theorem find?_of_stored (stored : store.stored k = before ++ found :: after)
    (has : found.id? = some id) (first : ∀ other ∈ before, other.id? ≠ some id) :
    store.find? k id = some found :=
  List.find?_eq_some_iff_append.mpr ⟨hasId_iff.mpr has, before, after, stored,
    fun other member => by rw [hasId_eq_false_iff.mpr (first other member), Bool.not_false]⟩

private theorem FoundAt.put_self (place : store.FoundAt e before (e.setId (some id)) after) :
    store.put e = .ok (store, id) := by
  rw [place.put_eq (e.id?_setId (some id)), ← place.stored, setStored_stored]

theorem filter_eq_self {others : List (Entity k)}
    (differ : ∀ other ∈ others, other.id? ≠ some id) :
    others.filter (fun other => !hasId id other) = others :=
  List.filter_eq_self.mpr fun other member => by
    rw [hasId_eq_false_iff.mpr (differ other member), Bool.not_false]

private theorem filter_others (differ : ∀ other ∈ before ++ after, other.id? ≠ some id)
    (has : found.id? = some id) :
    (before ++ found :: after).filter (fun other => !hasId id other) = before ++ after := by
  rw [List.forall_mem_append] at differ
  have out : hasId id found = true := hasId_iff.mpr has
  simp [out, filter_eq_self differ.1, filter_eq_self differ.2]

namespace WellNumbered

variable (numbered : store.WellNumbered used)
include numbered

theorem others_ne (stored : store.stored k = before ++ found :: after)
    (has : found.id? = some id) : ∀ other ∈ before ++ after, other.id? ≠ some id := by
  have distinct := numbered.distinct k
  rw [stored, List.map_append, List.map_cons, List.nodup_middle, ← List.map_append, has,
    List.nodup_cons] at distinct
  intro other member same
  exact distinct.1 (List.mem_map.mpr ⟨other, member, same⟩)

theorem stored_add (idFree : store.IdFree e) (keyFree : store.KeyFree e) (known : e.NaNFree) :
    store.Stored e (store.add e).1 (store.add e).2 := by
  have others : ∀ other ∈ store.stored k, other.id? ≠ some (store.add e).2 :=
    fun other member same =>
      numbered.new_not_mem idFree (List.mem_map.mpr ⟨other, member, same⟩)
  have has : (e.setId (some (store.add e).2)).id? = some (store.add e).2 := e.id?_setId _
  have now : (store.add e).1.FoundAt e (store.stored k) (e.setId (some (store.add e).2)) [] := by
    cases own : e.id? with
    | none =>
        refine .byKey (store.stored_add e) (fun id own' => ?_)
          (matchesWithoutId_refl known _) keyFree
        rw [own] at own'
        cases own'
    | some id =>
        have same : (store.add e).2 = id := by
          simp [Store.add, own]
        refine .byId (store.stored_add e) own ?_ (idFree id own)
        rw [has, same]
  refine ⟨find?_of_stored (store.stored_add e) has others, now.idOf?_eq.trans has, ?_,
    fun j differ => stored_add_of_ne differ store e, ?_, now.put_self⟩
  · rw [store.stored_add e, filter_others (by simpa using others) has, List.append_nil,
      filter_eq_self others]
  · rw [if_pos (idOf?_of_free idFree keyFree), size_add]

theorem removed (place : store.FoundAt e before found after) (has : found.id? = some id) :
    store.Removed k id (store.setStored k (before ++ after)) := by
  have sizes := store.size_setStored (before ++ after)
  rw [place.stored] at sizes
  refine ⟨?_, fun j differ => stored_setStored_of_ne differ store _, rfl, ?_⟩
  · rw [stored_setStored_same, place.stored,
      filter_others (numbered.others_ne place.stored has) has]
  · simp only [List.length_append, List.length_cons] at sizes
    omega

end WellNumbered

end Store

end ShoreMetadata
