import ShoreMetadata.Proofs.Store.Effect
import ShoreMetadata.Proofs.Store.Keys

/-! When a removal is final: an entity that was found by its id may have the key of another
one, which is then found for it. -/

namespace ShoreMetadata

namespace Store

variable {store store' : Store} {used : List Int64} {k : Kind} {e found : Entity k}
  {before after : List (Entity k)}

private theorem exists_foundAt_of_remove (removed : store.remove e = .ok store') :
    ∃ before found after, store.FoundAt e before found after ∧
      store' = store.setStored k (before ++ after) := by
  rcases store.free_or_foundAt e with ⟨idFree, keyFree⟩ | ⟨before, found, after, place⟩
  · rw [remove_of_free idFree keyFree] at removed
    cases removed
  · rw [place.remove_eq] at removed
    cases removed
    exact ⟨before, found, after, place, rfl⟩

/-- Whether a stored entity has the id of an entity or is the same apart from its id. -/
def standsFor (e stored : Entity k) : Bool :=
  e.id?.any (fun id => hasId id stored) || matchesWithoutId e stored

private theorem free_iff_forall_standsFor :
    store.IdFree e ∧ store.KeyFree e ↔ ∀ other ∈ store.stored k, standsFor e other = false := by
  have both : ∀ other, standsFor e other = false ↔
      (∀ id, e.id? = some id → other.id? ≠ some id) ∧ matchesWithoutId e other = false := by
    intro other
    rw [standsFor, Bool.or_eq_false_iff]
    cases e.id? with
    | none => simp
    | some id => simp [hasId_eq_false_iff]
  constructor
  · rintro ⟨idFree, keyFree⟩ other member
    exact (both other).mpr ⟨fun id own => idFree id own other member, keyFree other member⟩
  · intro free
    refine ⟨fun id own other member => ?_, fun other member => ?_⟩
    · exact ((both other).mp (free other member)).1 id own
    · exact ((both other).mp (free other member)).2

private theorem FoundAt.standsFor_found (place : store.FoundAt e before found after) :
    standsFor e found = true := by
  cases place with
  | byId _ own has _ => simp [standsFor, own, hasId_iff.mpr has]
  | byKey _ _ agree _ => simp [standsFor, agree]

private theorem FoundAt.countP_standsFor (place : store.FoundAt e before found after) :
    (store.stored k).countP (standsFor e) = (before ++ after).countP (standsFor e) + 1 := by
  rw [place.stored, List.countP_append, List.countP_cons_of_pos place.standsFor_found,
    List.countP_append, Nat.add_assoc]

/-- Nothing is found for an entity, and removing it fails and leaves the store as it is. -/
structure Gone (store : Store) (e : Entity k) : Prop where
  idOf? : store.idOf? e = none
  fails : store.remove e = .error (.notPersistent k)
  unchanged : store.perform (.remove ⟨k, e⟩) = store

private theorem gone_of_free (idFree : store.IdFree e) (keyFree : store.KeyFree e) :
    store.Gone e := by
  have failed := remove_of_free idFree keyFree
  exact ⟨idOf?_of_free idFree keyFree, failed, by simp only [perform, failed]⟩

private theorem HasIds.gone_iff (hasIds : store.HasIds) :
    store.Gone e ↔ store.IdFree e ∧ store.KeyFree e :=
  ⟨fun gone => hasIds.idOf?_eq_none_iff.mp gone.idOf?, fun free => gone_of_free free.1 free.2⟩

private theorem FoundAt.gone_iff (place : store.FoundAt e before found after)
    (hasIds : store.HasIds) :
    (store.setStored k (before ++ after)).Gone e ↔
      (store.stored k).countP (standsFor e) = 1 := by
  rw [(hasIds.step (.drop place)).gone_iff, free_iff_forall_standsFor, stored_setStored_same,
    place.countP_standsFor, Nat.add_eq_right, List.countP_eq_zero]
  simp only [Bool.not_eq_true]

private theorem WellNumbered.idFree_removed (numbered : store.WellNumbered used)
    (place : store.FoundAt e before found after) :
    (store.setStored k (before ++ after)).IdFree e := by
  intro id own
  rw [stored_setStored_same]
  cases place with
  | byId stored own' has _ =>
      cases own.symm.trans own'
      exact numbered.others_ne stored has
  | byKey stored idFree _ _ =>
      have free := idFree id own
      rw [stored, forall_mem_middle] at free
      exact free.2

/-- After an entity has been removed it is found no more, and removing it again fails without
effect, if and only if just one stored entity had its id or was the same apart from its id. So it
is while the ids from outside leave room for those of the store and no two stored entities are
the same apart from their ids, unless the entity is found by its id and the same as another. -/
theorem removal_final_iff (calls : List Call) {k : Kind} (e : Entity k) {store' : Store}
    (removed : (run calls).remove e = .ok store') :
    (store'.Gone e ↔ ((run calls).stored k).countP (standsFor e) = 1) ∧
      (LeavesRoom calls → (run calls).KeysDistinct → (run calls).collides e = false →
        store'.Gone e) := by
  obtain ⟨before, found, after, place, rfl⟩ := exists_foundAt_of_remove removed
  refine ⟨place.gone_iff (hasIds_run calls), fun room distinct apart => ?_⟩
  apply gone_of_free ((wellNumbered_run (usedIds_lt room)).idFree_removed place)
  rw [KeyFree, stored_setStored_same]
  exact place.differ_of_not_collides distinct apart

theorem removal_final_iff_keyword :
    (run twoKeywords).remove (AnyEntity.keyword "depth" (some 2)).entity =
        .ok (run (twoKeywords ++ [.remove (.keyword "depth" (some 2))])) ∧
      ((run twoKeywords).stored .keyword).countP
        (standsFor (AnyEntity.keyword "depth" (some 2)).entity) = 1 ∧
      LeavesRoom twoKeywords ∧ (run twoKeywords).KeysDistinct ∧
      (run twoKeywords).collides (AnyEntity.keyword "depth" (some 2)).entity = false ∧
      (run (twoKeywords ++ [.remove (.keyword "depth" (some 2))])).Gone
        (AnyEntity.keyword "depth" (some 2)).entity := by
  have removed : (run twoKeywords).remove (AnyEntity.keyword "depth" (some 2)).entity =
      .ok (run (twoKeywords ++ [.remove (.keyword "depth" (some 2))])) := by rfl
  have room : LeavesRoom twoKeywords := by decide +kernel
  have distinct : (run twoKeywords).KeysDistinct := by
    intro k
    cases k <;> decide +kernel
  have apart : (run twoKeywords).collides (AnyEntity.keyword "depth" (some 2)).entity = false := by
    decide +kernel
  obtain ⟨final, always⟩ := removal_final_iff _ _ removed
  have gone := always room distinct apart
  exact ⟨removed, final.mp gone, room, distinct, apart, gone⟩

/-- A keyword with the id of one that is stored and the name of another is removed twice: the
second time it is the other that goes. -/
theorem second_removal_of_another :
    (run twoKeywords).idOf? (AnyEntity.keyword "depth" (some 1)).entity = some 1 ∧
      (run (twoKeywords ++ [.remove (.keyword "depth" (some 1))])).idOf?
        (AnyEntity.keyword "depth" (some 1)).entity = some 2 ∧
      (run (twoKeywords ++ [.remove (.keyword "depth" (some 1)),
        .remove (.keyword "depth" (some 1))])).size = 0 := by
  decide +kernel

end Store

end ShoreMetadata
