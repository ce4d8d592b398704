import ShoreMetadata.Proofs.Entity.Identity

/-! The id of an entity: what setting it changes, and sameness of entities that have none. -/

namespace ShoreMetadata

private theorem Kind.id_mem_fields (k : Kind) : Field.id ∈ k.fields := by
  cases k <;> decide

namespace Entity

variable {k : Kind} {a b c : Entity k}

@[simp] theorem id?_setId (e : Entity k) (id : Option Int64) : (e.setId id).id? = id :=
  e.get?_set_same k.id_mem_fields id

private theorem get?_setId_of_ne (e : Entity k) {f : Field} (other : .id ≠ f) (id : Option Int64) :
    (e.setId id).get? f = e.get? f :=
  e.get?_set_of_ne other id

@[simp] theorem setId_setId (e : Entity k) (id id' : Option Int64) :
    (e.setId id).setId id' = e.setId id' :=
  e.set_set_same .id id id'

theorem NaNFree.setId (known : a.NaNFree) (id : Option Int64) : (a.setId id).NaNFree := by
  refine .intro (fun ⟨f, value⟩ member => ?_) known.inside
  by_cases own : Field.id = f
  · subst own
    rfl
  · have stored : (a.setId id).get? f = some value :=
      (Values.mem_entries_iff k.nodup_fields _).mp member
    rw [get?_setId_of_ne _ own] at stored
    exact known.here _ ((Values.mem_entries_iff k.nodup_fields _).mpr stored)

/-- No producer without an id shares one, so that only names tell such producers apart. -/
theorem idFollowsName_of_no_id {p q r : Entity .dataProducer} (noId : p.id? = none) :
    p.IdFollowsName q r := by
  intro _ _ _ shared
  have has : (p.get? .id).isSome = true := shared.1
  rw [show p.get? .id = none from noId] at has
  cases has

theorem same_trans_of_no_id (noIdA : a.id? = none) (noIdB : b.id? = none)
    (first : a.same b = true) (second : b.same c = true) : a.same c = true := by
  cases byId : k.fallsBackToId with
  | false => exact same_trans byId first second
  | true =>
      obtain rfl := Kind.eq_dataProducer_of_fallsBackToId byId
      exact same_trans_of_names (idFollowsName_of_no_id noIdA) (idFollowsName_of_no_id noIdB)
        (idFollowsName_of_no_id noIdB) first second

end Entity

end ShoreMetadata
