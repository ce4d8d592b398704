import ShoreMetadata.Proofs.Store.Ids

/-! When stored entities stay different apart from their ids. An entity that is found by its
id may take over the key of another one, and nothing else makes two of them the same. -/

namespace ShoreMetadata

namespace Store

variable {store store' : Store} {call : Call} {k : Kind} {e found : Entity k}
  {before after : List (Entity k)}

def Apart (entities : List (Entity k)) : Prop :=
  entities.Pairwise fun a b => matchesWithoutId a b = false

instance (entities : List (Entity k)) : Decidable (Apart entities) :=
  inferInstanceAs (Decidable (List.Pairwise _ _))

def KeysDistinct (store : Store) : Prop :=
  ∀ k, Apart (store.stored k)

/-- Whether an entity is found by its id while another one is the same apart from its id. -/
def collides (store : Store) (e : Entity k) : Bool :=
  (e.id?.bind fun id => (store.stored k).findIdx? (hasId id)).any fun place =>
    ((store.stored k).eraseIdx place).any (matchesWithoutId e)

theorem differ_symm {a b : Entity k} (differ : matchesWithoutId a b = false) :
    matchesWithoutId b a = false :=
  Bool.eq_false_iff.mpr fun agree => Bool.eq_false_iff.mp differ (matchesWithoutId_symm agree)

private theorem apart_middle : Apart (before ++ found :: after) ↔
    (∀ other ∈ before ++ after, matchesWithoutId found other = false) ∧
      Apart (before ++ after) :=
  (List.pairwise_middle differ_symm).trans List.pairwise_cons

private theorem collides_of_idFree (idFree : store.IdFree e) : store.collides e = false := by
  rw [collides, findIdx?_hasId_of_idFree idFree]
  rfl

private theorem collides_byId {id : Int64} (stored : store.stored k = before ++ found :: after)
    (own : e.id? = some id) (has : found.id? = some id)
    (first : ∀ other ∈ before, other.id? ≠ some id) :
    store.collides e = (before ++ after).any (matchesWithoutId e) := by
  rw [collides, own, Option.bind_some, stored, findIdx?_hasId has first, Option.any_some,
    List.eraseIdx_append_of_length_le (Nat.le_refl _), Nat.sub_self, List.eraseIdx_cons_zero]

theorem FoundAt.differ_of_not_collides (place : store.FoundAt e before found after)
    (distinct : store.KeysDistinct) (apart : store.collides e = false) :
    ∀ other ∈ before ++ after, matchesWithoutId e other = false := by
  cases place with
  | byId stored own has first =>
      rw [collides_byId stored own has first] at apart
      exact fun other member => Bool.eq_false_iff.mpr (List.any_eq_false.mp apart other member)
  | byKey stored idFree agree first =>
      intro other member
      have held := distinct k
      rw [stored, apart_middle] at held
      refine Bool.eq_false_iff.mpr fun agree' => Bool.eq_false_iff.mp (held.1 other member) ?_
      exact matchesWithoutId_trans (matchesWithoutId_symm agree) agree'

theorem KeysDistinct.setStored (distinct : store.KeysDistinct) {entities : List (Entity k)}
    (new : Apart entities) : (store.setStored k entities).KeysDistinct :=
  forall_stored_setStored (P := fun _ => Apart) new distinct

/-- A call keeps the keys distinct unless it stores an entity that collides. -/
theorem KeysDistinct.step (distinct : store.KeysDistinct) (step : Step store call store')
    (apart : ∀ e, call = .put e → store.collides e.entity = false) : store'.KeysDistinct := by
  cases step with
  | @add k e _ keyFree =>
      refine distinct.setStored (apart_middle.mpr ?_)
      rw [List.append_nil]
      refine ⟨fun other member => ?_, distinct k⟩
      rw [matchesWithoutId_setId]
      exact keyFree other member
  | @replace k e _ _ _ _ place _ =>
      have held := distinct k
      rw [place.stored, apart_middle] at held
      refine distinct.setStored (apart_middle.mpr ⟨fun other member => ?_, held.2⟩)
      rw [matchesWithoutId_setId]
      exact place.differ_of_not_collides distinct (apart ⟨k, e⟩ rfl) other member
  | putFailed => exact distinct
  | @drop k _ _ _ _ place =>
      have held := distinct k
      rw [place.stored, apart_middle] at held
      exact distinct.setStored held.2
  | removeFailed => exact distinct

private theorem not_keysDistinct_of_collides {e : AnyEntity}
    (collision : store.collides e.entity = true) : ¬(store.perform (.put e)).KeysDistinct := by
  obtain ⟨k, e⟩ := e
  intro distinct
  rcases store.free_or_foundAt e with ⟨idFree, _⟩ | ⟨before, found, after, place⟩
  · rw [collides_of_idFree idFree] at collision
    cases collision
  · cases place with
    | byKey _ idFree _ _ =>
        rw [collides_of_idFree idFree] at collision
        cases collision
    | byId stored own has first =>
        have replaced := (FoundAt.byId stored own has first).put_eq has
        have differ := distinct k
        simp only [perform, replaced, stored_setStored_same, apart_middle,
          matchesWithoutId_setId] at differ
        rw [collides_byId stored own has first, List.any_eq_true] at collision
        obtain ⟨other, member, agree⟩ := collision
        rw [differ.1 other member] at agree
        cases agree

private theorem keysDistinct_empty : empty.KeysDistinct := fun k => by
  rw [stored_empty]
  exact .nil

/-- The keys are distinct throughout a run if and only if no call of it stores an entity that
is found by its id and has the key of another one. -/
theorem keysDistinct_run_iff (calls : List Call) :
    (∀ earlier, earlier <+: calls → (run earlier).KeysDistinct) ↔
      ∀ earlier e, earlier ++ [.put e] <+: calls → (run earlier).collides e.entity = false := by
  constructor
  · intro distinct earlier e within
    refine Bool.eq_false_iff.mpr fun collision => not_keysDistinct_of_collides collision ?_
    rw [← run_append_singleton]
    exact distinct _ within
  · intro apart earlier within
    induction earlier using List.reverseRecOn with
    | nil => exact keysDistinct_empty
    | append_singleton earlier call ih =>
        rw [run_append_singleton]
        refine (ih ((List.prefix_append _ _).trans within)).step (step_perform _ call) ?_
        rintro e rfl
        exact apart earlier e within

/-- The second keyword, found by its id, is given the name of the first. -/
theorem keys_not_distinct_run :
    (∀ e ∈ [AnyEntity.keyword "salinity" none, .keyword "depth" none,
        .keyword "salinity" (some 2)], e.NaNFree) ∧
      ¬(run (twoKeywords ++ [.put (.keyword "salinity" (some 2))])).KeysDistinct := by
  refine ⟨by decide +kernel, fun distinct => ?_⟩
  have differ := distinct .keyword
  revert differ
  decide +kernel

end Store

end ShoreMetadata
