import Mathlib.Data.List.Nodup
import ShoreMetadata.Proofs.Store.Run

/-! The ids of stored entities: each has one of its own, and the next id to give out is above
all that were ever in use. -/

namespace ShoreMetadata

namespace Store

variable {store store' : Store} {call : Call} {calls : List Call} {used : List Int64} {k : Kind}
  {e : Entity k} {id : Int64}

theorem forall_stored_setStored {P : (j : Kind) → List (Entity j) → Prop}
    {entities : List (Entity k)} (new : P k entities) (others : ∀ j, P j (store.stored j)) :
    ∀ j, P j ((store.setStored k entities).stored j) := by
  intro j
  by_cases same : j = k
  · subst same
    rwa [stored_setStored_same]
  · rw [stored_setStored_of_ne same]
    exact others j

def HasIds (store : Store) : Prop :=
  ∀ k, ∀ e ∈ store.stored k, e.id?.isSome = true

theorem HasIds.setStored (hasIds : store.HasIds) {entities : List (Entity k)}
    (new : ∀ e ∈ entities, e.id?.isSome = true) : (store.setStored k entities).HasIds :=
  forall_stored_setStored (P := fun _ entities => ∀ e ∈ entities, e.id?.isSome = true) new hasIds

theorem HasIds.step (hasIds : store.HasIds) (step : Step store call store') : store'.HasIds := by
  cases step with
  | @add k e _ _ =>
      refine hasIds.setStored ?_
      rw [List.forall_mem_append, List.forall_mem_singleton, Entity.id?_setId]
      exact ⟨hasIds k, rfl⟩
  | @replace k e _ _ _ _ place has =>
      refine hasIds.setStored ?_
      have held := hasIds k
      rw [place.stored, forall_mem_middle] at held
      rw [forall_mem_middle, Entity.id?_setId]
      exact ⟨rfl, held.2⟩
  | putFailed => exact hasIds
  | @drop k e _ _ _ place =>
      have held := hasIds k
      rw [place.stored, forall_mem_middle] at held
      exact hasIds.setStored held.2
  | removeFailed => exact hasIds

theorem hasIds_run (calls : List Call) : (run calls).HasIds := by
  induction calls using List.reverseRecOn with
  | nil =>
      intro k e member
      simp at member
  | append_singleton calls call ih =>
      rw [run_append_singleton]
      exact ih.step (step_perform _ call)

theorem HasIds.id?_found (hasIds : store.HasIds) {before after : List (Entity k)}
    {found : Entity k} (place : store.FoundAt e before found after) :
    ∃ id, found.id? = some id :=
  Option.isSome_iff_exists.mp (hasIds k found (by simp [place.stored]))

private theorem HasIds.exists_put (hasIds : store.HasIds) (e : Entity k) :
    ∃ store' id, store.put e = .ok (store', id) := by
  rcases store.free_or_foundAt e with ⟨idFree, keyFree⟩ | ⟨before, found, after, place⟩
  · exact ⟨_, _, put_of_free idFree keyFree⟩
  · obtain ⟨id, has⟩ := hasIds.id?_found place
    exact ⟨_, _, place.put_eq has⟩

theorem HasIds.idOf?_eq_none_iff (hasIds : store.HasIds) :
    store.idOf? e = none ↔ store.IdFree e ∧ store.KeyFree e := by
  rcases store.free_or_foundAt e with free | ⟨before, found, after, place⟩
  · exact ⟨fun _ => free, fun _ => idOf?_of_free free.1 free.2⟩
  · obtain ⟨id, has⟩ := hasIds.id?_found place
    refine ⟨fun unknown => ?_, fun free => idOf?_of_free free.1 free.2⟩
    rw [place.idOf?_eq, has] at unknown
    cases unknown

/-- What holds of a store whose entities had the ids `used` up to now. -/
structure WellNumbered (store : Store) (used : List Int64) : Prop where
  distinct : ∀ k, ((store.stored k).map Entity.id?).Nodup
  used_of_mem : ∀ id ∈ store.ids, id ∈ used
  below_next : ∀ id ∈ used, id < store.nextId

private theorem toInt_max (m n : Int64) : (max m n).toInt = max m.toInt n.toInt := by
  change (if m ≤ n then n else m).toInt = _
  simp only [Int64.le_iff_toInt_le]
  split <;> omega

private theorem toInt_succ {n : Int64} (below : n.toInt < Int64.maxValue.toInt) :
    (n + 1).toInt = n.toInt + 1 := by
  have least : -2 ^ 63 ≤ n.toInt := n.le_toInt
  have greatest : Int64.maxValue.toInt = 2 ^ 63 - 1 := by decide
  rw [Int64.toInt_add, Int64.toInt_one]
  exact Int.bmod_eq_of_le (by omega) (by omega)

private theorem nextId_add (store : Store) (e : Entity k) : (store.add e).1.nextId =
    max (if e.id?.isSome then store.nextId else max store.nextId 1 + 1) ((store.add e).2 + 1) :=
  rfl

private theorem nextId_le_new (noId : e.id? = none) : store.nextId ≤ (store.add e).2 := by
  simp only [add, noId, Option.getD_none]
  rw [Int64.le_iff_toInt_le, toInt_max]
  omega

private theorem new_lt_nextId (below : (store.add e).2 < Int64.maxValue) :
    (store.add e).2 < (store.add e).1.nextId := by
  rw [Int64.lt_iff_toInt_lt] at below ⊢
  rw [nextId_add, toInt_max, toInt_succ below]
  omega

private theorem nextId_le_add (below : (store.add e).2 < Int64.maxValue) :
    store.nextId ≤ (store.add e).1.nextId := by
  cases own : e.id? with
  | none => exact Int64.le_trans (nextId_le_new own) (Int64.le_of_lt (new_lt_nextId below))
  | some id =>
      rw [nextId_add, own, Int64.le_iff_toInt_le, toInt_max, Option.isSome_some, if_pos rfl]
      omega

private theorem mem_ids_setStored {entities : List (Entity k)}
    (member : id ∈ (store.setStored k entities).ids) :
    some id ∈ entities.map Entity.id? ∨ id ∈ store.ids := by
  obtain ⟨j, other, held, has⟩ := mem_ids.mp member
  by_cases same : j = k
  · subst same
    rw [stored_setStored_same] at held
    exact .inl (List.mem_map.mpr ⟨other, held, has⟩)
  · rw [stored_setStored_of_ne same] at held
    exact .inr (mem_ids.mpr ⟨j, other, held, has⟩)

private theorem mem_ids_of_mem_map (member : some id ∈ (store.stored k).map Entity.id?) :
    id ∈ store.ids := by
  obtain ⟨other, held, has⟩ := List.mem_map.mp member
  exact mem_ids.mpr ⟨k, other, held, has⟩

private theorem ids_setStored_subset {entities : List (Entity k)}
    (fewer : entities.map Entity.id? ⊆ (store.stored k).map Entity.id?) :
    (store.setStored k entities).ids ⊆ store.ids := fun _ member =>
  (mem_ids_setStored member).elim (fun here => mem_ids_of_mem_map (fewer here)) fun before => before

private theorem mem_ids_add (member : id ∈ (store.add e).1.ids) :
    id ∈ store.ids ∨ id = (store.add e).2 := by
  rcases mem_ids_setStored member with here | before
  · rw [List.map_append, List.mem_append] at here
    rcases here with before | new
    · exact .inl (mem_ids_of_mem_map before)
    · simp only [List.map_singleton, Entity.id?_setId, List.mem_singleton] at new
      exact .inr (Option.some.inj new)
  · exact .inl before

private theorem FoundAt.map_id?_replace {before after : List (Entity k)} {found : Entity k}
    (place : store.FoundAt e before found after) (has : found.id? = some id) :
    (before ++ e.setId (some id) :: after).map Entity.id? =
      (store.stored k).map Entity.id? := by
  simp [place.stored, has]

private theorem FoundAt.sublist_drop {before after : List (Entity k)} {found : Entity k}
    (place : store.FoundAt e before found after) :
    ((before ++ after).map Entity.id?).Sublist ((store.stored k).map Entity.id?) := by
  rw [place.stored]
  exact ((List.sublist_cons_self found after).append_left before).map _

namespace WellNumbered

variable (numbered : store.WellNumbered used)
include numbered

private theorem new_not_used (noId : e.id? = none) : (store.add e).2 ∉ used := fun member => by
  have below := numbered.below_next _ member
  have above : store.nextId ≤ (store.add e).2 := nextId_le_new noId
  grind

theorem new_not_mem (idFree : store.IdFree e) :
    some (store.add e).2 ∉ (store.stored k).map Entity.id? := fun member => by
  cases own : e.id? with
  | none =>
      exact numbered.new_not_used own (numbered.used_of_mem _ (mem_ids_of_mem_map member))
  | some id =>
      obtain ⟨other, held, has⟩ := List.mem_map.mp member
      simp only [add, own, Option.getD_some] at has
      exact idFree id own other held has

theorem setStored {entities : List (Entity k)}
    (fewer : (entities.map Entity.id?).Sublist ((store.stored k).map Entity.id?)) :
    (store.setStored k entities).WellNumbered used where
  distinct := forall_stored_setStored (P := fun _ entities => (entities.map Entity.id?).Nodup)
    ((numbered.distinct k).sublist fewer) numbered.distinct
  used_of_mem id member := numbered.used_of_mem id (ids_setStored_subset fewer.subset member)
  below_next := numbered.below_next

theorem add (idFree : store.IdFree e) (below : (store.add e).2 < Int64.maxValue) :
    (store.add e).1.WellNumbered (used ++ [(store.add e).2]) where
  distinct := by
    refine forall_stored_setStored (P := fun _ entities => (entities.map Entity.id?).Nodup)
      ?_ numbered.distinct
    have distinct := (numbered.distinct k).concat (numbered.new_not_mem idFree)
    rwa [List.concat_eq_append, ← Entity.id?_setId e (some (store.add e).2), ← List.map_singleton,
      ← List.map_append] at distinct
  used_of_mem id member := by
    rw [List.mem_append, List.mem_singleton]
    exact (mem_ids_add member).imp_left (numbered.used_of_mem id)
  below_next id member := by
    rcases List.mem_append.mp member with before | new
    · exact Int64.lt_of_lt_of_le (numbered.below_next id before) (nextId_le_add below)
    · rw [List.mem_singleton.mp new]
      exact new_lt_nextId below

private theorem with_ids {earlier : List Int64} (sub : earlier ⊆ used) :
    store.WellNumbered (earlier ++ store.ids) where
  distinct := numbered.distinct
  used_of_mem _ member := List.mem_append_right _ member
  below_next id member := numbered.below_next id <| by
    rcases List.mem_append.mp member with before | here
    · exact sub before
    · exact numbered.used_of_mem id here

/-- A call keeps the ids apart, unless it gives out the last one there is. -/
theorem step (step : Step store call store') (below : ∀ id ∈ store'.ids, id < Int64.maxValue) :
    store'.WellNumbered (used ++ store'.ids) := by
  cases step with
  | @add k e idFree _ =>
      have new : (store.add e).2 ∈ (store.add e).1.ids := mem_ids.mpr
        ⟨k, e.setId (some (store.add e).2), by simp [stored_add], Entity.id?_setId _ _⟩
      exact (numbered.add idFree (below _ new)).with_ids (List.subset_append_left _ _)
  | replace place has =>
      exact (numbered.setStored (place.map_id?_replace has ▸ List.Sublist.refl _)).with_ids
        (List.Subset.refl _)
  | putFailed => exact numbered.with_ids (List.Subset.refl _)
  | drop place =>
      exact (numbered.setStored place.sublist_drop).with_ids (List.Subset.refl _)
  | removeFailed => exact numbered.with_ids (List.Subset.refl _)

private theorem find?_eq_some_iff :
    store.find? k id = some e ↔ e ∈ store.stored k ∧ e.id? = some id := by
  rw [find?]
  constructor
  · intro found
    exact ⟨List.mem_of_find?_eq_some found, hasId_iff.mp (List.find?_some found)⟩
  · rintro ⟨held, has⟩
    obtain ⟨other, found⟩ := Option.isSome_iff_exists.mp
      (List.find?_isSome.mpr ⟨e, held, hasId_iff.mpr has⟩)
    have same := List.inj_on_of_nodup_map (numbered.distinct k) (List.mem_of_find?_eq_some found)
      held ((hasId_iff.mp (List.find?_some found)).trans has.symm)
    rw [found, same]

end WellNumbered

private theorem wellNumbered_empty : empty.WellNumbered [] where
  distinct k := by simp
  used_of_mem id member := by simp at member
  below_next id member := by cases member

theorem wellNumbered_run (below : ∀ id ∈ usedIds calls, id < Int64.maxValue) :
    (run calls).WellNumbered (usedIds calls) := by
  induction calls using List.reverseRecOn with
  | nil => simpa using wellNumbered_empty
  | append_singleton calls call ih =>
      rw [usedIds_append_singleton, run_append_singleton] at *
      rw [List.forall_mem_append] at below
      exact (ih below.1).step (step_perform _ call) below.2

private theorem Call.le_highest (call : Call) (before : Int) : before ≤ call.highest before := by
  cases call with
  | put e =>
      rw [highest]
      split <;> omega
  | remove e => exact Int.le_refl before

theorem LeavesRoom.of_prefix {earlier : List Call} (first : earlier <+: calls)
    (room : LeavesRoom calls) : LeavesRoom earlier := by
  obtain ⟨rest, rfl⟩ := first
  induction rest using List.reverseRecOn with
  | nil => rwa [List.append_nil] at room
  | append_singleton rest call ih =>
      apply ih
      rw [← List.append_assoc, LeavesRoom, List.foldl_append] at room
      exact Int.lt_of_le_of_lt (call.le_highest _) room

/-- No stored id is above a number that is not negative, and the next one at most one above it. -/
structure Within (store : Store) (bound : Int) : Prop where
  positive : 0 ≤ bound
  next : store.nextId.toInt ≤ bound + 1
  ids : ∀ id ∈ store.ids, id.toInt ≤ bound

namespace Within

variable {bound grown : Int} (within : store.Within bound)
include within

theorem mono (le : bound ≤ grown) : store.Within grown :=
  ⟨Int.le_trans within.positive le, Int.le_trans within.next (Int.add_le_add_right le 1),
    fun id member => Int.le_trans (within.ids id member) le⟩

theorem setStored {entities : List (Entity k)}
    (fewer : entities.map Entity.id? ⊆ (store.stored k).map Entity.id?) :
    (store.setStored k entities).Within bound :=
  ⟨within.positive, within.next,
    fun id member => within.ids id (ids_setStored_subset fewer member)⟩

theorem add (room : (Call.put ⟨k, e⟩).highest bound < Int64.maxValue.toInt) :
    (store.add e).1.Within ((Call.put ⟨k, e⟩).highest bound) := by
  have positive := within.positive
  have next := within.next
  have grows := (Call.put ⟨k, e⟩).le_highest bound
  have fresh : (max store.nextId 1).toInt ≤ bound + 1 := by
    rw [toInt_max, Int64.toInt_one]
    omega
  have new : (store.add e).2.toInt ≤ (Call.put ⟨k, e⟩).highest bound := by
    cases own : e.id? with
    | none => simpa [Store.add, Call.highest, AnyEntity.id?, own] using fresh
    | some id => simp [Store.add, Call.highest, AnyEntity.id?, own, Int.le_max_right]
  refine ⟨by omega, ?_, fun id member => ?_⟩
  · rw [nextId_add, toInt_max, toInt_succ (by omega)]
    cases own : e.id? with
    | none =>
        simp only [Call.highest, AnyEntity.id?, own] at room new ⊢
        rw [Option.isSome_none, if_neg Bool.false_ne_true, toInt_succ (by omega)]
        omega
    | some id =>
        rw [Option.isSome_some, if_pos rfl]
        omega
  · rcases mem_ids_add member with before | rfl
    · exact Int.le_trans (within.ids id before) grows
    · exact new

theorem step (step : Step store call store')
    (room : call.highest bound < Int64.maxValue.toInt) : store'.Within (call.highest bound) := by
  have grows := call.le_highest bound
  cases step with
  | add => exact within.add room
  | replace place has =>
      exact (within.setStored (place.map_id?_replace has ▸ List.Subset.refl _)).mono grows
  | drop place => exact (within.setStored place.sublist_drop.subset).mono grows
  | putFailed => exact within.mono grows
  | removeFailed => exact within.mono grows

end Within

private theorem within_run (room : LeavesRoom calls) :
    (run calls).Within (calls.foldl Call.highest 0) := by
  induction calls using List.reverseRecOn with
  | nil => exact ⟨Int.le_refl 0, by decide, by simp⟩
  | append_singleton calls call ih =>
      have before := ih (room.of_prefix (List.prefix_append calls [call]))
      rw [LeavesRoom, List.foldl_append] at room
      rw [run_append_singleton, List.foldl_append]
      exact before.step (step_perform _ call) room

theorem usedIds_lt (room : LeavesRoom calls) : ∀ id ∈ usedIds calls, id < Int64.maxValue := by
  intro id member
  obtain ⟨earlier, first, held⟩ := mem_usedIds.mp member
  have roomBefore := room.of_prefix first
  rw [Int64.lt_iff_toInt_lt]
  exact Int.lt_of_le_of_lt ((within_run roomBefore).ids id held) roomBefore

/-- While the ids from outside leave room for those of the store: every stored entity is among
those of its kind and has an id that no other of them has, the next id is above all that were
ever in use, storing an entity succeeds, under an id never used before if it has none and is not
known, and it is found under its id. -/
theorem run_ids (calls : List Call) (room : LeavesRoom calls) :
    (∀ e ∈ (run calls).buckets.toList,
        e.entity ∈ (run calls).stored e.kind ∧ e.id?.isSome = true) ∧
      (∀ k, (((run calls).stored k).map Entity.id?).Nodup) ∧
      (∀ id ∈ usedIds calls, id < (run calls).nextId) ∧
      (∀ e : AnyEntity, ∃ store' id, (run calls).put e.entity = .ok (store', id) ∧
        ((run calls).position? e.entity = none → e.id? = none → id ∉ usedIds calls)) ∧
      (∀ e : AnyEntity,
        (run calls).idOf? e.entity = none ↔ (run calls).position? e.entity = none) ∧
      ∀ k id (e : Entity k), (run calls).find? k id = some e ↔
        e ∈ (run calls).stored k ∧ e.id? = some id := by
  have numbered := wellNumbered_run (usedIds_lt room)
  have hasIds := hasIds_run calls
  refine ⟨fun e member => ?_, numbered.distinct, numbered.below_next, fun e => ?_, fun e => ?_,
    fun k id e => numbered.find?_eq_some_iff⟩
  · have held := mem_toList.mp member
    exact ⟨held, hasIds e.kind e.entity held⟩
  · obtain ⟨store', id, stored⟩ := hasIds.exists_put e.entity
    refine ⟨store', id, stored, fun unknown noId => ?_⟩
    simp only [put, unknown, Except.ok.injEq] at stored
    have new := numbered.new_not_used noId
    rwa [stored] at new
  · rw [hasIds.idOf?_eq_none_iff, position?_eq_none_iff]

def numberedCalls : List Call :=
  [.put (.keyword "salinity" none), .put (.keyword "depth" (some 5)),
    .put (.keyword "current" none), .put (.keyword "salinity" (some 9)),
    .remove (.keyword "depth" none), .remove (.keyword "depth" none)]

theorem run_ids_numberedCalls :
    LeavesRoom numberedCalls ∧
      ((run numberedCalls).stored .keyword).map Entity.id? = [some 1, some 6] ∧
      (∀ id ∈ usedIds numberedCalls, id < (run numberedCalls).nextId) ∧
      ∃ store' id, (run numberedCalls).put (AnyEntity.keyword "wind" none).entity =
        .ok (store', id) ∧ id ∉ usedIds numberedCalls := by
  have room : LeavesRoom numberedCalls := by decide +kernel
  have numbered := run_ids numberedCalls room
  obtain ⟨store', id, stored, new⟩ := numbered.2.2.2.1 (.keyword "wind" none)
  exact ⟨room, by decide +kernel, numbered.2.2.1, store', id, stored,
    new (by decide +kernel) (by decide +kernel)⟩

/-- Calls whose own ids are below the last there is, but so close to it that the store gives out
the last one itself. -/
def exhaustingCalls : List Call :=
  [.put (.keyword "salinity" none), .put (.keyword "depth" (some (Int64.maxValue - 1))),
    .put (.keyword "current" none), .put (.keyword "wind" none)]

/-- After the last id there is, the store starts again with the first, which is in use. -/
theorem ids_not_distinct_run :
    (exhaustingCalls.filterMap Call.id?).all (· < Int64.maxValue) = true ∧
      ((run exhaustingCalls).stored .keyword).map Entity.id? =
        [some 1, some (Int64.maxValue - 1), some Int64.maxValue, some 1] ∧
      ¬(((run exhaustingCalls).stored .keyword).map Entity.id?).Nodup ∧
      (run exhaustingCalls).nextId = 2 := by
  decide +kernel

end Store

end ShoreMetadata
