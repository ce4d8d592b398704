import Mathlib.Data.List.Basic
import ShoreMetadata.Document.Basic

/-! What a document holds after entities have been added to it. -/

namespace ShoreMetadata

namespace Buckets

theorem get_set_same : {ks : List Kind} → (b : Buckets ks) → {k : Kind} → k ∈ ks →
    (entities : List (Entity k)) → (b.set k entities).get k = entities
  | _, .nil, _, member, _ => by cases member
  | j :: _, .cons held rest, k, member, entities => by
      by_cases same : j = k
      · subst same
        simp [set, get]
      · have more := (List.mem_cons.mp member).resolve_left (Ne.symm same)
        simp [set, get, same, get_set_same rest more]

theorem get_set_of_ne : {ks : List Kind} → (b : Buckets ks) → {j k : Kind} → j ≠ k →
    (entities : List (Entity j)) → (b.set j entities).get k = b.get k
  | _, .nil, _, _, _, _ => rfl
  | i :: _, .cons held rest, j, k, other, entities => by
      by_cases same : i = j
      · subst same
        simp [set, get, other]
      · simp [set, get, same, get_set_of_ne rest other]

theorem get_empty (ks : List Kind) (k : Kind) : (empty ks).get k = [] := by
  induction ks with
  | nil => rfl
  | cons j ks ih =>
      by_cases same : j = k
      · subst same
        simp [empty, get]
      · simp [empty, get, same, ih]

theorem ext : {ks : List Kind} → ks.Nodup → {a b : Buckets ks} → (∀ k ∈ ks, a.get k = b.get k) →
    a = b
  | _, _, .nil, .nil, _ => rfl
  | j :: _, distinct, .cons held rest, .cons held' rest', agree => by
      rw [List.nodup_cons] at distinct
      have heldEq : held = held' := by
        simpa [get] using agree j (by simp)
      have restEq : rest = rest' := ext distinct.2 fun k member => by
        have other : j ≠ k := by
          rintro rfl
          exact distinct.1 member
        simpa [get, other] using agree k (by simp [member])
      rw [heldEq, restEq]

theorem toList_eq : {ks : List Kind} → ks.Nodup → (b : Buckets ks) →
    b.toList = ks.flatMap fun k => (b.get k).map (AnyEntity.mk k)
  | _, _, .nil => rfl
  | j :: ks, distinct, .cons held rest => by
      rw [List.nodup_cons] at distinct
      have here : (cons held rest).get j = held := by simp [get]
      have there : ∀ k ∈ ks, (cons held rest).get k = rest.get k := by
        intro k member
        have other : j ≠ k := by
          rintro rfl
          exact distinct.1 member
        simp [get, other]
      rw [toList, toList_eq distinct.2 rest, List.flatMap_cons, here]
      congr 1
      exact List.flatMap_congr fun k member => by rw [there k member]

end Buckets

theorem AnyEntity.as?_eq_some_iff {e : AnyEntity} {k : Kind} {x : Entity k} :
    e.as? k = some x ↔ e = ⟨k, x⟩ := by
  obtain ⟨kind, entity⟩ := e
  by_cases alike : kind = k
  · subst alike
    simp [as?]
  · simp [as?, alike]

private theorem AnyEntity.not_same_of_as? {e other : AnyEntity} {held : Entity other.kind}
    (different : e.same other = false) (found : e.as? other.kind = some held) :
    held.same other.entity = false := by
  rw [as?_eq_some_iff] at found
  subst found
  simpa [AnyEntity.same, as?] using different

private theorem AnyEntity.map_mk_filterMap_as? (entities : List AnyEntity) (k : Kind) :
    (entities.filterMap (·.as? k)).map (AnyEntity.mk k) =
      entities.filter fun e => decide (e.kind = k) := by
  induction entities with
  | nil => rfl
  | cons e rest ih =>
      obtain ⟨kind, entity⟩ := e
      by_cases same : kind = k
      · subst same
        simpa [AnyEntity.as?] using ih
      · simpa [AnyEntity.as?, same] using ih

theorem AnyEntity.mem_filterMap_as? {entities : List AnyEntity} {k : Kind} {e : Entity k} :
    e ∈ entities.filterMap (·.as? k) ↔ ⟨k, e⟩ ∈ entities := by
  simp [List.mem_filterMap, as?_eq_some_iff]

namespace Document

theorem toList_eq (d : Document) :
    d.toList = Kind.all.flatMap fun k => (d.get k).map (AnyEntity.mk k) :=
  Buckets.toList_eq (by decide) d.buckets

theorem ext_get {d d' : Document} (agree : ∀ k, d.get k = d'.get k) : d = d' :=
  congrArg mk (Buckets.ext (by decide : Kind.all.Nodup) fun k _ => agree k)

theorem get_empty (k : Kind) : empty.get k = [] :=
  Buckets.get_empty Kind.all k

theorem get_insert {d : Document} {e : AnyEntity} (new : d.holds e = false) (k : Kind) :
    (d.insert e).1.get k = d.get k ++ (e.as? k).toList := by
  obtain ⟨kind, entity⟩ := e
  rw [insert, new, if_neg Bool.false_ne_true]
  by_cases same : kind = k
  · subst same
    have stored := Buckets.get_set_same d.buckets (Kind.mem_all kind) (d.get kind ++ [entity])
    simp only [AnyEntity.as?, dite_true, Option.toList_some]
    exact stored
  · have kept := Buckets.get_set_of_ne d.buckets same (d.get kind ++ [entity])
    simp only [AnyEntity.as?, same, dite_false, Option.toList_none, List.append_nil]
    exact kept

private theorem holds_eq_false_iff {d : Document} {e : AnyEntity} :
    d.holds e = false ↔ ∀ other ∈ d.get e.kind, other.same e.entity = false := by
  simp [holds]

private theorem get_insertAll {d : Document} {entities : List AnyEntity}
    (new : ∀ e ∈ entities, d.holds e = false)
    (distinct : entities.Pairwise fun a b => a.same b = false) (k : Kind) :
    (d.insertAll entities).get k = d.get k ++ entities.filterMap (·.as? k) := by
  induction entities generalizing d with
  | nil => simp [insertAll]
  | cons e rest ih =>
      rw [List.forall_mem_cons] at new
      rw [List.pairwise_cons] at distinct
      have stillNew : ∀ other ∈ rest, (d.insert e).1.holds other = false := by
        intro other member
        rw [holds_eq_false_iff, get_insert new.1]
        intro held heldMember
        rcases List.mem_append.mp heldMember with before | added
        · exact holds_eq_false_iff.mp (new.2 other member) held before
        · exact AnyEntity.not_same_of_as? (distinct.1 other member) (Option.mem_toList.mp added)
      change ((d.insert e).1.insertAll rest).get k = _
      rw [ih stillNew distinct.2, get_insert new.1, List.append_assoc, List.filterMap_cons]
      cases e.as? k <;> rfl

theorem mem_toList {d : Document} {e : AnyEntity} : e ∈ d.toList ↔ e.entity ∈ d.get e.kind := by
  rw [toList_eq, List.mem_flatMap]
  constructor
  · rintro ⟨k, _, member⟩
    obtain ⟨x, held, rfl⟩ := List.mem_map.mp member
    exact held
  · intro held
    exact ⟨e.kind, Kind.mem_all e.kind, List.mem_map_of_mem held⟩

theorem mem_toList_of_mem_insert {d : Document} {e x : AnyEntity}
    (member : x ∈ (d.insert e).1.toList) : x ∈ d.toList ∨ x = e := by
  cases held : d.holds e with
  | true =>
      have unchanged : (d.insert e).1 = d := by
        rw [insert, held, if_pos rfl]
      rw [unchanged] at member
      exact .inl member
  | false =>
      rw [mem_toList, get_insert held, List.mem_append, Option.mem_toList] at member
      rcases member with before | added
      · exact .inl (mem_toList.mpr before)
      · have single : x.entity ∈ [e].filterMap (·.as? x.kind) :=
          List.mem_filterMap.mpr ⟨e, List.mem_singleton_self e, added⟩
        exact .inr (List.mem_singleton.mp (AnyEntity.mem_filterMap_as?.mp single))

theorem toList_insertAll {entities : List AnyEntity}
    (distinct : entities.Pairwise fun a b => a.same b = false) :
    (empty.insertAll entities).toList =
      Kind.all.flatMap fun k => entities.filter fun e => decide (e.kind = k) := by
  have new : ∀ e ∈ entities, empty.holds e = false := fun e _ => by
    rw [holds_eq_false_iff, get_empty]
    simp
  simp only [toList_eq, get_insertAll new distinct, get_empty, List.nil_append,
    AnyEntity.map_mk_filterMap_as?]

end Document

end ShoreMetadata
