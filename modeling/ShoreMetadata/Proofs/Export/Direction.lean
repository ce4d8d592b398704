import ShoreMetadata.Import.Build
import ShoreMetadata.Proofs.Export.Element

/-! An exported element follows one side of the relation between containers and producers: it
shows nothing of the other side, and does not depend on it. -/

namespace ShoreMetadata

open Xml (Element)

def Direction.wrapper : Direction → Wrapper
  | .outputs => .output
  | .consumers => .consumer

def Kind.ignoredWrappers : Kind → List Wrapper
  | .dataProducer => [.consumer]
  | .dataContainer => [.output]
  | _ => [.output, .consumer]

/-- The kinds that hold containers and producers, at any depth. -/
def Kind.isLinked : Kind → Bool
  | .dataContainer | .dataProducer => true
  | _ => false

private theorem Kind.isLinked_of_wrapper? (k : Kind) :
    ∀ s ∈ k.slots, s.wrapper?.isSome = true → k.isLinked = true := by
  cases k <;> decide

private theorem Kind.isLinked_of_target (k : Kind) :
    ∀ s ∈ k.slots, s.target.isLinked = true → k.isLinked = true := by
  cases k <;> decide

private theorem Kind.ne_wrapper_of_ignored (k : Kind) :
    ∀ w ∈ k.ignoredWrappers, k.isLinked = true → w ≠ k.direction.wrapper := by
  cases k <;> decide

private theorem Slot.eq_wrapper_of_isFollowed {s : Slot} {direction : Direction} {w : Wrapper}
    (wrapped : s.wrapper? = some w) (followed : s.isFollowed direction = true) :
    w = direction.wrapper := by
  cases s <;> cases wrapped
  · rw [of_decide_eq_true followed]
    rfl
  · rw [of_decide_eq_true followed]
    rfl

namespace Entity

variable {dialect : Dialect} {direction : Direction}

/-- A wrapper occurs only in the element of a container or a producer, and only on the side that
the pass follows. -/
theorem wrappers_toElement {k : Kind} (e : Entity k) : ∀ x,
    e.toElement dialect direction = some x →
      x.Everywhere fun y => ∀ w, Role.ofTag? y.name = some (.wrapper w) →
        k.isLinked = true ∧ w = direction.wrapper := by
  induction e using Entity.induction with
  | @step k e ih =>
      intro x exported
      rw [eq_element_of_toElement exported]
      refine .intro (fun w role => ?_) fun child member => ?_
      · cases role.symm.trans e.role_tag
      rcases mem_children_element member with
        ⟨text, _, _, rfl⟩ | ⟨s, known, followed, other, held, content, found, _, wraps⟩
      · refine .intro (fun w role => ?_) fun _ member => by cases member
        cases role.symm.trans role_descriptionTag
      · have inside := (ih s other held content found).mono fun y wrapper w role =>
          (wrapper w role).imp_left (k.isLinked_of_target s known)
        rcases wraps with ⟨_, rfl⟩ | ⟨w, wrapped, rfl⟩
        · exact inside
        · refine .intro (fun other role => ?_) fun child member => ?_
          · cases role.symm.trans (w.role_tag dialect)
            exact ⟨k.isLinked_of_wrapper? s known (by rw [wrapped]; rfl),
              Slot.eq_wrapper_of_isFollowed wrapped followed⟩
          · rw [List.mem_singleton.mp member]
            exact inside

end Entity

mutual
/-- The entity with a slot cleared, in itself and in every entity that it leads to. -/
def Entity.without (s : Slot) : {k : Kind} → Entity k → Entity k
  | _, .mk values version links => .mk values version (Links.without s links)

def Links.without (s : Slot) : {ss : List Slot} → Links ss → Links ss
  | _, .nil => .nil
  | t :: _, .cons members rest =>
    .cons (if t = s then .empty t.arity else Members.without s members) (Links.without s rest)

def Members.without (s : Slot) : {a : Arity} → {k : Kind} → Members a k → Members a k
  | _, _, .absent => .absent
  | _, _, .present e => .present (e.without s)
  | _, _, .nil => .nil
  | _, _, .cons e rest => .cons (e.without s) (Members.without s rest)
end

variable (s : Slot)

private theorem Members.toList_without : {a : Arity} → {k : Kind} → (members : Members a k) →
    (members.without s).toList = members.toList.map (Entity.without s)
  | _, _, .absent => rfl
  | _, _, .present _ => rfl
  | _, _, .nil => rfl
  | _, _, .cons e rest => by
      rw [Members.without, Members.toList, Members.toList_without rest]
      rfl

private theorem Links.toList_get_without : {ss : List Slot} → (links : Links ss) → (t : Slot) →
    ((links.without s).get t).toList =
      if t = s then [] else (links.get t).toList.map (Entity.without s)
  | _, .nil, t => by
      rw [Links.without, Links.get, Members.toList_empty]
      simp
  | u :: _, .cons members rest, t => by
      rw [Links.without]
      by_cases here : u = t
      · subst here
        simp only [Links.get, dite_true]
        split
        · exact Members.toList_empty _
        · exact Members.toList_without s members
      · simp only [Links.get, here, dite_false]
        exact Links.toList_get_without rest t

namespace Entity

variable {k : Kind} (e : Entity k)

@[simp] theorem values_without : (e.without s).values = e.values := by
  cases e
  rfl

@[simp] theorem get?_without (f : Field) : (e.without s).get? f = e.get? f := by
  rw [get?, values_without, get?]

@[simp] theorem version_without : (e.without s).version = e.version := by
  cases e
  rfl

private theorem members_without (t : Slot) :
    (e.without s).members t = if t = s then [] else (e.members t).map (Entity.without s) := by
  cases e with
  | mk values version links => exact Links.toList_get_without s links t

end Entity

private theorem Slot.inOrder_map_without (t : Slot) (items : List (Entity t.target)) :
    t.inOrder (items.map (Entity.without s)) = (t.inOrder items).map (Entity.without s) := by
  cases t with
  | recordVariables =>
      have column : (fun v : Entity .recordVariable => (v.without s).column?) =
          Entity.column? := by
        funext v
        exact v.get?_without s .columnIndex
      have ordered := orderByColumn_map Entity.column? (Entity.without s) items
      rw [column] at ordered
      exact ordered.symm
  | _ => rfl

namespace Entity

variable {k : Kind} (e : Entity k) (dialect : Dialect) {direction : Direction}

private theorem tag_without : (e.without s).tag dialect = e.tag dialect := by
  cases k <;> simp only [tag, get?_without]

private theorem parts_without : (e.without s).parts dialect = e.parts dialect := by
  cases k <;> simp only [parts, get?_without]

private theorem toAttributes_without :
    (e.without s).toAttributes dialect = e.toAttributes dialect := by
  rw [toAttributes, values_without, version_without, toAttributes]

private theorem descriptionElement_without :
    (e.without s).descriptionElement = e.descriptionElement := by
  simp only [descriptionElement, get?_without]

variable {s e} in
private theorem childElements_without (ignored : s.isFollowed direction = false) {t : Slot}
    (same : ∀ c ∈ e.members t,
      (c.without s).toElement dialect direction = c.toElement dialect direction) :
    (e.without s).childElements dialect direction t = e.childElements dialect direction t := by
  rw [childElements, childElements]
  split
  · rename_i followed
    have other : t ≠ s := by
      intro here
      rw [here, ignored] at followed
      cases followed
    rw [members_without, if_neg other, Slot.inOrder_map_without, List.flatMap_map]
    apply List.flatMap_congr
    intro c member
    rw [same c (Slot.mem_inOrder.mp member)]
  · rfl

private theorem toElement_without (ignored : s.isFollowed direction = false) :
    (e.without s).toElement dialect direction = e.toElement dialect direction := by
  induction e using Entity.induction with
  | step e ih =>
      have element : (e.without s).element dialect direction = e.element dialect direction := by
        rw [element, element, tag_without, toAttributes_without, parts_without,
          Element.mk.injEq]
        refine ⟨rfl, rfl, ?_, rfl, rfl⟩
        apply List.flatMap_congr
        intro part _
        cases part with
        | description => exact e.descriptionElement_without s
        | slot t => exact childElements_without dialect ignored (ih t)
      rw [toElement_eq, toElement_eq, element]
      simp only [get?_without]

end Entity

namespace AnyEntity

def without (e : AnyEntity) (s : Slot) : AnyEntity :=
  ⟨e.kind, e.entity.without s⟩

end AnyEntity

def Kind.ignoredSlot : Kind → Slot
  | .dataContainer => .outputs
  | _ => .consumers

private theorem Kind.isFollowed_ignoredSlot (k : Kind) :
    k.ignoredSlot.isFollowed k.direction = false := by
  cases k <;> rfl

/-- In the element of a producer no consumers occur, in that of a container no outputs and in any
other neither, whatever the case of their tags; and clearing the ignored slot of every entity that
is reached makes no difference. -/
theorem AnyEntity.toElement_one_sided (dialect : Dialect) (e : AnyEntity) :
    (∀ x, e.toElement dialect = some x → ∀ y : Element, y.Occurs x →
        ∀ w ∈ e.kind.ignoredWrappers, y.hasTagIn (Role.wrapper w).tags = false) ∧
      (e.without e.kind.ignoredSlot).toElement dialect = e.toElement dialect := by
  constructor
  · intro x exported y occurs w ignored
    rw [Bool.eq_false_iff]
    intro tagged
    obtain ⟨linked, followed⟩ := occurs.of_everywhere (e.entity.wrappers_toElement x exported) w
      (Element.hasTagIn_tags_iff.mp tagged)
    exact e.kind.ne_wrapper_of_ignored w ignored linked followed
  · exact e.entity.toElement_without _ dialect e.kind.isFollowed_ignoredSlot

theorem AnyEntity.toElement_one_sided_consumed :
    let file : Entity .dataContainer :=
      (Entity.named .dataContainer "cast").accept .consumers (Entity.named _ "merge")
    let mooring : AnyEntity :=
      ⟨.dataProducer, (Entity.named .dataProducer "M1").accept .outputs file⟩
    ∃ x, mooring.toElement .legacy = some x ∧
      x.children.map (fun output => output.children.map Element.name) = [["DataFile"]] ∧
      (∀ y : Element, y.Occurs x → y.hasTagIn ["consumer", "destiny"] = false) ∧
      (mooring.without .consumers).toElement .legacy = some x := by
  intro file mooring
  obtain ⟨x, exported, inside⟩ : ∃ x ∈ mooring.toElement .legacy,
      x.children.map (fun output => output.children.map Element.name) = [["DataFile"]] := by
    decide +kernel
  obtain ⟨wrappers, cleared⟩ := mooring.toElement_one_sided .legacy
  refine ⟨x, exported, inside, fun y occurs => ?_, cleared.trans exported⟩
  exact wrappers x exported y occurs .consumer (List.mem_singleton_self _)

end ShoreMetadata
