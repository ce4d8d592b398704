import ShoreMetadata.Proofs.Import.Alike
import ShoreMetadata.Proofs.Import.Membership

/-! Documents turned inside out: which they are, exactly what becomes of them, and what their
producers are built into. -/

namespace ShoreMetadata

open Xml (Element)

namespace Xml.Element

/-- Attributes of which one is set to a value: the first of exactly its name, or a new one behind
the others. -/
inductive SetsTo (name value : String) : List (String × String) → List (String × String) → Prop
  | replaced {front behind : List (String × String)} {old : String}
      (first : ∀ a ∈ front, a.1 ≠ name) :
      SetsTo name value (front ++ (name, old) :: behind) (front ++ (name, value) :: behind)
  | added {attributes : List (String × String)} (missing : ∀ a ∈ attributes, a.1 ≠ name) :
      SetsTo name value attributes (attributes ++ [(name, value)])

theorem setsTo_setIn (name value : String) (attributes : List (String × String)) :
    SetsTo name value attributes (setIn name value attributes) := by
  induction attributes with
  | nil => exact .added (by simp)
  | cons entry rest ih =>
      obtain ⟨key, old⟩ := entry
      rw [setIn]
      split
      · rename_i found
        cases found
        exact SetsTo.replaced (List.forall_mem_nil _)
      · rename_i other
        generalize setIn name value rest = after at ih
        cases ih with
        | replaced first => exact SetsTo.replaced (List.forall_mem_cons.mpr ⟨other, first⟩)
        | added missing => exact SetsTo.added (List.forall_mem_cons.mpr ⟨other, missing⟩)

end Xml.Element

namespace Inversion

/-- The group without its members. The description is set to that of the last member that is a
description, if there is one, and all else is as it was. -/
structure CopyOf (group copy : Element) : Prop where
  name : copy.name = group.name
  text : copy.text = group.text
  position : copy.position = group.position
  children : copy.children = []
  described : ∀ d, (group.children.filter (·.hasTag descriptionTag)).getLast? = some d →
    Element.SetsTo descriptionTag d.textContent group.attributes copy.attributes
  undescribed : group.children.filter (·.hasTag descriptionTag) = [] →
    copy.attributes = group.attributes

private theorem foldl_setAttribute_eq (descriptions : List Element) (g : Element) :
    descriptions.foldl (fun g d => g.setAttribute descriptionTag d.textContent) g =
      match descriptions.getLast? with
      | some d => g.setAttribute descriptionTag d.textContent
      | none => g := by
  induction descriptions using List.reverseRecOn with
  | nil => rfl
  | append_singleton before d ih =>
      rw [List.foldl_append, ih, List.getLast?_concat]
      cases before.getLast? with
      | none => rfl
      | some earlier =>
          simp only [List.foldl_cons, List.foldl_nil, Element.setAttribute, Element.setIn_setIn]

private theorem copyOf_emptied (group : Element) : CopyOf group (emptied group) := by
  rw [emptied, foldl_setAttribute_eq]
  cases last : (group.children.filter (·.hasTag descriptionTag)).getLast? with
  | none =>
      exact ⟨rfl, rfl, rfl, rfl, fun d found => (by cases last.symm.trans found), fun _ => rfl⟩
  | some described =>
      refine ⟨rfl, rfl, rfl, rfl, fun d found => ?_, fun none => ?_⟩
      · cases last.symm.trans found
        exact Element.setsTo_setIn ..
      · rw [none] at last
        cases last

private theorem isSome_invert?_iff {root : Element} :
    (invert? root).isSome = true ↔ ∃ group, root.children = [group] ∧
      group.hasTag Kind.dataProducerGroup.tag = true ∧ group.children ≠ [] := by
  rw [invert?, Option.isSome_map, soleGroup?]
  constructor
  · intro turned
    split at turned
    · rename_i group only
      split at turned
      · rename_i grouped
        rw [Bool.and_eq_true] at grouped
        exact ⟨group, only, grouped.1, by simpa using grouped.2⟩
      · cases turned
    · cases turned
  · rintro ⟨group, only, grouped, occupied⟩
    simp [only, grouped, occupied]

private theorem exists_group_of_invert? {root turned : Element}
    (inverted : invert? root = some turned) :
    ∃ group, root.children = [group] ∧
      Role.ofTag? group.name = some (.entity .dataProducerGroup) ∧
      turned = { root with children := (producers group).map (·.pushChild (emptied group)) } := by
  obtain ⟨group, sole, rfl⟩ := Option.map_eq_some_iff.mp inverted
  obtain ⟨only, role⟩ := soleGroup?_eq_some sole
  exact ⟨group, only, role, rfl⟩

private theorem role_of_mem_producers {group producer : Element}
    (member : producer ∈ producers group) :
    Role.ofTag? producer.name = some (.entity .dataProducer) :=
  Element.hasTagIn_tags_iff.mp (List.mem_filter.mp member).2

private theorem invert?_of_invert? {root turned : Element} (inverted : invert? root = some turned) :
    invert? turned = none := by
  obtain ⟨group, only, role, rfl⟩ := exists_group_of_invert? inverted
  rw [invert?, Option.map_eq_none_iff, Option.eq_none_iff_forall_ne_some]
  intro inner sole
  obtain ⟨only, innerRole⟩ := soleGroup?_eq_some sole
  have raised : inner ∈ (producers group).map (·.pushChild (emptied group)) := by
    rw [show (producers group).map (·.pushChild (emptied group)) = [inner] from only]
    exact List.mem_singleton_self inner
  obtain ⟨producer, member, rfl⟩ := List.mem_map.mp raised
  cases (role_of_mem_producers member).symm.trans innerRole

end Inversion

private theorem exists_built_of_mem {config : Config} {children : List Element}
    {offspring : Offspring}
    (built : (buildChildren config children).result = .ok offspring) {child : Element}
    (member : child ∈ children) (noDescription : child.hasTag descriptionTag = false) :
    ∃ r, (buildElement config child).result = .ok r := by
  induction children generalizing offspring with
  | nil => cases member
  | cons first rest ih =>
      rw [buildChildren] at built
      split at built
      · rename_i described
        obtain ⟨others, builtRest, -⟩ := Recorded.result_bind_eq_ok.mp built
        rcases List.mem_cons.mp member with rfl | member
        · rw [noDescription] at described
          cases described
        · exact ih builtRest member
      · obtain ⟨r, builtFirst, built⟩ := Recorded.result_bind_eq_ok.mp built
        obtain ⟨others, builtRest, -⟩ := Recorded.result_bind_eq_ok.mp built
        rcases List.mem_cons.mp member with rfl | member
        · exact ⟨r, builtFirst⟩
        · exact ih builtRest member

private theorem exists_offspring_of_built {config : Config} {x : Element} {k : Kind}
    {r : Option AnyEntity} (role : Role.ofTag? x.name = some (.entity k))
    (built : (buildElement config x).result = .ok r) :
    ∃ offspring, (buildChildren config x.children).result = .ok offspring := by
  obtain ⟨name, attributes, children, text, position⟩ := x
  simp only at role
  simp only [buildElement, role] at built
  obtain ⟨e, -, built⟩ := Recorded.result_bind_eq_ok.mp built
  obtain ⟨offspring, inside, -⟩ := Recorded.result_bind_eq_ok.mp built
  exact ⟨offspring, inside⟩

private theorem nanFree_dataProducerGroup (g : Entity .dataProducerGroup) : g.NaNFree := by
  refine .intro (fun ⟨f, value⟩ member => ?_) fun s child member => ?_
  · have known := Values.mem_fields_of_mem_entries member
    simp only [Kind.fields, List.mem_cons, List.not_mem_nil, or_false] at known
    rcases known with rfl | rfl | rfl <;> rfl
  · rw [g.members_of_not_mem (by simp [Kind.slots])] at member
    cases member

private theorem routed?_group {tag : String}
    (role : Role.ofTag? tag = some (.entity .dataProducerGroup))
    (g : Entity .dataProducerGroup) :
    Child.routed? .dataProducer .dataProducerGroups ⟨tag, ⟨.dataProducerGroup, g⟩⟩ = some g := by
  have fit : Kind.dataProducer.slots.find? (Entity.fits ⟨tag, ⟨.dataProducerGroup, g⟩⟩) =
      some .dataProducerGroups := by
    have wrapper : ((Role.ofTag? tag).bind Role.wrapper?) = none := by
      rw [role]
      rfl
    unfold Entity.fits
    simp only [wrapper]
    rfl
  rw [Child.routed?, if_pos fit]
  exact AnyEntity.as?_eq_some_iff.mpr rfl

private theorem exists_same_group {config : Config} {producer copy : Element}
    (producerRole : Role.ofTag? producer.name = some (.entity .dataProducer))
    (copyRole : Role.ofTag? copy.name = some (.entity .dataProducerGroup)) {r : Option AnyEntity}
    (built : (buildElement config (producer.pushChild copy)).result = .ok r) :
    ∃ p g, r = some ⟨.dataProducer, p⟩ ∧
      (buildElement config copy).result = .ok (some ⟨.dataProducerGroup, g⟩) ∧
      ∃ other ∈ p.members .dataProducerGroups, other.same g = true ∧ g.same other = true := by
  have role : Role.ofTag? (producer.pushChild copy).name = some (.entity .dataProducer) :=
    producerRole
  have noDescription : copy.hasTag descriptionTag = false := by
    rw [Bool.eq_false_iff, ne_eq, Element.hasTag_description_iff, copyRole]
    simp
  obtain ⟨offspring, inside⟩ := exists_offspring_of_built role built
  obtain ⟨r', builtCopy⟩ := exists_built_of_mem inside (by simp [Element.pushChild]) noDescription
  obtain ⟨start, -, rfl⟩ := exists_reading_of_built copyRole builtCopy
  generalize (builtChildren config copy.children).foldl Entity.adoptOrKeep start = g at builtCopy
  obtain ⟨e, -, rfl⟩ := exists_reading_of_built role built
  refine ⟨_, g, rfl, builtCopy, ?_⟩
  have arrivals : builtChildren config (producer.pushChild copy).children =
      builtChildren config producer.children ++ [⟨copy.name, ⟨.dataProducerGroup, g⟩⟩] := by
    simp only [builtChildren, Element.pushChild, List.filterMap_append, List.filterMap_cons,
      built?_of_result builtCopy, List.filterMap_nil, Option.map_some]
  rw [arrivals, List.foldl_append, List.foldl_cons, List.foldl_nil,
    Entity.members_adoptOrKeep _ _ rfl, routed?_group copyRole]
  obtain ⟨other, held, agree⟩ :=
    exists_mem_keepNew _ (Entity.same_refl (nanFree_dataProducerGroup g))
  exact ⟨other, held, agree, Entity.same_symm agree⟩

namespace Inversion

/-- A root is turned inside out exactly if it consists of a group with members. Then it stays as
it is but for its children: these are the producers of the group, each with the copy of the group
as one more child, its last. Nothing changes a second time, and a producer that is built has the
group that the copy is built into, or one that is the same. -/
theorem group_turned_inside_out (root : Element) :
    ((invert? root).isSome = true ↔ ∃ group, root.children = [group] ∧
      group.hasTag Kind.dataProducerGroup.tag = true ∧ group.children ≠ []) ∧
    (invert? root = none → invert root = root) ∧
    (invert? (invert root) = none ∧ invert (invert root) = invert root) ∧
    ∀ turned, invert? root = some turned → invert root = turned ∧
      ∃ group copy, root.children = [group] ∧ CopyOf group copy ∧
        turned = { root with
          children := (group.children.filter (·.hasTagIn Kind.dataProducer.acceptedTags)).map
            (·.pushChild copy) } ∧
        ∀ producer ∈ turned.children, ∀ config r, (buildElement config producer).result = .ok r →
          ∃ p g, r = some ⟨.dataProducer, p⟩ ∧
            (buildElement config copy).result = .ok (some ⟨.dataProducerGroup, g⟩) ∧
            ∃ other ∈ p.members .dataProducerGroups, other.same g = true ∧ g.same other = true := by
  have settled : invert? (invert root) = none := by
    cases inverted : invert? root with
    | none => rw [invert, inverted, Option.getD_none, inverted]
    | some turned => rw [invert, inverted, Option.getD_some, invert?_of_invert? inverted]
  refine ⟨isSome_invert?_iff, fun none => ?_, ⟨settled, ?_⟩, fun turned inverted => ?_⟩
  · rw [invert, none, Option.getD_none]
  · rw [invert, settled, Option.getD_none]
  · obtain ⟨group, only, role, rfl⟩ := exists_group_of_invert? inverted
    refine ⟨by rw [invert, inverted, Option.getD_some], group, emptied group, only,
      copyOf_emptied group, rfl, fun producer member config r built => ?_⟩
    obtain ⟨origin, among, rfl⟩ := List.mem_map.mp member
    have copyRole : Role.ofTag? (emptied group).name = some (.entity .dataProducerGroup) := by
      rw [(copyOf_emptied group).name]
      exact role
    exact exists_same_group (role_of_mem_producers among) copyRole built

def mixedGroup : Element :=
  groupOf "dataPRODUCERgroup" [.ofText "description" " b ", .ofName "Deployment",
    .ofName "Keyword", .ofText "Description" " c "]

theorem group_turned_inside_out_mixed :
    let producer := (Element.ofName "Deployment").pushChild (emptied mixedGroup)
    invert? (rootOf mixedGroup) = some { rootOf mixedGroup with children := [producer] } ∧
      (∃ r, (buildElement {} producer).result = .ok r) ∧
      ∃ copy p g, CopyOf mixedGroup copy ∧
        (buildElement {} producer).result = .ok (some ⟨.dataProducer, p⟩) ∧
        (buildElement {} copy).result = .ok (some ⟨.dataProducerGroup, g⟩) ∧
        ∃ other ∈ p.members .dataProducerGroups, other.same g = true ∧ g.same other = true := by
  intro producer
  have inverted : invert? (rootOf mixedGroup) =
      some { rootOf mixedGroup with children := [producer] } := by
    rfl
  obtain ⟨r, built⟩ := Recorded.exists_of_isOk
    (show (buildElement {} producer).result.isOk = true by decide +kernel)
  obtain ⟨-, group, copy, only, copied, -, builds⟩ :=
    (group_turned_inside_out (rootOf mixedGroup)).2.2.2 _ inverted
  cases only
  obtain ⟨p, g, rfl, builtCopy, same⟩ :=
    builds producer (List.mem_singleton_self producer) {} r built
  exact ⟨inverted, ⟨_, built⟩, copy, p, g, copied, built, builtCopy, same⟩

end Inversion

end ShoreMetadata
