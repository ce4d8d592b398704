import Mathlib.Computability.RegularExpressions
import ShoreMetadata.Proofs.Export.Acceptance

/-! The shape of exported trees. No element is empty, a wrapper holds one element, the names of
the attributes of an element differ, and the children of containers and producers stand in the
order of the dialect and the type. -/

namespace ShoreMetadata

open Xml (Element)

abbrev TagOrder := RegularExpression String

namespace TagOrder

def oneOf (tags : List String) : TagOrder :=
  (tags.map .char).sum

def atMostOne (tags : List String) : TagOrder :=
  1 + oneOf tags

def anyNumber (tags : List String) : TagOrder :=
  .star (oneOf tags)

private theorem singleton_mem_oneOf {tags : List String} {tag : String} (member : tag ∈ tags) :
    [tag] ∈ (oneOf tags).matches' := by
  induction tags with
  | nil => cases member
  | cons first rest ih =>
      rw [oneOf, List.map_cons, List.sum_cons, RegularExpression.matches'_add, Language.mem_add]
      rcases List.mem_cons.mp member with rfl | member
      · exact .inl rfl
      · exact .inr (ih member)

private theorem mem_anyNumber {tags names : List String} (known : names ⊆ tags) :
    names ∈ (anyNumber tags).matches' := by
  rw [anyNumber, RegularExpression.matches'_star, Language.mem_kstar]
  refine ⟨names.map ([·]), (List.flatMap_singleton' names).symm, ?_⟩
  rw [List.forall_mem_map]
  intro name member
  exact singleton_mem_oneOf (known member)

private theorem mem_atMostOne {tags names : List String} (few : names.length ≤ 1)
    (known : names ⊆ tags) : names ∈ (atMostOne tags).matches' := by
  rw [atMostOne, RegularExpression.matches'_add, Language.mem_add]
  match names, few with
  | [], _ => exact .inl rfl
  | [name], _ => exact .inr (singleton_mem_oneOf (known (List.mem_singleton_self name)))

private theorem flatMap_mem_prod {α : Type} {order : α → TagOrder} {names : α → List String}
    {parts : List α} (each : ∀ part ∈ parts, names part ∈ (order part).matches') :
    parts.flatMap names ∈ (parts.map order).prod.matches' := by
  induction parts with
  | nil => rfl
  | cons part rest ih =>
      rw [List.forall_mem_cons] at each
      rw [List.flatMap_cons, List.map_cons, List.prod_cons, RegularExpression.matches'_mul,
        Language.mem_mul]
      exact ⟨names part, each.1, rest.flatMap names, ih each.2, rfl⟩

end TagOrder

open TagOrder

/-- The order of the children of containers and producers, by the tag of their parent. -/
def childOrder? : String → Option TagOrder
  | "DataContainer" => some <| List.prod
    [anyNumber ["consumer"], atMostOne ["description"], anyNumber ["DataContainerGroup"],
      atMostOne ["HeaderDescription"], anyNumber ["Keyword"], atMostOne ["Person"],
      atMostOne ["RecordDescription"], anyNumber ["Resource"]]
  | "DataFile" => some <| List.prod
    [anyNumber ["destiny"], atMostOne ["Person"], anyNumber ["Resource"],
      atMostOne ["HeaderDescription"], atMostOne ["description"], atMostOne ["RecordDescription"]]
  | "DataStream" => some <| List.prod
    [anyNumber ["destiny"], atMostOne ["Person"], anyNumber ["Resource"],
      atMostOne ["description"], atMostOne ["RecordDescription"]]
  | "DataProducer" => some <| List.prod
    [anyNumber ["DataProducer"], anyNumber ["DataProducerGroup"], atMostOne ["description"],
      atMostOne ["Device"], anyNumber ["Event"], anyNumber ["Keyword"], anyNumber ["output"],
      atMostOne ["Person"], anyNumber ["Resource"], atMostOne ["Software"]]
  | "Deployment" => some <| List.prod
    [atMostOne ["Device"], anyNumber ["Deployment", "ProcessRun"], atMostOne ["Person"],
      atMostOne ["description"], anyNumber ["Resource"], anyNumber ["Event"],
      anyNumber ["output"]]
  | "ProcessRun" => some <| List.prod
    [atMostOne ["description"], atMostOne ["Person"], atMostOne ["Software"],
      anyNumber ["Resource"], anyNumber ["Event"], anyNumber ["output"]]
  | _ => none

def Slot.tagsIn (s : Slot) (dialect : Dialect) : List String :=
  match s.wrapper? with
  | some w => [w.tag dialect]
  | none => s.target.writtenTags dialect

def Part.order (dialect : Dialect) : Part → TagOrder
  | .description => atMostOne [descriptionTag]
  | .slot s => if s.arity = .one then atMostOne (s.tagsIn dialect) else anyNumber (s.tagsIn dialect)

private theorem Slot.length_wrap_le (s : Slot) (dialect : Dialect) (content? : Option Element) :
    (s.wrap dialect content?).length ≤ 1 := by
  unfold wrap
  split
  · exact Nat.zero_le 1
  · split
    · exact Nat.zero_le 1
    · split <;> exact Nat.le_refl 1

namespace Entity

variable {k : Kind} (dialect : Dialect) (direction : Direction) (e : Entity k)

private theorem names_childElements (s : Slot) :
    (e.childElements dialect direction s).map Element.name ⊆ s.tagsIn dialect := by
  intro name member
  obtain ⟨child, written, rfl⟩ := List.mem_map.mp member
  rw [childElements] at written
  split at written
  · obtain ⟨other, _, inSlot⟩ := List.mem_flatMap.mp written
    obtain ⟨content, exported, _, wraps⟩ := Slot.mem_wrap_iff.mp inSlot
    rw [Slot.tagsIn]
    rcases wraps with ⟨unwrapped, rfl⟩ | ⟨w, wrapped, rfl⟩
    · rw [unwrapped, eq_element_of_toElement exported]
      exact other.tag_mem_writtenTags
    · rw [wrapped]
      exact List.mem_singleton_self _
  · cases written

private theorem length_childElements_le {s : Slot} (one : s.arity = .one) :
    (e.childElements dialect direction s).length ≤ 1 := by
  rw [childElements]
  split
  · rw [Slot.inOrder_of_one one]
    have most := e.length_members_le one
    generalize e.members s = members at most ⊢
    cases members with
    | nil => exact Nat.zero_le 1
    | cons c others =>
        cases others with
        | nil =>
            rw [List.flatMap_singleton]
            exact s.length_wrap_le dialect _
        | cons => simp at most
  · exact Nat.zero_le 1

private theorem length_descriptionElement_le : e.descriptionElement.length ≤ 1 := by
  unfold descriptionElement
  split
  · split <;> simp
  · simp

private theorem name_of_mem_descriptionElement {child : Element}
    (member : child ∈ e.descriptionElement) : child.name = descriptionTag := by
  unfold descriptionElement at member
  split at member
  · split at member
    · cases member
    · rw [List.mem_singleton.mp member]
      rfl
  · cases member

private theorem names_partElements (part : Part) :
    (e.partElements dialect direction part).map Element.name ∈ (part.order dialect).matches' := by
  cases part with
  | description =>
      apply mem_atMostOne
      · rw [List.length_map]
        exact e.length_descriptionElement_le
      · intro name member
        obtain ⟨child, written, rfl⟩ := List.mem_map.mp member
        exact List.mem_singleton.mpr (e.name_of_mem_descriptionElement written)
  | slot s =>
      rw [Part.order]
      split
      · rename_i one
        apply mem_atMostOne
        · rw [List.length_map]
          exact e.length_childElements_le dialect direction one
        · exact e.names_childElements dialect direction s
      · exact mem_anyNumber (e.names_childElements dialect direction s)

private theorem prod_order_parts {order : TagOrder}
    (ordered : childOrder? (e.tag dialect) = some order) :
    ((e.parts dialect).map (Part.order dialect)).prod = order := by
  cases k with
  | dataContainer =>
      rw [tag] at ordered
      rw [parts]
      cases dialect with
      | current => exact Option.some.inj ordered
      | legacy =>
          generalize (e.get? .dataContainerType : Option ContainerType) = type at ordered ⊢
          match type with
          | none => exact Option.some.inj ordered
          | some .file => exact Option.some.inj ordered
          | some .stream => exact Option.some.inj ordered
  | dataProducer =>
      rw [tag] at ordered
      rw [parts]
      cases dialect with
      | current => exact Option.some.inj ordered
      | legacy =>
          generalize (e.get? .dataProducerType : Option ProducerType) = type at ordered ⊢
          match type with
          | none => exact Option.some.inj ordered
          | some .deployment => exact Option.some.inj ordered
          | some .processRun => exact Option.some.inj ordered
  | _ => cases ordered

private theorem names_children_element {order : TagOrder}
    (ordered : childOrder? (e.tag dialect) = some order) :
    (e.element dialect direction).children.map Element.name ∈ order.matches' := by
  rw [← e.prod_order_parts dialect ordered]
  change ((e.parts dialect).flatMap (e.partElements dialect direction)).map Element.name ∈ _
  rw [List.map_flatMap]
  exact flatMap_mem_prod fun part _ => e.names_partElements dialect direction part

end Entity

/-- What an element looks like by itself, whatever it holds. -/
structure Xml.Element.Arranged (x : Element) : Prop where
  content : ∀ w : Wrapper, x.name ∈ (Role.wrapper w).tags →
    ∃ content, x.children = [content] ∧ content.name ∈ w.contentTags
  distinct : (x.attributes.map Prod.fst).Nodup
  ordered : ∀ order, childOrder? x.name = some order →
    x.children.map Element.name ∈ order.matches'

structure Xml.Element.Shaped (x : Element) : Prop extends x.Arranged where
  something : x.attributes ≠ [] ∨ x.children ≠ [] ∨ Text.isBlankText x.text = false

theorem Xml.Element.something_of_isEmpty {x : Element} (something : x.isEmpty = false) :
    x.attributes ≠ [] ∨ x.children ≠ [] ∨ Text.isBlankText x.text = false := by
  simp only [isEmpty, Bool.and_eq_false_iff, List.isEmpty_eq_false_iff] at something
  simpa [or_assoc] using something

private theorem Role.eq_of_mem_tags {tag : String} {role : Role} {w : Wrapper}
    (told : Role.ofTag? tag = some role) (member : tag ∈ (Role.wrapper w).tags) :
    role = .wrapper w := by
  have wraps : Role.ofTag? tag = some (.wrapper w) :=
    Role.ofTag?_eq_some_iff.mpr ⟨tag, member, Text.sameName_iff.mpr rfl⟩
  exact Option.some.inj (told.symm.trans wraps)

variable {dialect : Dialect} {direction : Direction}

private theorem arranged_description (text : String) :
    (Element.ofText descriptionTag text).Arranged where
  content := fun w member => by cases Role.eq_of_mem_tags role_descriptionTag member
  distinct := .nil
  ordered := fun _ ordered => by cases ordered

namespace Entity

variable {k : Kind}

private theorem arranged_element (e : Entity k) : (e.element dialect direction).Arranged where
  content := fun w member => by cases Role.eq_of_mem_tags e.role_tag member
  distinct := e.nodup_keys_toAttributes
  ordered := fun _ => e.names_children_element dialect direction

private theorem arranged_wrapper (w : Wrapper) (c : Entity k) (kind : w.contentKind = k) :
    ((Element.ofName (w.tag dialect)).pushChild (c.element dialect direction)).Arranged where
  content := by
    intro other member
    cases Role.eq_of_mem_tags (w.role_tag dialect) member
    refine ⟨c.element dialect direction, rfl, ?_⟩
    rw [Wrapper.contentTags, kind]
    exact c.tag_mem_acceptedTags
  distinct := .nil
  ordered := by
    intro order ordered
    cases w <;> cases dialect <;> cases ordered

private theorem everywhere_arranged (e : Entity k) {x : Element}
    (exported : e.toElement dialect direction = some x) : x.Everywhere Element.Arranged :=
  everywhere_toElement (fun e _ => e.arranged_element) (fun text _ => arranged_description text)
    (fun w _ c kind _ => arranged_wrapper w c kind) e
    (everywhere_of_forall (P := fun _ _ => True) (fun _ => trivial) e) x exported

/-- Only the top of an exported element can be empty. -/
theorem everywhere_filled (e : Entity k) {x : Element}
    (exported : e.toElement dialect direction = some x) :
    x.Everywhere fun y => ∀ child ∈ y.children, child.isEmpty = false := by
  refine everywhere_toElement (fun e _ child => isEmpty_of_mem_children_element)
    (fun text _ child member => ?_) (fun w _ c _ something child member => ?_) e
    (everywhere_of_forall (P := fun _ _ => True) (fun _ => trivial) e) x exported
  · cases member
  · rw [List.mem_singleton.mp member]
    exact something

end Entity

/-- Below the root of an exported document every element has its shape. -/
theorem marshal_shaped (config : Config) (entities : List AnyEntity) :
    ∀ child ∈ (marshal config entities).children, child.Everywhere Element.Shaped := by
  intro child member
  obtain ⟨e, _, written⟩ := List.mem_filterMap.mp member
  obtain ⟨exported, something⟩ := Option.filter_eq_some_iff.mp written
  have filled : child.Everywhere fun x => x.isEmpty = false :=
    .of_children (by simpa using something) (e.entity.everywhere_filled exported)
  refine ((e.entity.everywhere_arranged exported).both filled).mono fun x both => ?_
  exact ⟨both.1, Element.something_of_isEmpty both.2⟩

theorem marshal_shaped_legacy :
    let run : Entity .dataProducer :=
      ((Entity.empty _).set .dataProducerType (some .processRun)).set .name (some "merge")
    let file : Entity .dataContainer :=
      ((Entity.empty _).set .description (some "cast")).accept .consumers run
    let entities : List AnyEntity := [⟨_, .empty .device⟩, ⟨_, file⟩]
    ∃ child ∈ (marshal { dialect := .legacy } entities).children, child.name = "DataFile" ∧
      child.children.map Element.name = ["destiny", "description"] ∧
      child.Everywhere Element.Shaped := by
  intro run file entities
  obtain ⟨child, member, name, inside⟩ :
      ∃ child ∈ (marshal { dialect := .legacy } entities).children, child.name = "DataFile" ∧
        child.children.map Element.name = ["destiny", "description"] := by
    decide +kernel
  exact ⟨child, member, name, inside, marshal_shaped _ _ child member⟩

end ShoreMetadata
