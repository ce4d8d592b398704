import ShoreMetadata.Export.Element
import ShoreMetadata.Proofs.Entity.Tree
import ShoreMetadata.Proofs.Entity.Variables
import ShoreMetadata.Proofs.Schema.Tag
import ShoreMetadata.Proofs.Xml.Tree

/-! The element of an entity: its tag, its attributes and where its children come
from. -/

namespace ShoreMetadata

open Xml (Element)

def Slot.inOrder : (s : Slot) → List (Entity s.target) → List (Entity s.target)
  | .recordVariables, items => orderByColumn Entity.column? items
  | _, items => items

def Kind.writtenTags : Kind → Dialect → List String
  | .dataContainer, .legacy => ["DataFile", "DataStream"]
  | .dataProducer, .legacy => ["Deployment", "ProcessRun"]
  | k, _ => [k.tag]

private theorem Kind.writtenTags_subset (k : Kind) (dialect : Dialect) :
    k.writtenTags dialect ⊆ k.acceptedTags := by
  cases dialect <;> cases k <;> decide

namespace Slot

theorem mem_inOrder {s : Slot} {items : List (Entity s.target)} {e : Entity s.target} :
    e ∈ s.inOrder items ↔ e ∈ items := by
  cases s with
  | recordVariables => exact mem_orderByColumn
  | _ => exact Iff.rfl

theorem inOrder_nil (s : Slot) : s.inOrder [] = [] :=
  List.eq_nil_iff_forall_not_mem.mpr fun _ member => List.not_mem_nil (mem_inOrder.mp member)

def Wraps (s : Slot) (dialect : Dialect) (child content : Element) : Prop :=
  (s.wrapper? = none ∧ child = content) ∨
    ∃ w, s.wrapper? = some w ∧ child = (Element.ofName (w.tag dialect)).pushChild content

theorem inOrder_of_one {s : Slot} (one : s.arity = .one) (items : List (Entity s.target)) :
    s.inOrder items = items := by
  cases s <;> first | rfl | cases one

private theorem Wraps.isEmpty_eq_false {s : Slot} {dialect : Dialect} {child content : Element}
    (wraps : s.Wraps dialect child content) (something : content.isEmpty = false) :
    child.isEmpty = false := by
  rcases wraps with ⟨_, rfl⟩ | ⟨w, _, rfl⟩
  · exact something
  · rfl

theorem mem_wrap_iff {s : Slot} {dialect : Dialect} {content? : Option Element}
    {child : Element} : child ∈ s.wrap dialect content? ↔
      ∃ content, content? = some content ∧ content.isEmpty = false ∧
        s.Wraps dialect child content := by
  cases content? with
  | none => simp [wrap]
  | some content =>
      unfold wrap Wraps
      cases something : content.isEmpty with
      | true => simp [something]
      | false => cases s.wrapper? <;> simp [something]

theorem arrange_map {α : Type} (s : Slot) (g : Entity s.target → α)
    (items : List (Entity s.target)) :
    s.arrange (items.map fun e => (e, g e)) = (s.inOrder items).map fun e => (e, g e) := by
  cases s with
  | recordVariables =>
      exact (orderByColumn_map (fun item : Entity .recordVariable × α => Entity.column? item.1)
        (fun e => (e, g e)) items).symm
  | _ => rfl

end Slot

namespace Entity

variable {k : Kind} (dialect : Dialect) (direction : Direction)

def childElements (e : Entity k) (s : Slot) : List Element :=
  if s.isFollowed direction then
    (s.inOrder (e.members s)).flatMap fun child =>
      s.wrap dialect (child.toElement dialect direction)
  else []

def partElements (e : Entity k) : Part → List Element
  | .description => e.descriptionElement
  | .slot s => e.childElements dialect direction s

def element (e : Entity k) : Element where
  name := e.tag dialect
  attributes := e.toAttributes dialect
  children := (e.parts dialect).flatMap (e.partElements dialect direction)
  text := ""
  position := .none

end Entity

private theorem Members.toElements_eq (dialect : Dialect) (direction : Direction) :
    {a : Arity} → {k : Kind} → (members : Members a k) →
      Members.toElements dialect direction members =
        members.toList.map fun child => (child, child.toElement dialect direction)
  | _, _, .absent => rfl
  | _, _, .present _ => rfl
  | _, _, .nil => rfl
  | _, _, .cons e rest => by
      rw [Members.toElements, Members.toElements_eq dialect direction rest]
      rfl

private theorem Links.toElements_eq (dialect : Dialect) (direction : Direction) (s : Slot) :
    {ss : List Slot} → (links : Links ss) →
      Links.toElements dialect direction s links =
        if s.isFollowed direction then
          (s.inOrder (links.get s).toList).flatMap fun child =>
            s.wrap dialect (child.toElement dialect direction)
        else []
  | _, .nil => by
      rw [Links.toElements, Links.get, Members.toList_empty, s.inOrder_nil]
      simp
  | t :: _, .cons members rest => by
      by_cases same : t = s
      · subst same
        have here : (Links.cons members rest).get t = members := by simp [Links.get]
        rw [Links.toElements, if_pos rfl, here, Members.toElements_eq, Slot.arrange_map,
          List.flatMap_map]
      · have there : (Links.cons members rest).get s = rest.get s := by simp [Links.get, same]
        rw [Links.toElements, if_neg same, there, Links.toElements_eq dialect direction s rest]

namespace Entity

variable {k : Kind} {dialect : Dialect} {direction : Direction}

theorem toElement_eq (e : Entity k) :
    e.toElement dialect direction =
      match k.required? with
      | none => some (e.element dialect direction)
      | some f => if (e.get? f).isSome then some (e.element dialect direction) else none := by
  cases e with
  | mk values version links =>
      rw [toElement, assemble]
      simp only [Links.toElements_eq]
      rfl

theorem eq_element_of_toElement {e : Entity k} {x : Element}
    (exported : e.toElement dialect direction = some x) : x = e.element dialect direction := by
  rw [toElement_eq] at exported
  split at exported
  · exact (Option.some.inj exported).symm
  · split at exported
    · exact (Option.some.inj exported).symm
    · cases exported

theorem tag_mem_writtenTags (e : Entity k) : e.tag dialect ∈ k.writtenTags dialect := by
  cases k with
  | dataContainer =>
      change ContainerType.tag (e.get? .dataContainerType) dialect ∈ _
      generalize e.get? .dataContainerType = type
      revert type
      cases dialect with
      | current => exact fun _ => List.mem_cons_self
      | legacy =>
          intro type
          match type with
          | none => decide
          | some .file => decide
          | some .stream => decide
  | dataProducer =>
      change ProducerType.tag (e.get? .dataProducerType) dialect ∈ _
      generalize e.get? .dataProducerType = type
      revert type
      cases dialect with
      | current => exact fun _ => List.mem_cons_self
      | legacy =>
          intro type
          match type with
          | none => decide
          | some .deployment => decide
          | some .processRun => decide
  | _ => exact List.mem_cons_self

theorem tag_mem_acceptedTags (e : Entity k) : e.tag dialect ∈ k.acceptedTags :=
  k.writtenTags_subset dialect e.tag_mem_writtenTags

theorem role_tag (e : Entity k) : Role.ofTag? (e.tag dialect) = some (.entity k) :=
  Role.ofTag?_eq_some_iff.mpr ⟨_, e.tag_mem_acceptedTags, Text.sameName_iff.mpr rfl⟩

private theorem mem_toAttributes_values {fs : List Field} (distinct : fs.Nodup) {values : Values fs}
    {p : Field → Bool} {a : String × String} :
    a ∈ values.toAttributes p ↔ ∃ f v, values.get? f = some v ∧ p f = true ∧
      ∃ text, f.type.text? v = some text ∧ a = (f.xmlName, text) := by
  rw [Values.toAttributes, Values.mapPresent_eq_map, List.mem_filterMap]
  constructor
  · rintro ⟨written, member, shape⟩
    obtain ⟨⟨f, v⟩, entry, rfl⟩ := List.mem_map.mp member
    rw [Values.mem_entries_iff distinct] at entry
    simp only [id_eq] at shape
    split at shape
    · rename_i kept
      obtain ⟨text, written, rfl⟩ := Option.map_eq_some_iff.mp shape
      exact ⟨f, v, entry, kept, text, written, rfl⟩
    · cases shape
  · rintro ⟨f, v, stored, kept, text, written, rfl⟩
    refine ⟨some (f.xmlName, text), List.mem_map.mpr ⟨⟨f, v⟩, ?_, ?_⟩, rfl⟩
    · exact (Values.mem_entries_iff distinct values).mpr stored
    · simp [kept, written]

theorem mem_toAttributes {e : Entity k} {a : String × String}
    (member : a ∈ e.toAttributes dialect) :
    (∃ f v, e.get? f = some v ∧ ∃ text, f.type.text? v = some text ∧ a = (f.xmlName, text)) ∨
      e.version ≠ .unknown ∧ a = ("version", Number.integerText e.version.toInt) := by
  have ofValues : ∀ {p : Field → Bool}, a ∈ e.values.toAttributes p →
      ∃ f v, e.get? f = some v ∧ ∃ text, f.type.text? v = some text ∧ a = (f.xmlName, text) := by
    intro p member
    obtain ⟨f, v, stored, _, text, written, shape⟩ :=
      (mem_toAttributes_values k.nodup_fields).mp member
    exact ⟨f, v, stored, text, written, shape⟩
  rw [toAttributes, List.mem_append, List.mem_append] at member
  rcases member with (member | member) | member
  · exact .inl (ofValues member)
  · rw [versionAttribute] at member
    split at member
    · cases member
    · rename_i known
      exact .inr ⟨known, List.mem_singleton.mp member⟩
  · exact .inl (ofValues member)

theorem mem_children_element {e : Entity k} {child : Element}
    (member : child ∈ (e.element dialect direction).children) :
    (∃ text, (e.get? .description : Option String) = some text ∧
      Text.isBlankText text = false ∧ child = .ofText descriptionTag text) ∨
    ∃ s ∈ k.slots, s.isFollowed direction = true ∧ ∃ other ∈ e.members s, ∃ content,
      other.toElement dialect direction = some content ∧ content.isEmpty = false ∧
        s.Wraps dialect child content := by
  obtain ⟨part, _, member⟩ := List.mem_flatMap.mp member
  cases part with
  | description =>
      left
      rw [partElements, descriptionElement] at member
      split at member
      · rename_i text stored
        split at member
        · cases member
        · rename_i told
          exact ⟨text, stored, Bool.eq_false_iff.mpr told, List.mem_singleton.mp member⟩
      · cases member
  | slot s =>
      right
      rw [partElements, childElements] at member
      split at member
      · rename_i followed
        obtain ⟨other, inSlot, member⟩ := List.mem_flatMap.mp member
        have held := Slot.mem_inOrder.mp inSlot
        have slotMember : s ∈ k.slots := by
          by_cases known : s ∈ k.slots
          · exact known
          · rw [e.members_of_not_mem known] at held
            cases held
        obtain ⟨content, exported, something, wraps⟩ := Slot.mem_wrap_iff.mp member
        exact ⟨s, slotMember, followed, other, held, content, exported, something, wraps⟩
      · cases member

theorem isEmpty_of_mem_children_element {e : Entity k} {child : Element}
    (member : child ∈ (e.element dialect direction).children) : child.isEmpty = false := by
  rcases mem_children_element member with
    ⟨text, _, told, rfl⟩ | ⟨s, _, _, other, _, content, _, something, wraps⟩
  · simp [Element.isEmpty, Element.ofText, told]
  · exact wraps.isEmpty_eq_false something

/-- A property of the elements of entities, of descriptions and of wrappers is one of every
element in an exported tree. -/
theorem everywhere_toElement {P : Element → Prop} {Q : (k : Kind) → Entity k → Prop}
    (entity : ∀ {k : Kind} (e : Entity k), Q k e → P (e.element dialect direction))
    (description : ∀ text, Text.isBlankText text = false → P (.ofText descriptionTag text))
    (wrapper : ∀ (w : Wrapper) {k : Kind} (c : Entity k), w.contentKind = k →
      (c.element dialect direction).isEmpty = false →
      P ((Element.ofName (w.tag dialect)).pushChild (c.element dialect direction))) :
    {k : Kind} → (e : Entity k) → e.Everywhere Q → ∀ x,
      e.toElement dialect direction = some x → x.Everywhere P := by
  intro k e
  induction e using Entity.induction with
  | step e ih =>
      intro everywhere x exported
      rw [eq_element_of_toElement exported]
      refine .intro (entity e everywhere.here) fun child member => ?_
      rcases mem_children_element member with
        ⟨text, _, told, rfl⟩ | ⟨s, _, _, other, held, content, found, something, wraps⟩
      · exact .intro (description text told) (by simp [Element.ofText])
      · have inside := ih s other held (everywhere.inside s other held) content found
        cases eq_element_of_toElement found
        rcases wraps with ⟨_, rfl⟩ | ⟨w, wrapped, rfl⟩
        · exact inside
        · refine .intro (wrapper w other (Slot.contentKind_of_wrapper? wrapped) something)
            fun child member => ?_
          rw [List.mem_singleton.mp member]
          exact inside

end Entity

end ShoreMetadata
