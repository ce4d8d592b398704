import ShoreMetadata.Proofs.Document.Inversion
import ShoreMetadata.Proofs.Import.FromText

/-! Unknown elements in a strict reading. It refuses those that it comes to, and it does not come
to what is in a description, beside the content of a wrapper, or dropped when a group is turned
inside out. -/

namespace ShoreMetadata

open Recorded (Yields)
open Xml (Element)

namespace Xml.Element

inductive Ignores (e child : Element) : Prop
  | described (role : Role.ofTag? e.name = some .description)
  | unselected {w : Wrapper} (role : Role.ofTag? e.name = some (.wrapper w))
      (other : e.firstChildIn? w.contentTags ≠ some child)

/-- An element lies in a part of another that building the latter does not come to. -/
def PassedOver (x e : Element) : Prop :=
  ∃ parent : Element, parent.Occurs e ∧
    ∃ child ∈ parent.children, parent.Ignores child ∧ x.Occurs child

theorem PassedOver.inside {x e child : Element} (member : child ∈ e.children)
    (passed : x.PassedOver child) : x.PassedOver e := by
  obtain ⟨parent, within, rest⟩ := passed
  exact ⟨parent, .inside member within, rest⟩

/-- All tags are known, except in what is ignored. -/
inductive Checked : Element → Prop
  | intro {e : Element} {role : Role} (known : Role.ofTag? e.name = some role)
      (inside : ∀ child ∈ e.children, ¬e.Ignores child → Checked child) : Checked e

private theorem Checked.passedOver {x e : Element} (checked : e.Checked) (within : x.Occurs e)
    (unknown : Role.ofTag? x.name = none) : x.PassedOver e := by
  induction within with
  | here =>
      obtain ⟨known, _⟩ := checked
      cases unknown.symm.trans known
  | @inside parent child member within ih =>
      obtain ⟨_, inside⟩ := checked
      by_cases ignored : parent.Ignores child
      · exact ⟨_, .here, _, member, ignored, within⟩
      · exact .inside member (ih (inside _ member ignored))

theorem checked_of_description {e : Element} (role : Role.ofTag? e.name = some .description) :
    e.Checked :=
  .intro role fun _ _ unignored => absurd (.described role) unignored

private theorem Checked.children_of_entity {e : Element} {k : Kind} (checked : e.Checked)
    (entity : Role.ofTag? e.name = some (.entity k)) : ∀ child ∈ e.children, child.Checked := by
  obtain ⟨_, inside⟩ := checked
  intro child member
  refine inside child member fun ignored => ?_
  cases ignored with
  | described role => cases entity.symm.trans role
  | unselected role => cases entity.symm.trans role

end Xml.Element

section

variable {config : Config} (strict : config.isStrict = true)

private theorem buildChildren_checked {children : List Element}
    (inside : ∀ child ∈ children, Yields (fun _ => child.Checked) (buildElement config child)) :
    Yields (fun _ => ∀ child ∈ children, child.Checked) (buildChildren config children) := by
  induction children with
  | nil => exact .ok (by simp)
  | cons child rest ih =>
      rw [List.forall_mem_cons] at inside
      simp only [List.forall_mem_cons]
      rw [buildChildren]
      split
      · rename_i described
        have checked := Element.checked_of_description (Element.hasTag_description_iff.mp described)
        exact (ih inside.2).bind fun offspring others => .ok ⟨checked, others⟩
      · refine inside.1.bind fun built checked => (ih inside.2).bind fun offspring others => ?_
        cases built with
        | none => exact .ok ⟨checked, others⟩
        | some entity => exact .ok ⟨checked, others⟩

include strict

private theorem buildElement_checked (x : Element) :
    Yields (fun _ => x.Checked) (buildElement config x) := by
  induction x using Element.induction with
  | step x ih =>
      obtain ⟨name, attributes, children, text, position⟩ := x
      rw [buildElement]
      cases role : Role.ofTag? name with
      | none =>
          simp only [unknownElement, strict, if_true]
          exact .fail _
      | some found =>
          cases found with
          | entity k =>
              have read : Yields (fun _ => True) (Recorded.ofExcept
                  ((Entity.ofTag k name).readAttributes config ⟨name, position.line⟩
                    attributes)) := fun _ _ => trivial
              refine read.bind fun e _ => (buildChildren_checked ih).bind fun offspring inside => ?_
              intro built _
              exact .intro role fun child member _ => inside child member
          | wrapper w =>
              intro built succeeded
              -- Only the selected child was built, and it alone is not ignored.
              refine .intro role fun child member unignored => ?_
              have selected : children.find? (·.hasTagIn w.contentTags) = some child := by
                by_contra other
                exact unignored (.unselected role other)
              simp only [buildContent_eq, selected] at succeeded
              exact ih child member built succeeded
          | description => exact .ok (Element.checked_of_description role)

private theorem buildDocument_checked (d : Document) (children : List Element) :
    Yields (fun _ => ∀ child ∈ children, child.Checked) (buildDocument config d children) := by
  induction children generalizing d with
  | nil => exact .ok (by simp)
  | cons child rest ih =>
      simp only [List.forall_mem_cons]
      rw [buildDocument]
      refine (buildElement_checked strict child).bind fun built checked => ?_
      cases built with
      | none =>
          intro last ended
          exact ⟨checked, ih d last ended⟩
      | some e =>
          intro last ended
          exact ⟨checked, ih (d.insert e).1 last ended⟩

end

namespace Inversion

/-- A member of a group that is dropped when the group is turned inside out. -/
structure Drops (group member : Element) : Prop where
  among : member ∈ group.children
  noDescription : member.hasTag descriptionTag = false
  noProducer : member.hasTagIn Kind.dataProducer.acceptedTags = false

private theorem checked_of_pushChild {producer copy : Element}
    (role : Role.ofTag? producer.name = some (.entity .dataProducer))
    (checked : (producer.pushChild copy).Checked) : producer.Checked := by
  refine .intro role fun child member _ => ?_
  apply checked.children_of_entity role
  exact List.mem_append_left _ member

private theorem passedOver_of_invert {root child x : Element}
    (checked : ∀ raised ∈ (invert root).children, raised.Checked) (member : child ∈ root.children)
    (within : x.Occurs child) (unknown : Role.ofTag? x.name = none) :
    x.PassedOver child ∨
      ∃ group dropped, soleGroup? root = some group ∧ Drops group dropped ∧ x.Occurs dropped := by
  cases sole : soleGroup? root with
  | none =>
      rw [invert_of_soleGroup? sole] at checked
      exact .inl ((checked child member).passedOver within unknown)
  | some group =>
      obtain ⟨only, role⟩ := soleGroup?_eq_some sole
      rw [only, List.mem_singleton] at member
      subst member
      -- The group itself is known, so that the element lies in one of its members.
      cases within with
      | here => cases unknown.symm.trans role
      | @inside _ part among within =>
          by_cases described : part.hasTag descriptionTag = true
          · have aside := Element.checked_of_description
              (Element.hasTag_description_iff.mp described)
            exact .inl (.inside among (aside.passedOver within unknown))
          · by_cases produces : part.hasTagIn Kind.dataProducer.acceptedTags = true
            · have raised : part.pushChild (emptied child) ∈ (invert root).children := by
                rw [invert, invert?, sole]
                exact List.mem_map_of_mem (List.mem_filter.mpr ⟨among, produces⟩)
              have alone := checked_of_pushChild
                (Element.hasTagIn_tags_iff.mp produces) (checked _ raised)
              exact .inl (.inside among (alone.passedOver within unknown))
            · exact .inr ⟨child, part, rfl, ⟨among, by simpa using described,
                by simpa using produces⟩, within⟩

end Inversion

/-- An unknown element in a text that a strict reading accepts lies where it does not come to: in
a description, beside the content of a wrapper, or in a member that is dropped from the sole
group. -/
theorem passedOver_of_strict {config : Config} (strict : config.isStrict = true) {text : String}
    {root : Element} (read : Xml.read text = .ok root) {d : Document}
    (accepted : (readDocument config text).result = .ok d) {child x : Element}
    (member : child ∈ root.children) (within : x.Occurs child)
    (unknown : Role.ofTag? x.name = none) :
    x.PassedOver child ∨ ∃ group dropped, Inversion.soleGroup? root = some group ∧
      Inversion.Drops group dropped ∧ x.Occurs dropped := by
  obtain ⟨root', read', built⟩ := exists_root_of_accepted accepted
  cases read.symm.trans read'
  have checked := buildDocument_checked strict .empty (Inversion.invert root).children d built
  exact Inversion.passedOver_of_invert checked member within unknown

theorem passedOver_of_strict_output :
    let text := "<Metadata><output><Bogus/><DataFile/></output></Metadata>"
    ∃ root, (Xml.read text = .ok root ∧ Inversion.soleGroup? root = none) ∧
      (∃ d, (readDocument { mode := .strict } text).result = .ok d) ∧
      ∃ child ∈ root.children, ∃ x : Element, x.Occurs child ∧ Role.ofTag? x.name = none ∧
        x.PassedOver child := by
  intro text
  obtain ⟨root, read, upright, output, member, x, inside, unknown⟩ := Recorded.exists_of_any
    (show (Xml.read text).toOption.any (fun root => decide (Inversion.soleGroup? root = none ∧
      ∃ output ∈ root.children, ∃ x ∈ output.children, Role.ofTag? x.name = none))
        = true by decide +kernel)
  obtain ⟨d, accepted⟩ := Recorded.exists_of_isOk
    (show (readDocument { mode := .strict } text).result.isOk = true by decide +kernel)
  have within : x.Occurs output := .inside inside .here
  have found := passedOver_of_strict rfl read accepted member within unknown
  refine ⟨root, ⟨read, upright⟩, ⟨d, accepted⟩, output, member, x, within, unknown,
    found.resolve_right ?_⟩
  rintro ⟨group, _, sole, _⟩
  cases upright.symm.trans sole

/-- A strict reading accepts the text although a tag in it is unknown, and it has no descriptions. -/
def AcceptsUnknown (text : String) : Prop :=
  (∃ d, (readDocument { mode := .strict } text).result = .ok d) ∧
    ∃ root, Xml.read text = .ok root ∧
      (∀ child ∈ root.children, child.Everywhere fun x => x.hasTag descriptionTag = false) ∧
      ¬∀ child ∈ root.children, child.Everywhere fun x => (Role.ofTag? x.name).isSome

private theorem acceptsUnknown_of_check {text : String}
    (accepted : (readDocument { mode := .strict } text).result.isOk = true)
    (holds : (Xml.read text).toOption.any (fun root => decide
      ((∀ child ∈ root.children, child.Everywhere fun x => x.hasTag descriptionTag = false) ∧
        ¬∀ child ∈ root.children, child.Everywhere fun x => (Role.ofTag? x.name).isSome))
      = true) : AcceptsUnknown text :=
  ⟨Recorded.exists_of_isOk accepted, Recorded.exists_of_any holds⟩

theorem strict_accepts_unknown :
    AcceptsUnknown "<Metadata><output><Bogus/><DataFile/></output></Metadata>" ∧
      AcceptsUnknown "<Metadata><DataProducerGroup><Bogus/></DataProducerGroup></Metadata>" := by
  constructor
  · exact acceptsUnknown_of_check (by decide +kernel) (by decide +kernel)
  · exact acceptsUnknown_of_check (by decide +kernel) (by decide +kernel)

end ShoreMetadata
