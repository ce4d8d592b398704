import ShoreMetadata.Proofs.Entity.Tree
import ShoreMetadata.Proofs.Scalar
import ShoreMetadata.Proofs.Validation.Attribute
import ShoreMetadata.Xml.Element

/-! What the reading of attributes depends on: on their uses and values, but not on how they are
spelled; and a field can be set before the others are read. -/

namespace ShoreMetadata

open Text
open Xml (Element)
open Structure (attributeViolations typeOfAttribute? valueComplaint? valueComplaint?_eq_none_iff)

private theorem Except.toOption_bind {ε α β : Type} (x : Except ε α) (next : α → Except ε β) :
    (x >>= next).toOption = x.toOption.bind fun a => (next a).toOption := by
  cases x <;> rfl

theorem Except.toOption_map {ε α β : Type} (x : Except ε α) (f : α → β) :
    (x.map f).toOption = x.toOption.map f := by
  cases x <;> rfl

theorem Entity.ofTag_of_sameName (k : Kind) {tag other : String}
    (same : sameName tag other = true) : ofTag k tag = ofTag k other := by
  rw [ofTag, ofTag, ContainerType.ofTag?, ContainerType.ofTag?, ProducerType.ofTag?,
    ProducerType.ofTag?, sameName_congr same]

structure Kind.AttributesAlike (k : Kind) (a b : String × String) : Prop where
  use : k.attributeUse? a.1 = k.attributeUse? b.1
  type : typeOfAttribute? a.1 = typeOfAttribute? b.1
  value : a.2 = b.2

theorem Structure.typeOfAttribute?_congr {name other : String} (same : sameName name other = true) :
    typeOfAttribute? name = typeOfAttribute? other := by
  rw [typeOfAttribute?, typeOfAttribute?, sameName_iff.mp same]

theorem Kind.attributesAlike_of_sameName (k : Kind) {a b : String × String}
    (name : sameName a.1 b.1 = true) (value : a.2 = b.2) : k.AttributesAlike a b :=
  ⟨attributeUse?_of_sameName name, Structure.typeOfAttribute?_congr name, value⟩

namespace Entity

variable {k : Kind} {config : Config} {first second : List (String × String)}

private theorem toOption_readAttribute (place place' : Place) (e : Entity k) {a b : String × String}
    (alike : k.AttributesAlike a b) :
    (e.readAttribute config place a.1 a.2).toOption =
      (e.readAttribute config place' b.1 b.2).toOption := by
  rw [readAttribute, readAttribute, alike.use, alike.value]
  cases k.attributeUse? b.1 with
  | none => cases strict : config.isStrict <;> rfl
  | some use =>
      cases use with
      | version => rfl
      | shorthand s => rfl
      | field f =>
          simp only [Except.toOption_map, f.type.toOption_read]

theorem toOption_readAttributes (place place' : Place) (e : Entity k)
    (alike : List.Forall₂ k.AttributesAlike first second) :
    (e.readAttributes config place first).toOption =
      (e.readAttributes config place' second).toOption := by
  induction alike generalizing e with
  | nil => rfl
  | cons here _ ih =>
      rw [readAttributes, readAttributes, Except.toOption_bind, Except.toOption_bind,
        e.toOption_readAttribute place place' here]
      simp only [ih]

end Entity

namespace Structure

def mistypes (a : String × String) : Bool :=
  match typeOfAttribute? a.1 with
  | some t => (t.parse? a.2).isNone
  | none => false

theorem isSome_valueComplaint? (t : FieldType) (name value : String) :
    (valueComplaint? t name value).isSome = (t.parse? value).isNone := by
  rw [← t.toOption_read name]
  unfold valueComplaint?
  cases t.read name value with
  | ok v => rfl
  | error e => cases t <;> rfl

theorem positions_attributeViolations (position : Xml.Position)
    (attributes : List (String × String)) :
    (attributeViolations position attributes).map Violation.position =
      (attributes.filter mistypes).map fun _ => position := by
  induction attributes with
  | nil => rfl
  | cons a rest ih =>
      obtain ⟨name, value⟩ := a
      rw [attributeViolations] at ih ⊢
      rw [List.filterMap_cons, List.filter_cons, mistypes]
      cases typed : typeOfAttribute? name with
      | none => simpa [typed] using ih
      | some t =>
          have mistyped := isSome_valueComplaint? t name value
          cases complained : valueComplaint? t name value with
          | none => simpa [typed, complained, ← mistyped] using ih
          | some complaint => simpa [typed, complained, ← mistyped] using ih

theorem positions_attributeViolations_of_alike {k : Kind} {first second : List (String × String)}
    (alike : List.Forall₂ k.AttributesAlike first second) (position : Xml.Position) :
    (attributeViolations position first).map Violation.position =
      (attributeViolations position second).map Violation.position := by
  rw [positions_attributeViolations, positions_attributeViolations]
  induction alike with
  | nil => rfl
  | @cons a b first second here _ ih =>
      have same : mistypes a = mistypes b := by
        rw [mistypes, mistypes, here.type, here.value]
      rw [List.filter_cons, List.filter_cons, same]
      cases mistypes b with
      | true => exact congrArg (position :: ·) ih
      | false => exact ih

end Structure

def Version.read (config : Config) (value : String) : Except Error Version :=
  match Version.parse? value with
  | some version => .ok version
  | none => if config.isStrict then .error (.conversion "version" value .long) else .ok .unknown

namespace Entity

variable {k : Kind} (config : Config) (place : Place) (e : Entity k) {f : Field}
  (v : Option f.Value)

/-- The entity with the version that a text is read as, or of software with the text itself. -/
def numbered (value : String) (version : Version) : Entity k :=
  let e := e.setVersion version
  if k = .software ∧ version = .unknown ∧ (e.get? .softwareVersion).isNone then
    e.set .softwareVersion (some value)
  else e

theorem readVersion_eq (value : String) :
    e.readVersion config value = (Version.read config value).map (e.numbered value) := by
  unfold readVersion Version.read
  cases Version.parse? value with
  | some version => exact (apply_ite Except.ok _ _ _).symm
  | none =>
      cases config.isStrict with
      | true => rfl
      | false => exact (apply_ite Except.ok _ _ _).symm

variable {e} in
theorem numbered_set (plain : f ≠ .softwareVersion) (value : String) (version : Version) :
    (e.set f v).numbered value version = (e.numbered value version).set f v := by
  have moved : (e.set f v).setVersion version = (e.setVersion version).set f v := rfl
  -- Of the fields only the release of software is looked at.
  rw [numbered, numbered, moved, get?_set_of_ne _ plain]
  split
  · exact (e.setVersion version).set_set_of_ne plain v (some value)
  · rfl

variable {config place e} in
private theorem readVersion_set (plain : f ≠ .softwareVersion) (value : String) :
    (e.set f v).readVersion config value = (e.readVersion config value).map (·.set f v) := by
  rw [readVersion_eq, readVersion_eq]
  cases Version.read config value with
  | error error => rfl
  | ok version => exact congrArg Except.ok (numbered_set v plain value version)

private theorem readAttribute_set (plain : f ≠ .softwareVersion) {name : String}
    (other : k.attributeUse? name ≠ some (.field f)) (value : String) :
    (e.set f v).readAttribute config place name value =
      (e.readAttribute config place name value).map (·.set f v) := by
  rw [readAttribute, readAttribute]
  match use : k.attributeUse? name with
  | none => cases strict : config.isStrict <;> rfl
  | some .version => exact readVersion_set v plain value
  | some (.shorthand s) => rfl
  | some (.field g) =>
      have distinct : f ≠ g := by
        rintro rfl
        exact other use
      dsimp only
      cases g.type.read name value with
      | error error => rfl
      | ok w => exact congrArg Except.ok (e.set_set_of_ne distinct v (some w))

theorem readAttribute_of_field {name : String} (use : k.attributeUse? name = some (.field f))
    (value : String) : e.readAttribute config place name value =
      (f.type.read name value).map fun w => e.set f (some w) := by
  rw [readAttribute, use]

variable {attributes : List (String × String)}

private theorem readAttributes_set (plain : f ≠ .softwareVersion)
    (others : ∀ a ∈ attributes, k.attributeUse? a.1 ≠ some (.field f)) :
    (e.set f v).readAttributes config place attributes =
      (e.readAttributes config place attributes).map (·.set f v) := by
  induction attributes generalizing e with
  | nil => rfl
  | cons a rest ih =>
      obtain ⟨name, value⟩ := a
      rw [List.forall_mem_cons] at others
      rw [readAttributes, readAttributes, readAttribute_set config place e v plain others.1]
      cases e.readAttribute config place name value with
      | error error => rfl
      | ok next => exact ih next others.2

theorem readAttributes_set_of_given (plain : f ≠ .softwareVersion)
    (given : ∃ a ∈ attributes, k.attributeUse? a.1 = some (.field f)) :
    (e.set f v).readAttributes config place attributes =
      e.readAttributes config place attributes := by
  induction attributes generalizing e with
  | nil =>
      obtain ⟨a, member, _⟩ := given
      cases member
  | cons a rest ih =>
      obtain ⟨name, value⟩ := a
      rw [readAttributes, readAttributes]
      by_cases own : k.attributeUse? name = some (.field f)
      · simp only [readAttribute_of_field config place _ own, set_set_same]
      · have later : ∃ a ∈ rest, k.attributeUse? a.1 = some (.field f) := by
          obtain ⟨a, member, use⟩ := given
          rcases List.mem_cons.mp member with rfl | member
          · exact absurd use own
          · exact ⟨a, member, use⟩
        rw [readAttribute_set config place e v plain own]
        cases e.readAttribute config place name value with
        | error error => rfl
        | ok next => exact ih next later

section

variable (described : .description ∈ k.fields)

include described

private theorem attributeUse?_eq_description_iff {name : String} :
    k.attributeUse? name = some (.field .description) ↔ sameName name descriptionTag = true := by
  rw [Kind.attributeUse?_eq_field_iff_of_unaliased k.description_unaliased]
  exact and_iff_right described

private theorem readAttribute_description (text : String) :
    e.readAttribute config place descriptionTag text =
      .ok (e.set .description (some text)) :=
  e.readAttribute_of_field config place
    ((attributeUse?_eq_description_iff described).mpr (sameName_iff.mpr rfl)) text

private theorem readAttributes_description_cons
    (others : ∀ a ∈ attributes, k.attributeUse? a.1 ≠ some (.field .description))
    (text : String) :
    e.readAttributes config place ((descriptionTag, text) :: attributes) =
      (e.readAttributes config place attributes).map (·.set .description (some text)) := by
  rw [readAttributes, e.readAttribute_description config place described]
  exact readAttributes_set config place e _ (by decide) others

/-- A description that takes the place of another is read as if it came last, unless there are
more. -/
theorem readAttributes_setIn_of_single
    (single : attributes.Pairwise fun a b => k.attributeUse? a.1 = some (.field .description) →
      k.attributeUse? b.1 ≠ some (.field .description)) (text : String) :
    e.readAttributes config place (Element.setIn descriptionTag text attributes) =
      (e.readAttributes config place attributes).map (·.set .description (some text)) := by
  induction attributes generalizing e with
  | nil => exact e.readAttributes_description_cons config place described (by simp) text
  | cons a rest ih =>
      obtain ⟨name, value⟩ := a
      rw [List.pairwise_cons] at single
      rw [Element.setIn]
      split
      · rename_i here
        change name = descriptionTag at here
        subst here
        have others : ∀ a ∈ rest, k.attributeUse? a.1 ≠ some (.field .description) :=
          fun a member => single.1 a member
            ((attributeUse?_eq_description_iff described).mpr (sameName_iff.mpr rfl))
        rw [e.readAttributes_description_cons config place described others,
          e.readAttributes_description_cons config place described others]
        cases e.readAttributes config place rest with
        | error error => rfl
        | ok x => exact congrArg Except.ok (x.set_set_same .description _ _).symm
      · rw [readAttributes, readAttributes]
        cases e.readAttribute config place name value with
        | error error => rfl
        | ok next => exact ih next single.2

/-- So it is if no two attributes have the same name in different cases. -/
theorem readAttributes_setIn (distinct : (attributes.map fun a => lower a.1).Nodup)
    (text : String) :
    e.readAttributes config place (Element.setIn descriptionTag text attributes) =
      (e.readAttributes config place attributes).map (·.set .description (some text)) := by
  refine e.readAttributes_setIn_of_single config place described ?_ text
  refine (List.pairwise_map.mp distinct).imp fun {a b} other first second => other ?_
  rw [attributeUse?_eq_description_iff described, sameName_iff] at first second
  exact first.trans second.symm

end

end Entity

end ShoreMetadata
