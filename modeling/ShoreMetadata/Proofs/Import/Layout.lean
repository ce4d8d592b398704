import ShoreMetadata.Import.Session
import ShoreMetadata.Proofs.Import.Recorded
import ShoreMetadata.Proofs.Xml.Tree

/-! What is built without a problem does not depend on where elements stand in the text
or on blanks around their texts. -/

namespace ShoreMetadata

open Text
open Xml (Element)

namespace Entity

variable {k : Kind} {config : Config} {place : Place} (place' : Place)

private theorem readAttribute_ok_of_place {e next : Entity k} {name value : String}
    (read : e.readAttribute config place name value = .ok next) :
    e.readAttribute config place' name value = .ok next := by
  unfold readAttribute at read ⊢
  cases use : k.attributeUse? name with
  | none =>
      rw [use] at read
      cases strict : config.isStrict with
      | true =>
          rw [strict] at read
          cases read
      | false =>
          rw [strict] at read
          exact read
  | some found =>
      rw [use] at read
      cases found <;> exact read

private theorem readAttributes_ok_of_place {e last : Entity k} {attributes : List (String × String)}
    (read : e.readAttributes config place attributes = .ok last) :
    e.readAttributes config place' attributes = .ok last := by
  induction attributes generalizing e with
  | nil => exact read
  | cons a rest ih =>
      obtain ⟨name, value⟩ := a
      rw [readAttributes] at read ⊢
      cases first : e.readAttribute config place name value with
      | error error =>
          rw [first] at read
          cases read
      | ok next =>
          rw [first] at read
          rw [readAttribute_ok_of_place place' first]
          exact ih read

private theorem adopt_ok_of_place {e next : Entity k} {child : Child}
    (adopted : e.adopt config place child = .ok next) :
    e.adopt config place' child = .ok next := by
  unfold adopt at adopted ⊢
  cases fit : e.adopt? child with
  | some e =>
      rw [fit] at adopted
      exact adopted
  | none =>
      rw [fit] at adopted
      cases strict : config.isStrict <;> (rw [strict] at adopted; cases adopted)

private theorem adoptAll_ok_of_place {e last : Entity k} {children : List Child}
    (adopted : e.adoptAll config place children = .ok last) :
    e.adoptAll config place' children = .ok last := by
  induction children generalizing e with
  | nil => exact adopted
  | cons child rest ih =>
      rw [adoptAll, Recorded.bind_eq_ok] at adopted ⊢
      obtain ⟨next, first, more⟩ := adopted
      exact ⟨next, adopt_ok_of_place place' first, ih more⟩

end Entity

private theorem unknownElement_ne_ok (config : Config) (place : Place) (r : Option AnyEntity) :
    unknownElement config place ≠ .ok r := by
  unfold unknownElement
  intro built
  cases strict : config.isStrict <;> (rw [strict] at built; cases built)

variable {config : Config} {f : String → String}

theorem textContent_withTexts (keeps : ∀ s, trim (f s) = trim s) (x : Element) :
    (x.withTexts f).textContent = x.textContent := by
  rw [Element.textContent, Element.textContent, Element.text_withTexts, keeps]

private theorem buildContent_withTexts {tags : List String} {children : List Element}
    (same : ∀ child ∈ children, ∀ r,
      buildElement config (child.withTexts f) = .ok r ↔ buildElement config child = .ok r)
    (r : Option AnyEntity) :
    buildContent config tags (children.map (Element.withTexts f)) = .ok r ↔
      buildContent config tags children = .ok r := by
  induction children with
  | nil => exact Iff.rfl
  | cons child rest ih =>
      rw [List.forall_mem_cons] at same
      rw [List.map_cons, buildContent, buildContent, Element.hasTagIn_withTexts]
      split
      · exact same.1 r
      · exact ih same.2

section

variable (keeps : ∀ s, trim (f s) = trim s)

include keeps

private theorem buildChildren_withTexts {children : List Element}
    (same : ∀ child ∈ children, ∀ r,
      buildElement config (child.withTexts f) = .ok r ↔ buildElement config child = .ok r)
    (r : Offspring) :
    buildChildren config (children.map (Element.withTexts f)) = .ok r ↔
      buildChildren config children = .ok r := by
  induction children generalizing r with
  | nil => exact Iff.rfl
  | cons child rest ih =>
      rw [List.forall_mem_cons] at same
      rw [List.map_cons, buildChildren, buildChildren, Element.hasTag_withTexts]
      split
      · simp only [Recorded.bind_eq_ok, ih same.2, textContent_withTexts keeps]
      · simp only [Recorded.bind_eq_ok, ih same.2, same.1, Element.name_withTexts]

private theorem buildElement_withTexts (x : Element) : ∀ r,
    buildElement config (x.withTexts f) = .ok r ↔ buildElement config x = .ok r := by
  induction x using Element.induction with
  | step x ih =>
      intro r
      obtain ⟨name, attributes, children, text, position⟩ := x
      rw [Element.withTexts, Element.allWithTexts_eq_map, buildElement, buildElement]
      cases found : Role.ofTag? name with
      | none => simp [unknownElement_ne_ok]
      | some role =>
          cases role with
          | entity k =>
              simp only [Recorded.bind_eq_ok, Recorded.ofExcept_eq_ok,
                buildChildren_withTexts keeps ih]
              constructor
              · rintro ⟨e, read, offspring, built, last, adopted, done⟩
                exact ⟨e, Entity.readAttributes_ok_of_place _ read, offspring, built, last,
                  Entity.adoptAll_ok_of_place _ adopted, done⟩
              · rintro ⟨e, read, offspring, built, last, adopted, done⟩
                exact ⟨e, Entity.readAttributes_ok_of_place _ read, offspring, built, last,
                  Entity.adoptAll_ok_of_place _ adopted, done⟩
          | wrapper w => exact buildContent_withTexts ih r
          | description => exact Iff.rfl

theorem buildDocument_withTexts (d : Document) (children : List Element) (r : Document) :
    buildDocument config d (children.map (Element.withTexts f)) = .ok r ↔
      buildDocument config d children = .ok r := by
  induction children generalizing d with
  | nil => exact Iff.rfl
  | cons child rest ih =>
      rw [List.map_cons, buildDocument, buildDocument]
      simp only [Recorded.bind_eq_ok, buildElement_withTexts keeps]
      refine exists_congr fun built => and_congr_right fun _ => ?_
      cases built with
      | none => exact ih d
      | some e => exact ih (d.insert e).1

end

end ShoreMetadata
