import ShoreMetadata.Proofs.Schema.Tag
import ShoreMetadata.Proofs.Validation.Attribute
import ShoreMetadata.Proofs.Xml.Tree

/-! Which elements have no violations. Texts and places do not count. -/

namespace ShoreMetadata.Structure

open Xml (Element)

private theorem checkChildren_eq_nil_iff {parent : String} {tags : List String}
    {children : List Element} :
    checkChildren parent tags children = [] ↔
      ∀ child ∈ children, child.hasTagIn tags = true ∧
        check (Role.ofTag? child.name) child = [] := by
  induction children with
  | nil => simp [checkChildren]
  | cons child rest ih =>
      rw [checkChildren, List.append_eq_nil_iff, ih, List.forall_mem_cons]
      split <;> simp_all

private theorem checkContent_eq_nil_iff {w : Wrapper} {violation : Violation}
    {children : List Element} :
    checkContent w violation children = [] ↔
      ∃ content, children = [content] ∧ content.hasTagIn w.contentTags = true ∧
        check (some (.entity w.contentKind)) content = [] := by
  cases children with
  | nil => simp [checkContent]
  | cons content rest =>
      rw [checkContent]
      cases rest <;> cases fit : content.hasTagIn w.contentTags <;> simp_all

section

variable {x : Element}

theorem check_entity_eq_nil_iff {k : Kind} :
    check (some (.entity k)) x = [] ↔
      attributeViolations x.position x.attributes = [] ∧
        ∀ child ∈ x.children, child.hasTagIn (allowedTags k) = true ∧
          check (Role.ofTag? child.name) child = [] := by
  obtain ⟨name, attributes, children, text, position⟩ := x
  rw [check, List.append_eq_nil_iff, checkChildren_eq_nil_iff]

theorem check_wrapper_eq_nil_iff {w : Wrapper} :
    check (some (.wrapper w)) x = [] ↔
      ∃ content, x.children = [content] ∧ content.hasTagIn w.contentTags = true ∧
        check (some (.entity w.contentKind)) content = [] := by
  obtain ⟨name, attributes, children, text, position⟩ := x
  rw [check, checkContent_eq_nil_iff]

theorem check_description_eq_nil_iff :
    check (some .description) x = [] ↔ x.children = [] := by
  obtain ⟨name, attributes, children, text, position⟩ := x
  rw [check]
  cases children <;> simp

theorem check_none_ne_nil : check none x ≠ [] := by
  obtain ⟨name, attributes, children, text, position⟩ := x
  rw [check]
  simp

theorem checkTop_eq_nil_iff :
    checkTop x = [] ↔ ∃ k, Role.ofTag? x.name = some (.entity k) ∧
      check (some (.entity k)) x = [] := by
  unfold checkTop
  split
  · rename_i k roleHere
    simp [roleHere]
  · rename_i noEntity
    constructor
    · intro valid
      cases valid
    · rintro ⟨k, roleHere, _⟩
      exact absurd roleHere (noEntity k)

end

theorem violations_eq_nil_iff {root : Element} :
    violations root = [] ↔
      root.hasTag rootTag = true ∧ ∀ child ∈ root.children, checkTop child = [] := by
  unfold violations
  split
  · rename_i tagged
    simp [tagged, List.flatMap_eq_nil_iff]
  · rename_i untagged
    simp [untagged]

private theorem check_withTexts_eq_nil_iff (f : String → String) (x : Element) :
    ∀ role, check role (x.withTexts f) = [] ↔ check role x = [] := by
  induction x using Element.induction with
  | step x ih =>
      intro role
      match role with
      | some (.entity k) =>
          rw [check_entity_eq_nil_iff, check_entity_eq_nil_iff, attributeViolations_eq_nil_iff,
            attributeViolations_eq_nil_iff]
          simp only [Element.attributes_withTexts, Element.children_withTexts, List.forall_mem_map,
            Element.hasTagIn_withTexts, Element.name_withTexts]
          refine and_congr_right fun _ => forall₂_congr fun child member => ?_
          rw [ih child member]
      | some (.wrapper w) =>
          rw [check_wrapper_eq_nil_iff, check_wrapper_eq_nil_iff]
          simp only [Element.children_withTexts, List.map_eq_singleton_iff]
          constructor
          · rintro ⟨_, ⟨content, only, rfl⟩, fit, valid⟩
            exact ⟨content, only, by simpa using fit,
              (ih content (by simp [only]) _).mp valid⟩
          · rintro ⟨content, only, fit, valid⟩
            exact ⟨_, ⟨content, only, rfl⟩, by simpa using fit,
              (ih content (by simp [only]) _).mpr valid⟩
      | some .description =>
          rw [check_description_eq_nil_iff, check_description_eq_nil_iff]
          simp
      | none => simp [check_none_ne_nil]

theorem violations_withTexts_eq_nil_iff (f : String → String) (root : Element) :
    violations (root.withTexts f) = [] ↔ violations root = [] := by
  simp only [violations_eq_nil_iff, Element.hasTag_withTexts, Element.name_withTexts,
    Element.children_withTexts, List.forall_mem_map, checkTop_eq_nil_iff,
    check_withTexts_eq_nil_iff]

end ShoreMetadata.Structure
