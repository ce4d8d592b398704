import ShoreMetadata.Proofs.Validation.Structure

/-! Trees that are checked alike: it is enough that their elements are, one by one. -/

namespace ShoreMetadata

open Structure
open Xml (Element)

/-- Elements whose attributes are in violation at the same places and that have the same role. -/
structure Xml.Element.ChecksAlike (x y : Element) : Prop where
  role : Role.ofTag? x.name = Role.ofTag? y.name
  position : x.position = y.position
  attributes : ∀ k, Role.ofTag? x.name = some (.entity k) →
    (attributeViolations x.position x.attributes).map Violation.position =
      (attributeViolations y.position y.attributes).map Violation.position

namespace Xml.Element.ChecksAlike

variable {x y z : Element}

theorem refl (x : Element) : x.ChecksAlike x :=
  ⟨rfl, rfl, fun _ _ => rfl⟩

theorem trans (first : x.ChecksAlike y) (second : y.ChecksAlike z) : x.ChecksAlike z where
  role := first.role.trans second.role
  position := first.position.trans second.position
  attributes := fun k role =>
    (first.attributes k role).trans (second.attributes k (first.role.symm.trans role))

theorem withChildren (alike : x.ChecksAlike y) (children children' : List Element) :
    ({ x with children } : Element).ChecksAlike { y with children := children' } :=
  ⟨alike.role, alike.position, alike.attributes⟩

end Xml.Element.ChecksAlike

namespace Structure

def FoundAlike (x y : Element) : Prop :=
  (check (Role.ofTag? x.name) x).map Violation.position =
    (check (Role.ofTag? y.name) y).map Violation.position

variable {x y : Element} {xs ys : List Element}

theorem hasTagIn_allowedTags_congr (same : Role.ofTag? x.name = Role.ofTag? y.name) (k : Kind) :
    x.hasTagIn (allowedTags k) = y.hasTagIn (allowedTags k) := by
  rw [Bool.eq_iff_iff, hasTagIn_allowedTags_iff, hasTagIn_allowedTags_iff, same]

private theorem positions_checkChildren (parent parent' : String) (k : Kind)
    (alike : List.Forall₂ (fun x y : Element => x.ChecksAlike y ∧ FoundAlike x y) xs ys) :
    (checkChildren parent (allowedTags k) xs).map Violation.position =
      (checkChildren parent' (allowedTags k) ys).map Violation.position := by
  induction alike with
  | nil => rfl
  | @cons x y xs ys here _ ih =>
      rw [checkChildren, checkChildren, List.map_append, List.map_append, ih,
        hasTagIn_allowedTags_congr here.1.role k]
      refine congrArg (· ++ _) ?_
      split
      · exact here.2
      · exact congrArg (fun place => [place]) here.1.position

private theorem positions_checkContent (w : Wrapper) {violation violation' : Violation}
    (place : violation.position = violation'.position)
    (alike : List.Forall₂ (fun x y : Element => x.ChecksAlike y ∧ FoundAlike x y) xs ys) :
    (checkContent w violation xs).map Violation.position =
      (checkContent w violation' ys).map Violation.position := by
  cases alike with
  | nil => exact congrArg (fun place => [place]) place
  | @cons x y xs ys here rest =>
      have single := Element.isEmpty_eq_of_forall₂ rest
      have fit : x.hasTagIn w.contentTags = y.hasTagIn w.contentTags :=
        Element.hasTagIn_tags_congr here.1.role (.entity w.contentKind)
      rw [checkContent, checkContent, single, fit]
      split
      · rename_i content
        rw [Bool.and_eq_true] at content
        have role : Role.ofTag? y.name = some (.entity w.contentKind) :=
          Element.hasTagIn_tags_iff.mp content.2
        have found := here.2
        rwa [FoundAlike, here.1.role, role] at found
      · exact congrArg (fun place => [place]) place

private theorem foundAlike_of_along (along : x.Along Element.ChecksAlike y) : FoundAlike x y := by
  refine along.induction fun {x y} alike inside => ?_
  have childless := Element.isEmpty_eq_of_forall₂ inside
  obtain ⟨name, attributes, children, text, position⟩ := x
  obtain ⟨name', attributes', children', text', position'⟩ := y
  have place : [position] = [position'] := congrArg (fun place => [place]) alike.position
  rw [FoundAlike, ← alike.role]
  match known : Role.ofTag? name with
  | some (.entity k) =>
      rw [check, check, List.map_append, List.map_append,
        positions_checkChildren _ name' k inside]
      exact congrArg (· ++ _) (alike.attributes k known)
  | some (.wrapper w) =>
      rw [check, check]
      exact positions_checkContent w alike.position inside
  | some .description =>
      change children.isEmpty = children'.isEmpty at childless
      rw [check, check, childless]
      split
      · rfl
      · exact place
  | none =>
      rw [check, check]
      exact place

private theorem positions_checkTop (along : x.Along Element.ChecksAlike y) :
    (checkTop x).map Violation.position = (checkTop y).map Violation.position := by
  have found := foundAlike_of_along along
  rw [FoundAlike] at found
  have role := along.here.role
  unfold checkTop
  rw [role] at found ⊢
  split
  · rename_i k known
    rwa [known] at found
  · exact congrArg (fun place => [place]) along.here.position

theorem positions_violations (named : x.hasTag rootTag = y.hasTag rootTag)
    (position : x.position = y.position)
    (alike : List.Forall₂ (Element.Along Element.ChecksAlike) x.children y.children) :
    (violations x).map Violation.position = (violations y).map Violation.position := by
  rw [violations, violations, named]
  split
  · generalize x.children = xs at alike ⊢
    generalize y.children = ys at alike ⊢
    induction alike with
    | nil => rfl
    | cons here _ ih =>
        rw [List.flatMap_cons, List.flatMap_cons, List.map_append, List.map_append, ih,
          positions_checkTop here]
  · exact congrArg (fun place => [place]) position

end Structure

end ShoreMetadata
