import ShoreMetadata.Proofs.Document.Inversion
import ShoreMetadata.Proofs.Import.AttributeOrder

/-! Trees that are read alike: it is enough that their elements are, one by one. -/

namespace ShoreMetadata

open Recorded (Agree)
open Xml (Element)

def Xml.Element.readAs? (config : Config) (k : Kind) (x : Element) : Option (Entity k) :=
  ((Entity.ofTag k x.name).readAttributes config ⟨x.name, x.position.line⟩ x.attributes).toOption

/-- Elements that are read alike as far as they do not depend on their children, also with another
description if they are a group. -/
structure Xml.Element.ReadsAlike (x y : Element) : Prop where
  role : Role.ofTag? x.name = Role.ofTag? y.name
  text : x.textContent = y.textContent
  attributes : ∀ k, Role.ofTag? x.name = some (.entity k) →
    ∀ config, x.readAs? config k = y.readAs? config k
  described : Role.ofTag? x.name = some (.entity .dataProducerGroup) → ∀ text config,
    (x.setAttribute descriptionTag text).readAs? config .dataProducerGroup =
      (y.setAttribute descriptionTag text).readAs? config .dataProducerGroup

namespace Xml.Element.ReadsAlike

variable {x y z : Element}

theorem refl (x : Element) : x.ReadsAlike x :=
  ⟨rfl, rfl, fun _ _ _ => rfl, fun _ _ _ => rfl⟩

theorem trans (first : x.ReadsAlike y) (second : y.ReadsAlike z) : x.ReadsAlike z where
  role := first.role.trans second.role
  text := first.text.trans second.text
  attributes := fun k role config =>
    (first.attributes k role config).trans
      (second.attributes k (first.role.symm.trans role) config)
  described := fun group text config =>
    (first.described group text config).trans
      (second.described (first.role.symm.trans group) text config)

theorem withChildren (alike : x.ReadsAlike y) (children children' : List Element) :
    ({ x with children } : Element).ReadsAlike { y with children := children' } :=
  ⟨alike.role, alike.text, alike.attributes, alike.described⟩

end Xml.Element.ReadsAlike

structure Child.Alike (c d : Child) : Prop where
  role : Role.ofTag? c.tag = Role.ofTag? d.tag
  entity : c.entity = d.entity

structure Offspring.Alike (a b : Offspring) : Prop where
  description : a.description = b.description
  children : List.Forall₂ Child.Alike a.children b.children

variable {config : Config}

namespace Entity

variable {k : Kind} (place place' : Place) (e : Entity k)

theorem adopt?_congr {c d : Child} (alike : c.Alike d) : e.adopt? c = e.adopt? d := by
  have fit : fits c = fits d := by
    funext s
    rw [fits, fits, alike.role, alike.entity]
  rw [adopt?, adopt?, fit, alike.entity]

private theorem adopt_alike {c d : Child} (alike : c.Alike d) :
    Agree Eq (e.adopt config place c) (e.adopt config place' d) := by
  rw [adopt, adopt, e.adopt?_congr alike]
  cases e.adopt? d with
  | some next => exact .ok rfl
  | none =>
      cases config.isStrict with
      | true => exact .fail _ _
      | false => exact (Agree.note _ _).bind_eq fun _ => .ok rfl

theorem adoptAll_alike {cs ds : List Child} (alike : List.Forall₂ Child.Alike cs ds) :
    Agree Eq (e.adoptAll config place cs) (e.adoptAll config place' ds) := by
  induction alike generalizing e with
  | nil => exact .ok rfl
  | cons here _ ih => exact (e.adopt_alike place place' here).bind_eq ih

end Entity

def BuiltAlike (config : Config) (x y : Element) : Prop :=
  x.ReadsAlike y ∧ Agree Eq (buildElement config x) (buildElement config y)

theorem unknownElement_alike (place place' : Place) :
    Agree Eq (unknownElement config place) (unknownElement config place') := by
  rw [unknownElement, unknownElement]
  cases config.isStrict with
  | true => exact .fail _ _
  | false => exact (Agree.note _ _).bind_eq fun _ => .ok rfl

theorem buildContent_alike (w : Wrapper) {xs ys : List Element}
    (alike : List.Forall₂ (BuiltAlike config) xs ys) :
    Agree Eq (buildContent config w.contentTags xs) (buildContent config w.contentTags ys) := by
  induction alike with
  | nil => exact .ok rfl
  | @cons x y xs ys here _ ih =>
      have fit : x.hasTagIn w.contentTags = y.hasTagIn w.contentTags :=
        Element.hasTagIn_tags_congr here.1.role (.entity w.contentKind)
      rw [buildContent, buildContent, fit]
      split
      · exact here.2
      · exact ih

theorem buildChildren_alike {xs ys : List Element}
    (alike : List.Forall₂ (BuiltAlike config) xs ys) :
    Agree Offspring.Alike (buildChildren config xs) (buildChildren config ys) := by
  induction alike with
  | nil => exact .ok ⟨rfl, .nil⟩
  | @cons x y xs ys here _ ih =>
      rw [buildChildren, buildChildren, Element.hasTag_description_congr here.1.role]
      split
      · refine ih.bind fun a b related => .ok ⟨?_, related.children⟩
        rw [related.description, here.1.text]
      · refine here.2.bind_eq fun built => ih.bind fun a b related => ?_
        cases built with
        | none => exact .ok related
        | some e => exact .ok ⟨related.description, .cons ⟨here.1.role, rfl⟩ related.children⟩

private theorem buildElement_alike {x y : Element} (along : x.Along Element.ReadsAlike y) :
    Agree Eq (buildElement config x) (buildElement config y) := by
  refine along.induction fun {x y} alike inside => ?_
  obtain ⟨name, attributes, children, text, position⟩ := x
  obtain ⟨name', attributes', children', text', position'⟩ := y
  rw [buildElement, buildElement, ← alike.role]
  cases known : Role.ofTag? name with
  | none => exact unknownElement_alike _ _
  | some role =>
      cases role with
      | entity k =>
          have read := alike.attributes k known config
          refine (Agree.ofExcept read).bind_eq fun e => ?_
          refine (buildChildren_alike inside).bind fun a b related => ?_
          rw [related.description]
          refine (Entity.adoptAll_alike _ _ _ related.children).bind_eq fun e => ?_
          exact .ok rfl
      | wrapper w => exact buildContent_alike w inside
      | description => exact .ok rfl

private theorem buildDocument_alike (d : Document) {xs ys : List Element}
    (alike : List.Forall₂ (Element.Along Element.ReadsAlike) xs ys) :
    Agree Eq (buildDocument config d xs) (buildDocument config d ys) := by
  induction alike generalizing d with
  | nil => exact .ok rfl
  | cons here _ ih =>
      refine (buildElement_alike here).bind_eq fun built => ?_
      cases built with
      | none => exact ih d
      | some e => exact ih (d.insert e).1

theorem Xml.Element.setIn_setIn (name first second : String) (attributes : List (String × String)) :
    setIn name second (setIn name first attributes) = setIn name second attributes := by
  induction attributes with
  | nil => simp [setIn]
  | cons entry rest ih =>
      by_cases here : entry.1 = name
      · simp [setIn, here]
      · simp [setIn, here, ih]

private theorem Xml.Element.ReadsAlike.setAttribute_description {x y : Element}
    (alike : x.ReadsAlike y)
    (group : Role.ofTag? x.name = some (.entity .dataProducerGroup)) (text : String) :
    (x.setAttribute descriptionTag text).ReadsAlike (y.setAttribute descriptionTag text) where
  role := alike.role
  text := alike.text
  attributes := by
    intro k known config
    cases group.symm.trans known
    exact alike.described group text config
  described := by
    intro _ other config
    have again : ∀ z : Element,
        (z.setAttribute descriptionTag text).setAttribute descriptionTag other =
          z.setAttribute descriptionTag other := by
      intro z
      simp only [Element.setAttribute, Element.setIn_setIn]
    rw [again, again]
    exact alike.described group other config

namespace Inversion

variable {x y : Element}

private theorem filter_tags_alike {xs ys : List Element}
    (alike : List.Forall₂ (Element.Along Element.ReadsAlike) xs ys) (role : Role) :
    List.Forall₂ (Element.Along Element.ReadsAlike) (xs.filter (·.hasTagIn role.tags))
      (ys.filter (·.hasTagIn role.tags)) := by
  refine List.rel_filter (fun child child' along => ?_) alike
  exact Bool.eq_iff_iff.mp (Element.hasTagIn_tags_congr along.here.role role)

private theorem foldl_setAttribute_alike {ds ds' : List Element}
    (texts : List.Forall₂ (fun d d' : Element => d.textContent = d'.textContent) ds ds')
    {g h : Element} (alike : g.ReadsAlike h)
    (group : Role.ofTag? g.name = some (.entity .dataProducerGroup)) :
    (ds.foldl (fun g d => g.setAttribute descriptionTag d.textContent) g).ReadsAlike
      (ds'.foldl (fun g d => g.setAttribute descriptionTag d.textContent) h) := by
  induction texts generalizing g h with
  | nil => exact alike
  | @cons d d' ds ds' here _ ih =>
      rw [List.foldl_cons, List.foldl_cons, here]
      exact ih (alike.setAttribute_description group _) group

theorem readsAlike_emptied (alike : x.ReadsAlike y)
    (group : Role.ofTag? x.name = some (.entity .dataProducerGroup))
    (texts : List.Forall₂ (fun d d' : Element => d.textContent = d'.textContent)
      (x.children.filter (·.hasTagIn Role.description.tags))
      (y.children.filter (·.hasTagIn Role.description.tags))) :
    (emptied x).ReadsAlike (emptied y) := by
  have descriptions : ∀ z : Element, z.children.filter (·.hasTag descriptionTag) =
      z.children.filter (·.hasTagIn Role.description.tags) := by
    intro z
    simp [Element.hasTagIn, Role.tags]
  rw [emptied, emptied, descriptions, descriptions]
  exact foldl_setAttribute_alike texts (alike.withChildren [] []) group

theorem children_emptied (x : Element) : (emptied x).children = [] :=
  (standsFor_emptied x).children

private theorem emptied_alike (along : x.Along Element.ReadsAlike y)
    (group : Role.ofTag? x.name = some (.entity .dataProducerGroup)) :
    (emptied x).Along Element.ReadsAlike (emptied y) := by
  refine .intro (readsAlike_emptied along.here group ?_) ?_
  · exact (filter_tags_alike along.inside .description).imp fun _ _ pair => pair.here.text
  · rw [children_emptied, children_emptied]
    exact .nil

private theorem pushChild_alike {copy copy' : Element} (along : x.Along Element.ReadsAlike y)
    (copies : copy.Along Element.ReadsAlike copy') :
    (x.pushChild copy).Along Element.ReadsAlike (y.pushChild copy') :=
  .intro (along.here.withChildren _ _) (List.rel_append along.inside (.cons copies .nil))

theorem children_invert (root : Element) :
    (invert root).children =
      match root.children with
      | [group] =>
        if group.hasTag Kind.dataProducerGroup.tag && !group.children.isEmpty then
          (producers group).map (·.pushChild (emptied group))
        else [group]
      | children => children := by
  rw [invert, invert?, soleGroup?]
  cases only : root.children with
  | nil => exact only
  | cons group others =>
      cases others with
      | nil =>
          dsimp only
          split
          · rfl
          · exact only
      | cons => exact only

private theorem children_invert_alike
    (alike : List.Forall₂ (Element.Along Element.ReadsAlike) x.children y.children) :
    List.Forall₂ (Element.Along Element.ReadsAlike) (invert x).children (invert y).children := by
  rw [children_invert, children_invert]
  generalize x.children = xs at alike ⊢
  generalize y.children = ys at alike ⊢
  cases alike with
  | nil => exact .nil
  | @cons g h _ _ here rest =>
      cases rest with
      | cons next more => exact .cons here (.cons next more)
      | nil =>
          dsimp only
          have tagged : g.hasTag Kind.dataProducerGroup.tag =
              h.hasTag Kind.dataProducerGroup.tag := by
            simpa [Element.hasTagIn, Role.tags, Kind.acceptedTags] using
              Element.hasTagIn_tags_congr here.here.role (.entity .dataProducerGroup)
          have occupied := Element.isEmpty_eq_of_forall₂ here.inside
          rw [← tagged, ← occupied]
          split
          · rename_i sole
            rw [Bool.and_eq_true] at sole
            have group : Role.ofTag? g.name = some (.entity .dataProducerGroup) :=
              Role.ofTag?_eq_some_iff.mpr ⟨_, List.mem_singleton_self _, sole.1⟩
            refine List.rel_map (fun member member' along => ?_)
              (filter_tags_alike here.inside (.entity .dataProducer))
            exact pushChild_alike along (emptied_alike here group)
          · exact .cons here .nil

end Inversion

theorem readTree_agree {x y : Element} (named : x.hasTag rootTag = y.hasTag rootTag)
    (valid : Structure.violations x = [] ↔ Structure.violations y = [])
    (built : Agree Eq (buildDocument config .empty (Inversion.invert x).children)
      (buildDocument config .empty (Inversion.invert y).children)) :
    Agree Eq (readTree config x) (readTree config y) := by
  rw [readTree, readTree, named]
  split
  · exact .fail _ _
  · have accepted : (if config.validate then Structure.violations x else []).isEmpty =
        (if config.validate then Structure.violations y else []).isEmpty := by
      cases config.validate with
      | true => rwa [Bool.eq_iff_iff, List.isEmpty_iff, List.isEmpty_iff]
      | false => rfl
    dsimp only
    generalize (if config.validate then Structure.violations x else []) = found at accepted ⊢
    generalize (if config.validate then Structure.violations y else []) = found' at accepted ⊢
    rw [accepted]
    split
    · exact built
    · exact .fail _ _

theorem readTree_alike {x y : Element} (named : x.hasTag rootTag = y.hasTag rootTag)
    (alike : List.Forall₂ (Element.Along Element.ReadsAlike) x.children y.children)
    (places : (Structure.violations x).map Violation.position =
      (Structure.violations y).map Violation.position) :
    Agree Eq (readTree config x) (readTree config y) := by
  refine readTree_agree named ?_
    (buildDocument_alike .empty (Inversion.children_invert_alike alike))
  rw [← List.map_eq_nil_iff (f := Violation.position), places, List.map_eq_nil_iff]

end ShoreMetadata
