import ShoreMetadata.Proofs.Import.Layout
import ShoreMetadata.Proofs.Schema.Tag

/-! Documents that consist of one group of producers: how to tell them, and what is left of them
after they have been turned inside out. -/

namespace ShoreMetadata

open Xml (Element)

namespace Xml.Element

theorem filter_setIn (name value : String) (attributes : List (String × String)) :
    (setIn name value attributes).filter (·.1 ≠ name) = attributes.filter (·.1 ≠ name) := by
  induction attributes with
  | nil => simp [setIn]
  | cons entry rest ih =>
      rw [setIn]
      split
      · rename_i found
        simp [found]
      · rw [List.filter_cons, List.filter_cons, ih]

theorem mem_setIn (name value : String) (attributes : List (String × String)) :
    (name, value) ∈ setIn name value attributes := by
  induction attributes with
  | nil => simp [setIn]
  | cons entry rest ih =>
      rw [setIn]
      split
      · rename_i found
        simp [found]
      · exact List.mem_cons_of_mem entry ih

end Xml.Element

namespace Inversion

theorem soleGroup?_eq_some {root group : Element} (sole : soleGroup? root = some group) :
    root.children = [group] ∧ Role.ofTag? group.name = some (.entity .dataProducerGroup) := by
  unfold soleGroup? at sole
  split at sole
  · rename_i only children
    split at sole
    · rename_i grouped
      cases sole
      rw [Bool.and_eq_true] at grouped
      exact ⟨children, Role.ofTag?_eq_some_iff.mpr ⟨_, List.mem_singleton_self _, grouped.1⟩⟩
    · cases sole
  · cases sole

theorem soleGroup?_of_invert_eq_self {root : Element} (upright : invert root = root) :
    soleGroup? root = none := by
  cases sole : soleGroup? root with
  | none => rfl
  | some group =>
      obtain ⟨children, role⟩ := soleGroup?_eq_some sole
      have turned : (producers group).map (·.pushChild (emptied group)) = [group] := by
        rw [invert, invert?, sole] at upright
        rw [← children]
        exact congrArg Element.children upright
      obtain ⟨producer, member, same⟩ :
          ∃ p ∈ producers group, p.pushChild (emptied group) = group := by
        simpa using (List.mem_map.mp (turned ▸ List.mem_singleton_self group))
      have isProducer := (List.mem_filter.mp member).2
      have producerRole : Role.ofTag? producer.name = some (.entity .dataProducer) :=
        Element.hasTagIn_tags_iff.mp isProducer
      rw [← same] at role
      cases producerRole.symm.trans role

theorem invert_of_soleGroup? {root : Element} (none : soleGroup? root = none) :
    invert root = root := by
  rw [invert, invert?, none]
  rfl

section

variable {f : String → String} (keeps : ∀ s, Text.trim (f s) = Text.trim s)

private theorem soleGroup?_withTexts (root : Element) :
    soleGroup? (root.withTexts f) = (soleGroup? root).map (Element.withTexts f) := by
  unfold soleGroup?
  rw [Element.children_withTexts]
  match root.children with
  | [] => rfl
  | [group] =>
      simp only [List.map_cons, List.map_nil, Element.hasTag_withTexts, Element.children_withTexts,
        List.isEmpty_map]
      split <;> rfl
  | _ :: _ :: _ => rfl

theorem soleGroup?_withTexts_eq_none_iff (f : String → String) {root : Element} :
    soleGroup? (root.withTexts f) = none ↔ soleGroup? root = none := by
  rw [soleGroup?_withTexts, Option.map_eq_none_iff]

theorem withTexts_pushChild (e child : Element) :
    (e.pushChild child).withTexts f = (e.withTexts f).pushChild (child.withTexts f) := by
  obtain ⟨name, attributes, children, text, position⟩ := e
  simp [Element.pushChild, Element.withTexts, Element.allWithTexts_eq_map]

private theorem producers_withTexts (group : Element) :
    producers (group.withTexts f) = (producers group).map (Element.withTexts f) := by
  simp only [producers, Element.children_withTexts, List.filter_map]
  congr 1
  refine List.filter_congr fun member _ => ?_
  simp

include keeps

private theorem emptied_withTexts (group : Element) :
    emptied (group.withTexts f) = (emptied group).withTexts f := by
  have described : ∀ (descriptions : List Element) (g : Element),
      (descriptions.map (Element.withTexts f)).foldl
          (fun g d => g.setAttribute descriptionTag d.textContent) (g.withTexts f) =
        (descriptions.foldl (fun g d => g.setAttribute descriptionTag d.textContent) g).withTexts
          f := by
    intro descriptions
    induction descriptions with
    | nil => exact fun _ => rfl
    | cons d rest ih =>
        intro g
        have first : (g.withTexts f).setAttribute descriptionTag (d.withTexts f).textContent =
            (g.setAttribute descriptionTag d.textContent).withTexts f := by
          rw [textContent_withTexts keeps]
          cases g
          rfl
        rw [List.map_cons, List.foldl_cons, List.foldl_cons, first, ih]
  have bare : { group.withTexts f with children := [] } =
      ({ group with children := [] } : Element).withTexts f := by
    cases group
    rfl
  have descriptions : (group.withTexts f).children.filter (·.hasTag descriptionTag) =
      (group.children.filter (·.hasTag descriptionTag)).map (Element.withTexts f) := by
    rw [Element.children_withTexts, List.filter_map]
    congr 1
    refine List.filter_congr fun member _ => ?_
    simp
  rw [emptied, emptied, bare, descriptions]
  exact described _ _

theorem children_invert_withTexts (root : Element) :
    (invert (root.withTexts f)).children = (invert root).children.map (Element.withTexts f) := by
  cases sole : soleGroup? root with
  | none =>
      rw [invert_of_soleGroup? sole,
        invert_of_soleGroup? ((soleGroup?_withTexts_eq_none_iff f).mpr sole),
        Element.children_withTexts]
  | some group =>
      have stillSole : soleGroup? (root.withTexts f) = some (group.withTexts f) := by
        rw [soleGroup?_withTexts, sole]
        rfl
      rw [invert, invert?, stillSole, invert, invert?, sole]
      simp only [Option.map_some, Option.getD_some, producers_withTexts, List.map_map,
        emptied_withTexts keeps]
      refine List.map_congr_left fun producer _ => ?_
      exact (withTexts_pushChild producer (emptied group)).symm

end

/-- The element without children that stands for a group: its tag, its text and its attributes,
of which only the description gives way to that of the last description inside the group. -/
structure StandsFor (group copy : Element) : Prop where
  name : copy.name = group.name
  text : copy.text = group.text
  children : copy.children = []
  attributes : copy.attributes.filter (·.1 ≠ descriptionTag) =
    group.attributes.filter (·.1 ≠ descriptionTag)
  description : ∀ d, (group.children.filter (·.hasTag descriptionTag)).getLast? = some d →
    (descriptionTag, d.textContent) ∈ copy.attributes
  undescribed : group.children.filter (·.hasTag descriptionTag) = [] →
    copy.attributes = group.attributes

private theorem standsFor_self {group : Element} (childless : group.children = []) :
    StandsFor group group :=
  ⟨rfl, rfl, childless, rfl, by simp [childless], fun _ => rfl⟩

private theorem foldl_setAttribute (descriptions : List Element) (g : Element) :
    let described := descriptions.foldl
      (fun g d => g.setAttribute descriptionTag d.textContent) g
    described.name = g.name ∧ described.text = g.text ∧ described.children = g.children ∧
      described.attributes.filter (·.1 ≠ descriptionTag) =
        g.attributes.filter (·.1 ≠ descriptionTag) := by
  induction descriptions generalizing g with
  | nil => exact ⟨rfl, rfl, rfl, rfl⟩
  | cons d rest ih =>
      obtain ⟨name, text, children, attributes⟩ := ih (g.setAttribute descriptionTag d.textContent)
      exact ⟨name, text, children, attributes.trans (Element.filter_setIn ..)⟩

theorem standsFor_emptied (group : Element) : StandsFor group (emptied group) := by
  obtain ⟨name, text, children, attributes⟩ := foldl_setAttribute
    (group.children.filter (·.hasTag descriptionTag)) { group with children := [] }
  refine ⟨name, text, children, attributes, fun d last => ?_, fun none => ?_⟩
  · obtain ⟨front, split⟩ := List.getLast?_eq_some_iff.mp last
    rw [emptied, split, List.foldl_append]
    apply Element.mem_setIn
  · rw [emptied, none]
    rfl

private theorem invert_of_sole {root group : Element} (only : root.children = [group])
    (grouped : group.hasTag Kind.dataProducerGroup.tag = true) (occupied : group.children ≠ []) :
    invert root =
      { root with children := (producers group).map (·.pushChild (emptied group)) } := by
  have sole : soleGroup? root = some group := by
    simp [soleGroup?, only, grouped, occupied]
  rw [invert, invert?, sole]
  rfl

private theorem invert_of_childless {root group : Element} (only : root.children = [group])
    (childless : group.children = []) : invert root = root := by
  have none : soleGroup? root = none := by
    simp [soleGroup?, only, childless]
  rw [invert, invert?, none]
  rfl

/-- A group that is empty or has a producer among its members is still there afterwards, and
each of its producers holds it as the last of its children. -/
theorem group_and_producers_occur_invert {root group : Element} (only : root.children = [group])
    (grouped : group.hasTag Kind.dataProducerGroup.tag = true)
    (led : group.children = [] ∨
      ∃ member ∈ group.children, member.hasTagIn Kind.dataProducer.acceptedTags = true) :
    (∃ copy, StandsFor group copy ∧ copy.Occurs (invert root)) ∧
      ∀ member ∈ group.children, member.hasTagIn Kind.dataProducer.acceptedTags = true →
        ∃ copy, StandsFor group copy ∧ member.pushChild copy ∈ (invert root).children := by
  rcases led with childless | ⟨producer, among, isProducer⟩
  · rw [invert_of_childless only childless]
    refine ⟨⟨group, standsFor_self childless, .inside (by simp [only]) .here⟩, ?_⟩
    intro member among
    rw [childless] at among
    cases among
  · have turned := invert_of_sole only grouped (List.ne_nil_of_mem among)
    have raised : ∀ member ∈ group.children,
        member.hasTagIn Kind.dataProducer.acceptedTags = true →
          member.pushChild (emptied group) ∈ (invert root).children := by
      intro member among isProducer
      rw [turned]
      exact List.mem_map_of_mem (List.mem_filter.mpr ⟨among, isProducer⟩)
    constructor
    · refine ⟨emptied group, standsFor_emptied group, ?_⟩
      apply Element.Occurs.inside (raised producer among isProducer)
      exact .inside (by simp [Element.pushChild]) .here
    · intro member among isProducer
      exact ⟨emptied group, standsFor_emptied group, raised member among isProducer⟩

def rootOf (group : Element) : Element :=
  ⟨rootTag, [], [group], "", .none⟩

def groupOf (tag : String) (members : List Element) : Element :=
  ⟨tag, [("name", "G"), ("Description", "a")], members, "", .none⟩

theorem group_and_producers_occur_invert_described :
    ∃ copy, StandsFor (groupOf "dataPRODUCERgroup"
        [.ofText "description" " b ", .ofName "Deployment", .ofName "processRun"]) copy ∧
      (Element.ofName "processRun").pushChild copy ∈ (invert (rootOf (groupOf "dataPRODUCERgroup"
        [.ofText "description" " b ", .ofName "Deployment", .ofName "processRun"]))).children :=
  (group_and_producers_occur_invert rfl (by decide)
    (.inr ⟨.ofName "Deployment", by simp [groupOf], by decide⟩)).2 _ (by simp [groupOf]) (by decide)

theorem keyword_not_occurs_invert :
    (groupOf "DataProducerGroup" [.ofName "Keyword", .ofName "Deployment"]).hasTag
        Kind.dataProducerGroup.tag = true ∧
      Role.ofTag? (Element.ofName "Keyword").name = some (.entity .keyword) ∧
      ¬∃ x : Element, x.name = "Keyword" ∧ x.Occurs (invert (rootOf
        (groupOf "DataProducerGroup" [.ofName "Keyword", .ofName "Deployment"]))) := by
  refine ⟨by decide, by decide, ?_⟩
  rintro ⟨x, named, occurs⟩
  have nowhere : (invert (rootOf (groupOf "DataProducerGroup"
      [.ofName "Keyword", .ofName "Deployment"]))).Everywhere fun x => x.name ≠ "Keyword" := by
    decide +kernel
  exact occurs.of_everywhere nowhere named

/-- Without a producer inside, the group is nowhere in the document afterwards. -/
theorem group_not_occurs_invert :
    (groupOf "DataProducerGroup" [.ofText "description" "x"]).hasTag
        Kind.dataProducerGroup.tag = true ∧
      ¬∃ x : Element, x.name = "DataProducerGroup" ∧ x.Occurs (invert (rootOf
        (groupOf "DataProducerGroup" [.ofText "description" "x"]))) := by
  refine ⟨by decide, ?_⟩
  rintro ⟨x, named, occurs⟩
  have nowhere : (invert (rootOf (groupOf "DataProducerGroup"
      [.ofText "description" "x"]))).Everywhere fun x => x.name ≠ "DataProducerGroup" := by
    decide +kernel
  exact occurs.of_everywhere nowhere named

end Inversion

end ShoreMetadata
