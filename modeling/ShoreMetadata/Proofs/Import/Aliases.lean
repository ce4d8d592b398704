import ShoreMetadata.Proofs.Import.Alike
import ShoreMetadata.Proofs.Validation.Alike

/-! Legacy tags and the further names of attributes mean the same as their current form. -/

namespace ShoreMetadata

open Recorded (Agree)
open Structure (attributeViolations mistypes typeOfAttribute? violations)
open Text
open Xml (Element)

/-- A legacy tag, and the attribute that tells what the tag tells. -/
structure TagAlias where
  tag : String
  current : String
  told : Option (String × String)

def tagAliases : List TagAlias :=
  [⟨"DataFile", "DataContainer", some ("dataContainerType", "File")⟩,
    ⟨"DataStream", "DataContainer", some ("dataContainerType", "Stream")⟩,
    ⟨"Deployment", "DataProducer", some ("dataProducerType", "Deployment")⟩,
    ⟨"ProcessRun", "DataProducer", some ("dataProducerType", "ProcessRun")⟩,
    ⟨"destiny", "consumer", none⟩]

/-- A further name of an attribute on elements with one of some tags. -/
structure AttributeAlias where
  name : String
  current : String
  tags : List String

def attributeAliases : List AttributeAlias :=
  [⟨"uri", "uriString", ["DataContainer", "Resource", "Software"]⟩,
    ⟨"url", "uriString", ["DataContainer", "Resource", "Software"]⟩,
    ⟨"contentType", "mimeType", ["DataContainer"]⟩,
    ⟨"dodsUrl", "dodsUrlString", ["DataContainer"]⟩]

def currentName (tag name : String) : String :=
  match attributeAliases.find? fun entry => sameName name entry.name
      && entry.tags.any (sameName tag) with
  | some entry => entry.current
  | none => name

namespace Xml.Element

/-- The element with an attribute in front of the others, unless it has one of this name. -/
def telling (x : Element) (a : String × String) : Element :=
  if (x.attribute? a.1).isSome then x else { x with attributes := a :: x.attributes }

/-- The element with its current tag, and with what the legacy tag told as an attribute. -/
def withCurrentTag (x : Element) : Element :=
  match tagAliases.find? fun entry => x.hasTag entry.tag with
  | none => x
  | some entry =>
    match entry.told with
    | none => { x with name := entry.current }
    | some a => ({ x with name := entry.current } : Element).telling a

def withCurrentNames (x : Element) : Element :=
  { x with attributes := x.attributes.map fun a => (currentName x.name a.1, a.2) }

mutual
/-- The tree in which every element has its current tag and current attribute names. -/
def modernized : Element → Element
  | ⟨name, attributes, children, text, position⟩ =>
    { (⟨name, attributes, [], text, position⟩ : Element).withCurrentTag.withCurrentNames with
      children := allModernized children }

def allModernized : List Element → List Element
  | [] => []
  | child :: rest => child.modernized :: allModernized rest
end

private theorem allModernized_eq_map (children : List Element) :
    allModernized children = children.map modernized := by
  induction children with
  | nil => rfl
  | cons child rest ih => rw [allModernized, ih, List.map_cons]

end Xml.Element

/-- A legacy tag is of the same role as the current one, which is not that of a group, and it tells
nothing more only if it is a wrapper. -/
theorem TagAlias.exists_role : ∀ entry ∈ tagAliases, ∃ role ∈ Role.all,
    (entry.tag ∈ role.tags ∧ entry.current ∈ role.tags) ∧
      role ≠ .entity .dataProducerGroup ∧ (entry.told = none → role = .wrapper .consumer) := by
  decide +kernel

private theorem TagAlias.no_root : ∀ entry ∈ tagAliases,
    sameName entry.tag rootTag = false ∧ sameName entry.current rootTag = false := by
  decide +kernel

private theorem TagAlias.not_mistypes :
    ∀ entry ∈ tagAliases, ∀ a ∈ entry.told, mistypes a = false := by
  decide +kernel

private theorem AttributeAlias.exists_kind : ∀ entry ∈ attributeAliases, ∀ tag ∈ entry.tags,
    ∃ k ∈ Kind.all, tag ∈ k.acceptedTags ∧ k ≠ .dataProducerGroup ∧
      k.attributeUse? entry.name = k.attributeUse? entry.current := by
  decide +kernel

theorem AttributeAlias.type : ∀ entry ∈ attributeAliases,
    typeOfAttribute? entry.name = typeOfAttribute? entry.current := by
  decide +kernel

namespace Entity

variable {tag other : String}

private theorem set_set_eq_set {k : Kind} (e : Entity k) {f g : Field} (other : f ≠ g)
    (before after : Option f.Value) (value : Option g.Value) :
    (e.set f after).set g value = ((e.set f before).set g value).set f after := by
  rw [← set_set_of_ne _ other, set_set_same]

private theorem ofTag_eq_set_container (k : Kind)
    (producer : ProducerType.ofTag? tag = ProducerType.ofTag? other) :
    ofTag k tag = (ofTag k other).set .dataContainerType (ContainerType.ofTag? tag) := by
  rw [ofTag, ofTag, producer]
  exact set_set_eq_set _ (by decide) _ _ _

private theorem ofTag_eq_set_producer (k : Kind)
    (container : ContainerType.ofTag? tag = ContainerType.ofTag? other) :
    ofTag k tag = (ofTag k other).set .dataProducerType (ProducerType.ofTag? tag) := by
  rw [ofTag, ofTag, container]
  exact (set_set_same _ _ _ _).symm

end Entity

structure TagAlias.Tells (entry : TagAlias) (a : String × String) (k : Kind) (f : Field)
    (v : f.Value) : Prop where
  kind : entry.tag ∈ k.acceptedTags
  use : k.attributeUse? a.1 = some (.field f)
  plain : f ≠ .softwareVersion
  read : f.type.read a.1 a.2 = .ok v
  tag : Entity.ofTag k entry.tag = (Entity.ofTag k entry.current).set f (some v)

private theorem TagAlias.exists_tells {entry : TagAlias} (member : entry ∈ tagAliases)
    {a : String × String} (told : entry.told = some a) : ∃ k f v, entry.Tells a k f v := by
  simp only [tagAliases, List.mem_cons, List.not_mem_nil, or_false] at member
  rcases member with rfl | rfl | rfl | rfl | rfl <;> cases told
  · exact ⟨.dataContainer, .dataContainerType, ContainerType.file, by decide, by decide, by decide,
      by decide, Entity.ofTag_eq_set_container _ (by decide)⟩
  · exact ⟨.dataContainer, .dataContainerType, ContainerType.stream, by decide, by decide,
      by decide, by decide, Entity.ofTag_eq_set_container _ (by decide)⟩
  · exact ⟨.dataProducer, .dataProducerType, ProducerType.deployment, by decide, by decide,
      by decide, by decide, Entity.ofTag_eq_set_producer _ (by decide)⟩
  · exact ⟨.dataProducer, .dataProducerType, ProducerType.processRun, by decide, by decide,
      by decide, by decide, Entity.ofTag_eq_set_producer _ (by decide)⟩

/-- A name is current, or it stands on an element of an entity of a kind, not that of groups, and
says the same as its current form. -/
theorem currentName_spec (tag : String) (a : String × String) :
    currentName tag a.1 = a.1 ∨ ∃ k, Role.ofTag? tag = some (.entity k) ∧ k ≠ .dataProducerGroup ∧
      k.AttributesAlike a (currentName tag a.1, a.2) := by
  unfold currentName
  cases found : attributeAliases.find? fun entry => sameName a.1 entry.name
      && entry.tags.any (sameName tag) with
  | none => exact .inl rfl
  | some entry =>
      have member := List.mem_of_find?_eq_some found
      have spelled := List.find?_some found
      rw [Bool.and_eq_true, List.any_eq_true] at spelled
      obtain ⟨named, other, among, same⟩ := spelled
      obtain ⟨k, _, accepted, noGroup, use⟩ :=
        AttributeAlias.exists_kind entry member other among
      refine .inr ⟨k, Role.ofTag?_eq_some_iff.mpr ⟨other, accepted, same⟩, noGroup, ?_, ?_, rfl⟩
      · exact (Kind.attributeUse?_of_sameName named).trans use
      · exact (Structure.typeOfAttribute?_congr named).trans (AttributeAlias.type entry member)

private theorem attributesAlike_currentName {tag : String} {k : Kind}
    (role : Role.ofTag? tag = some (.entity k)) (a : String × String) :
    k.AttributesAlike a (currentName tag a.1, a.2) := by
  rcases currentName_spec tag a with kept | ⟨l, own, _, alike⟩
  · rw [kept]
    exact ⟨rfl, rfl, rfl⟩
  · cases own.symm.trans role
    exact alike

namespace Xml.Element

variable (x : Element)

private theorem attributesAlike_withCurrentNames {k : Kind}
    (role : Role.ofTag? x.name = some (.entity k)) :
    List.Forall₂ k.AttributesAlike x.attributes x.withCurrentNames.attributes :=
  List.forall₂_map_right_iff.mpr
    (List.forall₂_same.mpr fun a _ => attributesAlike_currentName role a)

private theorem withCurrentNames_of_group
    (group : Role.ofTag? x.name = some (.entity .dataProducerGroup)) : x.withCurrentNames = x := by
  have kept : x.attributes.map (fun a => (currentName x.name a.1, a.2)) = x.attributes := by
    refine List.map_id'' (fun a => ?_) x.attributes
    rcases currentName_spec x.name a with kept | ⟨k, own, noGroup, _⟩
    · rw [kept]
    · cases own.symm.trans group
      exact absurd rfl noGroup
  exact ext_iff.mpr ⟨rfl, kept, rfl, rfl, rfl⟩

private theorem readsAlike_withCurrentNames : x.ReadsAlike x.withCurrentNames where
  role := rfl
  text := rfl
  attributes := by
    intro k role config
    exact Entity.toOption_readAttributes _ _ _ (x.attributesAlike_withCurrentNames role)
  described := by
    intro group text config
    rw [x.withCurrentNames_of_group group]

private theorem checksAlike_withCurrentNames : x.ChecksAlike x.withCurrentNames where
  role := rfl
  position := rfl
  attributes := fun _ role => Structure.positions_attributeViolations_of_alike
    (x.attributesAlike_withCurrentNames role) x.position

variable {x} in
/-- What a tag told before the attributes is told by an attribute in front of them, unless they
tell it anyway. -/
theorem toOption_readAttributes_telling {k : Kind} {e : Entity k} {a : String × String} {f : Field}
    {v : f.Value} (use : k.attributeUse? a.1 = some (.field f)) (plain : f ≠ .softwareVersion)
    (read : f.type.read a.1 a.2 = .ok v) (config : Config) (place place' : Place) :
    ((e.set f (some v)).readAttributes config place x.attributes).toOption =
      (e.readAttributes config place' (x.telling a).attributes).toOption := by
  have others : List.Forall₂ k.AttributesAlike x.attributes x.attributes :=
    List.forall₂_same.mpr fun _ _ => ⟨rfl, rfl, rfl⟩
  unfold telling
  split
  · rename_i present
    have given : ∃ b ∈ x.attributes, k.attributeUse? b.1 = some (.field f) := by
      rw [attribute?, Option.isSome_map, List.find?_isSome] at present
      obtain ⟨b, member, same⟩ := present
      exact ⟨b, member, (Kind.attributeUse?_of_sameName same).trans use⟩
    rw [Entity.readAttributes_set_of_given config place e _ plain given]
    exact e.toOption_readAttributes place place' others
  · obtain ⟨name, value⟩ := a
    have first : e.readAttribute config place' name value = .ok (e.set f (some v)) := by
      rw [Entity.readAttribute_of_field config place' e use, read]
      rfl
    rw [Entity.readAttributes, first]
    exact (e.set f (some v)).toOption_readAttributes place place' others

private theorem withCurrentTag_spec : x.withCurrentTag = x ∨ ∃ entry ∈ tagAliases,
    sameName x.name entry.tag = true ∧ x.withCurrentTag =
      match entry.told with
      | none => { x with name := entry.current }
      | some a => ({ x with name := entry.current } : Element).telling a := by
  unfold withCurrentTag
  cases found : tagAliases.find? fun entry => x.hasTag entry.tag with
  | none => exact .inl rfl
  | some entry =>
      have spelled := List.find?_some found
      exact .inr ⟨entry, List.mem_of_find?_eq_some found, spelled, rfl⟩

private theorem telling_fields (a : String × String) : (x.telling a).name = x.name ∧
    (x.telling a).text = x.text ∧ (x.telling a).position = x.position := by
  unfold telling
  split
  · exact ⟨rfl, rfl, rfl⟩
  · exact ⟨rfl, rfl, rfl⟩

private theorem positions_telling {a : String × String} (typed : mistypes a = false)
    (position : Position) :
    (attributeViolations position (x.telling a).attributes).map Violation.position =
      (attributeViolations position x.attributes).map Violation.position := by
  unfold telling
  split
  · rfl
  · rw [Structure.positions_attributeViolations, Structure.positions_attributeViolations,
      List.filter_cons_of_neg (by simp [typed])]

variable {x}

section

variable {entry : TagAlias} (member : entry ∈ tagAliases)
  (spelled : sameName x.name entry.tag = true)

include member spelled

private theorem exists_role_of_alias : ∃ role, Role.ofTag? x.name = some role ∧
    Role.ofTag? entry.current = some role ∧ role ≠ .entity .dataProducerGroup ∧
      (entry.told = none → role = .wrapper .consumer) := by
  obtain ⟨role, _, ⟨legacy, now⟩, noGroup, wraps⟩ := TagAlias.exists_role entry member
  exact ⟨role, Role.ofTag?_eq_some_iff.mpr ⟨entry.tag, legacy, spelled⟩,
    Role.ofTag?_eq_some_iff.mpr ⟨entry.current, now, sameName_iff.mpr rfl⟩, noGroup, wraps⟩

private theorem readsAlike_of_wrapper (untold : entry.told = none) :
    x.ReadsAlike { x with name := entry.current } := by
  obtain ⟨role, own, after, noGroup, wraps⟩ := exists_role_of_alias member spelled
  cases wraps untold
  refine ⟨own.trans after.symm, rfl, fun k known => ?_, fun group => ?_⟩
  · cases own.symm.trans known
  · cases own.symm.trans group

private theorem readsAlike_of_told {a : String × String} (told : entry.told = some a) :
    x.ReadsAlike (({ x with name := entry.current } : Element).telling a) := by
  obtain ⟨role, own, after, noGroup, _⟩ := exists_role_of_alias member spelled
  obtain ⟨k, f, v, tells⟩ := TagAlias.exists_tells member told
  have entity : Role.ofTag? x.name = some (.entity k) :=
    Role.ofTag?_eq_some_iff.mpr ⟨entry.tag, tells.kind, spelled⟩
  obtain ⟨name, text, position⟩ := ({ x with name := entry.current } : Element).telling_fields a
  refine ⟨?_, ?_, fun l known config => ?_, fun group => ?_⟩
  · rw [name, own, after]
  · rw [textContent, textContent, text]
  · cases entity.symm.trans known
    rw [readAs?, readAs?, name, Entity.ofTag_of_sameName k spelled, tells.tag]
    exact toOption_readAttributes_telling (x := { x with name := entry.current }) tells.use
      tells.plain tells.read config _ _
  · exact absurd (Option.some.inj (own.symm.trans group)) noGroup

private theorem checksAlike_of_wrapper : x.ChecksAlike { x with name := entry.current } := by
  obtain ⟨role, own, after, _, _⟩ := exists_role_of_alias member spelled
  exact ⟨own.trans after.symm, rfl, fun _ _ => rfl⟩

private theorem checksAlike_of_told {a : String × String} (told : entry.told = some a) :
    x.ChecksAlike (({ x with name := entry.current } : Element).telling a) := by
  obtain ⟨role, own, after, _, _⟩ := exists_role_of_alias member spelled
  obtain ⟨name, _, position⟩ := ({ x with name := entry.current } : Element).telling_fields a
  refine ⟨?_, position.symm, fun k _ => ?_⟩
  · rw [name, own, after]
  · rw [position]
    exact (({ x with name := entry.current } : Element).positions_telling
      (TagAlias.not_mistypes entry member a told) x.position).symm

end

variable (x)

private theorem readsAlike_withCurrentTag : x.ReadsAlike x.withCurrentTag := by
  rcases x.withCurrentTag_spec with kept | ⟨entry, member, spelled, current⟩
  · rw [kept]
    exact .refl x
  · rw [current]
    cases told : entry.told with
    | none => exact readsAlike_of_wrapper member spelled told
    | some a => exact readsAlike_of_told member spelled told

private theorem checksAlike_withCurrentTag : x.ChecksAlike x.withCurrentTag := by
  rcases x.withCurrentTag_spec with kept | ⟨entry, member, spelled, current⟩
  · rw [kept]
    exact .refl x
  · rw [current]
    cases told : entry.told with
    | none => exact checksAlike_of_wrapper member spelled
    | some a => exact checksAlike_of_told member spelled told

private theorem children_modernized : x.modernized.children = x.children.map modernized := by
  cases x
  exact allModernized_eq_map _

private theorem hasTag_rootTag_withCurrentTag :
    x.withCurrentTag.hasTag rootTag = x.hasTag rootTag := by
  rcases x.withCurrentTag_spec with kept | ⟨entry, member, spelled, current⟩
  · rw [kept]
  · obtain ⟨legacy, now⟩ := TagAlias.no_root entry member
    have name : x.withCurrentTag.name = entry.current := by
      rw [current]
      cases entry.told with
      | none => rfl
      | some a => exact (telling_fields _ a).1
    rw [hasTag, hasTag, name, now, sameName, sameName_iff.mp spelled]
    exact legacy.symm

private theorem hasTag_rootTag_modernized : x.modernized.hasTag rootTag = x.hasTag rootTag := by
  obtain ⟨name, attributes, children, text, position⟩ := x
  exact hasTag_rootTag_withCurrentTag ⟨name, attributes, [], text, position⟩

private theorem along_modernized {R : Element → Element → Prop}
    (step : ∀ name attributes children children' text position,
      let head : Element := ⟨name, attributes, [], text, position⟩
      R ⟨name, attributes, children, text, position⟩
        { head.withCurrentTag.withCurrentNames with children := children' }) :
    x.Along R x.modernized := by
  induction x using Element.induction with
  | step x ih =>
      obtain ⟨name, attributes, children, text, position⟩ := x
      refine .intro (step name attributes children _ text position) ?_
      rw [children_modernized]
      exact List.forall₂_map_right_iff.mpr (List.forall₂_same.mpr ih)

private theorem along_readsAlike_modernized : x.Along ReadsAlike x.modernized := by
  apply along_modernized
  intro name attributes children children' text position head
  have alike := head.readsAlike_withCurrentTag.trans
    head.withCurrentTag.readsAlike_withCurrentNames
  exact alike.withChildren children children'

private theorem along_checksAlike_modernized : x.Along ChecksAlike x.modernized := by
  apply along_modernized
  intro name attributes children children' text position head
  have alike := head.checksAlike_withCurrentTag.trans
    head.withCurrentTag.checksAlike_withCurrentNames
  exact alike.withChildren children children'

end Xml.Element

/-- A document gives the same as its current form with equally many problems, or both fail, and
one is valid if the other is. -/
theorem readTree_modernized (config : Config) (root : Element) :
    Agree Eq (readTree config root) (readTree config root.modernized) ∧
      (violations root = [] ↔ violations root.modernized = []) := by
  have checked := root.along_checksAlike_modernized
  have named := root.hasTag_rootTag_modernized.symm
  have places := Structure.positions_violations named checked.here.position checked.inside
  refine ⟨readTree_alike named root.along_readsAlike_modernized.inside places, ?_⟩
  rw [← List.map_eq_nil_iff (f := Violation.position), places, List.map_eq_nil_iff]

theorem readTree_modernized_stream :
    let config : Config := { mode := .strict }
    let producer : Element :=
      ⟨"processRUN", [("name", "p"), ("DATAproducerType", "Deployment")], [], "", .none⟩
    let container : Element := ⟨"DataStream", [("URL", "u"), ("contentType", "c"), ("Name", "s")],
      [⟨"destiny", [], [producer], "", .none⟩], "", .none⟩
    let root : Element := ⟨"Metadata", [], [container], "", .none⟩
    container.modernized.name = "DataContainer" ∧
      container.modernized.attributes =
        [("dataContainerType", "Stream"), ("uriString", "u"), ("mimeType", "c"), ("Name", "s")] ∧
      producer.modernized.attributes = producer.attributes ∧
      (readTree config root).result.isOk = true ∧
      Agree Eq (readTree config root) (readTree config root.modernized) ∧
      (violations root = [] ↔ violations root.modernized = []) := by
  intro config producer container root
  refine ⟨by decide +kernel, by decide +kernel, by decide +kernel, by decide +kernel, ?_⟩
  exact readTree_modernized config root

end ShoreMetadata
