import ShoreMetadata.Import.Session
import ShoreMetadata.Proofs.Import.Strict
import ShoreMetadata.Proofs.Scalar
import ShoreMetadata.Proofs.Schema.Tag

/-! A lenient reading without validation fails at the first attribute whose value is not of its
type, in the order of the document, and for no other reason. -/

namespace ShoreMetadata

open Text
open Recorded (Meets)
open Xml (Element)

def Kind.typeOfAttribute? (k : Kind) (name : String) : Option FieldType :=
  (k.fields.find? fun f => f.type ≠ .text && sameName name f.xmlName).map Field.type

private theorem Kind.typeOfAttribute?_eq (k : Kind) (name : String) :
    k.typeOfAttribute? name =
      match k.attributeUse? name with
      | some (.field f) => if f.type = .text then none else some f.type
      | _ => none := by
  rw [typeOfAttribute?]
  cases found : k.fields.find? fun f => f.type ≠ .text && sameName name f.xmlName with
  | some f =>
      have named := List.find?_some found
      rw [Bool.and_eq_true, decide_eq_true_eq] at named
      rw [(attributeUse?_eq_field_iff named.1).mpr ⟨List.mem_of_find?_eq_some found, named.2⟩]
      simp [named.1]
  | none =>
      have missing := List.find?_eq_none.mp found
      split
      · rename_i f use
        split
        · rfl
        · rename_i typed
          obtain ⟨known, same⟩ := (attributeUse?_eq_field_iff typed).mp use
          exact absurd (by simp [typed, same]) (missing f known)
      · rfl

structure TypedAttribute where
  name : String
  value : String
  type : FieldType
deriving DecidableEq

def Kind.typedAttribute? (k : Kind) (name value : String) : Option TypedAttribute :=
  (k.typeOfAttribute? name).map fun type => ⟨name, value, type⟩

private theorem FieldType.read_of_unparsed {t : FieldType} (noBytes : t ≠ .bytes)
    {field value : String} (unreadable : t.parse? value = none) :
    t.read field value = .error (.conversion field value t) := by
  cases t with
  | bytes => contradiction
  | _ => simp [read, unreadable]

namespace TypedAttribute

variable {a : TypedAttribute} {e : Error}

def Coerces (a : TypedAttribute) : Prop :=
  (a.type.parse? a.value).isSome = true

/-- The failure tells the attribute as it is written, and what is wrong with its value. -/
inductive FailsWith (a : TypedAttribute) : Error → Prop
  | conversion (noBytes : a.type ≠ .bytes) (unreadable : a.type.parse? a.value = none) :
    FailsWith a (.conversion a.name a.value a.type)
  | encoding (bytes : a.type = .bytes) {fault : Base64.Fault}
    (undecodable : bytesOfText a.value = .error fault) : FailsWith a (.encoding a.name fault)

def fault? (a : TypedAttribute) : Option Error :=
  match a.type.read a.name a.value with
  | .ok _ => none
  | .error e => some e

private theorem fault?_eq_none_iff : a.fault? = none ↔ a.Coerces := by
  rw [fault?, Coerces, Option.isSome_iff_exists]
  cases read : a.type.read a.name a.value with
  | ok v => simp [FieldType.parse?_of_read read]
  | error e =>
      simp only [reduceCtorEq, false_iff, not_exists]
      intro v parsed
      cases read.symm.trans (FieldType.read_of_parse? a.name parsed)

private theorem fault?_eq_some_iff : a.fault? = some e ↔ a.FailsWith e := by
  obtain ⟨name, value, type⟩ := a
  by_cases bytes : type = .bytes
  · subst bytes
    have read : FieldType.bytes.read name value = (bytesOfText value).mapError (.encoding name) :=
      rfl
    rw [fault?, read]
    constructor
    · intro failed
      cases decoded : bytesOfText value with
      | ok content =>
          rw [decoded] at failed
          cases failed
      | error fault =>
          rw [decoded] at failed
          cases failed
          exact .encoding rfl decoded
    · intro fails
      cases fails with
      | conversion noBytes => contradiction
      | encoding _ undecodable =>
          rw [show bytesOfText value = _ from undecodable]
          rfl
  · constructor
    · intro failed
      cases parsed : type.parse? value with
      | some v =>
          rw [fault?_eq_none_iff.mpr (by simp [Coerces, parsed])] at failed
          cases failed
      | none =>
          rw [fault?, FieldType.read_of_unparsed bytes parsed] at failed
          cases failed
          exact .conversion bytes parsed
    · intro fails
      cases fails with
      | conversion noBytes unreadable => rw [fault?, FieldType.read_of_unparsed noBytes unreadable]
      | encoding isBytes => exact absurd isBytes bytes

end TypedAttribute

namespace Xml.Element

def typedAttributes (x : Element) : List TypedAttribute :=
  match Role.ofTag? x.name with
  | some (.entity k) => x.attributes.filterMap fun entry => k.typedAttribute? entry.1 entry.2
  | _ => []

def isBuilt (child : Element) : Bool :=
  match Role.ofTag? child.name with
  | none | some .description => false
  | some _ => true

mutual
/-- The elements that building an element comes to, in the order of the document: all children of
the element of an entity that are known and no descriptions, and of a wrapper the first that is its
content. -/
def visited : Element → List Element
  | ⟨name, attributes, children, text, position⟩ =>
    ⟨name, attributes, children, text, position⟩ ::
      match Role.ofTag? name with
      | some (.entity _) => visitedChildren children
      | some (.wrapper w) => visitedContent w.contentTags children
      | _ => []

def visitedChildren : List Element → List Element
  | [] => []
  | child :: rest =>
    if child.isBuilt then child.visited ++ visitedChildren rest else visitedChildren rest

def visitedContent (tags : List String) : List Element → List Element
  | [] => []
  | child :: rest => if child.hasTagIn tags then child.visited else visitedContent tags rest
end

theorem visitedContent_eq (tags : List String) (children : List Element) :
    visitedContent tags children =
      match children.find? (·.hasTagIn tags) with
      | some content => content.visited
      | none => [] := by
  induction children with
  | nil => rfl
  | cons child rest ih =>
      rw [visitedContent, List.find?_cons]
      cases child.hasTagIn tags with
      | true => rfl
      | false => exact ih

end Xml.Element

def faultsIn (xs : List Element) : List Error :=
  (xs.flatMap Element.typedAttributes).filterMap TypedAttribute.fault?

@[simp] theorem faultsIn_nil : faultsIn [] = [] := rfl

@[simp] theorem faultsIn_cons (x : Element) (xs : List Element) :
    faultsIn (x :: xs) = x.typedAttributes.filterMap TypedAttribute.fault? ++ faultsIn xs := by
  simp [faultsIn]

@[simp] theorem faultsIn_append (xs ys : List Element) :
    faultsIn (xs ++ ys) = faultsIn xs ++ faultsIn ys := by
  simp [faultsIn]

private theorem faultsIn_visited_of_not_isBuilt {x : Element} (unbuilt : x.isBuilt = false) :
    faultsIn x.visited = [] := by
  obtain ⟨name, attributes, children, text, position⟩ := x
  unfold Element.isBuilt at unbuilt
  rw [Element.visited, faultsIn_cons, Element.typedAttributes]
  split at unbuilt <;> simp_all

private theorem faultsIn_visitedChildren_cons (child : Element) (rest : List Element) :
    faultsIn (Element.visitedChildren (child :: rest)) =
      faultsIn child.visited ++ faultsIn (Element.visitedChildren rest) := by
  rw [Element.visitedChildren]
  split
  · exact faultsIn_append _ _
  · rename_i unbuilt
    rw [faultsIn_visited_of_not_isBuilt (Bool.not_eq_true _ ▸ unbuilt), List.nil_append]

variable {config : Config}

private theorem buildChildren_meets {children : List Element}
    (inside : ∀ child ∈ children, Meets (faultsIn child.visited) (buildElement config child)) :
    Meets (faultsIn (Element.visitedChildren children)) (buildChildren config children) := by
  induction children with
  | nil => exact .ok _
  | cons child rest ih =>
      rw [List.forall_mem_cons] at inside
      rw [buildChildren, faultsIn_visitedChildren_cons]
      split
      · rename_i described
        -- A description is taken out before anything is built from it.
        have unbuilt : child.isBuilt = false := by
          simp [Element.isBuilt, Element.hasTag_description_iff.mp described]
        rw [faultsIn_visited_of_not_isBuilt unbuilt]
        exact (ih inside.2).bind_nil fun offspring => .ok _
      · refine inside.1.bind fun built => (ih inside.2).bind_nil fun offspring => ?_
        cases built with
        | none => exact .ok _
        | some entity => exact .ok _

section

variable (isLenient : config.isStrict = false)

include isLenient

namespace Entity

variable {k : Kind}

private theorem readVersion_lenient (e : Entity k) (value : String) :
    ∃ next, e.readVersion config value = .ok next := by
  rcases e.readVersion_outcome config value with read | ⟨strict, _⟩
  · exact read
  · rw [isLenient] at strict
    cases strict

private theorem readAttribute_meets (place : Place) (e : Entity k) (name value : String) :
    Meets ((k.typedAttribute? name value).bind TypedAttribute.fault?).toList
      (.ofExcept (e.readAttribute config place name value)) := by
  rw [Kind.typedAttribute?, k.typeOfAttribute?_eq, readAttribute]
  cases k.attributeUse? name with
  | none =>
      rw [isLenient]
      exact .ok e
  | some use =>
      cases use with
      | version =>
          obtain ⟨next, read⟩ := e.readVersion_lenient isLenient value
          simp only [read]
          exact .ok next
      | shorthand s => exact .ok _
      | field f =>
          by_cases text : f.type = .text
          · obtain ⟨v, read⟩ : ∃ v, f.type.read name value = .ok v := by
              rw [text]
              exact ⟨value, rfl⟩
            simp only [text, if_true, read]
            exact .ok _
          · simp only [text, if_false, Option.map_some, Option.bind_some, TypedAttribute.fault?]
            cases f.type.read name value with
            | ok v => exact .ok _
            | error error => rfl

private theorem readAttributes_meets (place : Place) (e : Entity k)
    (attributes : List (String × String)) :
    Meets ((attributes.filterMap fun entry => k.typedAttribute? entry.1 entry.2).filterMap
        TypedAttribute.fault?)
      (.ofExcept (e.readAttributes config place attributes)) := by
  induction attributes generalizing e with
  | nil => exact .ok e
  | cons a rest ih =>
      obtain ⟨name, value⟩ := a
      rw [readAttributes, Recorded.ofExcept_bind]
      have step := (e.readAttribute_meets isLenient place name value).bind ih
      rw [List.filterMap_filterMap] at step ⊢
      rw [List.filterMap_cons]
      -- The attribute has a fault of its own, which comes first, or it has none.
      cases fault : (k.typedAttribute? name value).bind TypedAttribute.fault? with
      | none =>
          rw [fault] at step
          simpa [fault] using step
      | some error =>
          rw [fault] at step
          simpa [fault] using step

private theorem adoptAll_lenient (place : Place) (e : Entity k) (children : List Child) :
    Meets [] (e.adoptAll config place children) := by
  induction children generalizing e with
  | nil => exact .ok e
  | cons child rest ih =>
      rw [adoptAll]
      refine Meets.bind_nil ?_ ih
      rw [adopt]
      cases e.adopt? child with
      | some next => exact .ok next
      | none =>
          rw [isLenient]
          exact .ok e

end Entity

private theorem unknownElement_lenient (place : Place) :
    Meets [] (unknownElement config place) := by
  rw [unknownElement, isLenient]
  exact .ok none

private theorem buildElement_meets (x : Element) :
    Meets (faultsIn x.visited) (buildElement config x) := by
  induction x using Element.induction with
  | step x ih =>
      obtain ⟨name, attributes, children, text, position⟩ := x
      rw [buildElement, Element.visited, faultsIn_cons, Element.typedAttributes]
      cases Role.ofTag? name with
      | none => exact unknownElement_lenient isLenient _
      | some role =>
          cases role with
          | entity k =>
              refine (Entity.readAttributes_meets isLenient _ _ attributes).bind fun e => ?_
              refine (buildChildren_meets ih).bind_nil fun offspring => ?_
              exact (Entity.adoptAll_lenient isLenient _ _ _).bind_nil fun e => .ok _
          | wrapper w =>
              simp only [buildContent_eq, Element.visitedContent_eq]
              cases found : children.find? (·.hasTagIn w.contentTags) with
              | none => exact .ok none
              | some content => exact ih content (List.mem_of_find?_eq_some found)
          | description => exact .ok none

private theorem buildDocument_meets (d : Document) (children : List Element) :
    Meets (faultsIn (children.flatMap Element.visited)) (buildDocument config d children) := by
  induction children generalizing d with
  | nil => exact .ok d
  | cons child rest ih =>
      rw [buildDocument, List.flatMap_cons, faultsIn_append]
      refine (buildElement_meets isLenient child).bind fun built => ?_
      cases built with
      | none => exact ih d
      | some e => exact ih (d.insert e).1

end

/-- The typed attributes of the elements that reading a root comes to, in the order of the
document. -/
def typedAttributesIn (root : Element) : List TypedAttribute :=
  ((Inversion.invert root).children.flatMap Element.visited).flatMap Element.typedAttributes

private theorem readTree_meets {config : Config} (isLenient : config.isStrict = false)
    (unvalidated : config.validate = false) {root : Element} (named : root.hasTag rootTag = true) :
    Meets ((typedAttributesIn root).filterMap TypedAttribute.fault?) (readTree config root) := by
  unfold readTree
  rw [named, unvalidated]
  exact buildDocument_meets isLenient .empty _

private theorem not_version_of_mem_typedAttributesIn {root : Element} {a : TypedAttribute}
    (member : a ∈ typedAttributesIn root) : a.name ≠ "version" := by
  obtain ⟨x, _, own⟩ := List.mem_flatMap.mp member
  unfold Element.typedAttributes at own
  split at own
  · rename_i k _
    obtain ⟨entry, _, typed⟩ := List.mem_filterMap.mp own
    intro isVersion
    rw [Kind.typedAttribute?, Option.map_eq_some_iff] at typed
    obtain ⟨type, known, rfl⟩ := typed
    change entry.1 = "version" at isVersion
    rw [k.typeOfAttribute?_eq, isVersion, k.attributeUse?_version] at known
    cases known
  · cases own

private theorem TypedAttribute.FailsWith.not_ofStrict {a : TypedAttribute} {e : Error}
    (fails : a.FailsWith e) (notVersion : a.name ≠ "version") : ¬e.OfStrict := by
  obtain ⟨name, value, type⟩ := a
  intro strict
  cases fails with
  | conversion =>
      cases strict with
      | ofAttribute reason =>
          cases reason
          exact notVersion rfl
  | encoding =>
      cases strict with
      | ofAttribute reason => cases reason

/-- A lenient reading without validation succeeds iff all typed attributes that it comes to can be
read. Otherwise it fails at the first that cannot, and tells it. Nothing that only a strict reading
refuses is a reason. -/
theorem readTree_lenient_iff {config : Config} (isLenient : config.isStrict = false)
    (unvalidated : config.validate = false) {root : Element} (named : root.hasTag rootTag = true) :
    ((∃ d, (readTree config root).result = .ok d) ↔ ∀ a ∈ typedAttributesIn root, a.Coerces) ∧
      (∀ e, (readTree config root).result = .error e ↔
        ∃ before a after, typedAttributesIn root = before ++ a :: after ∧
          (∀ b ∈ before, b.Coerces) ∧ a.FailsWith e) ∧
      ∀ e, (readTree config root).result = .error e → ¬e.OfStrict := by
  have meets := readTree_meets isLenient unvalidated named
  have first (e : Error) : (readTree config root).result = .error e ↔
      ∃ before a after, typedAttributesIn root = before ++ a :: after ∧
        (∀ b ∈ before, b.Coerces) ∧ a.FailsWith e := by
    rw [meets.error_iff, List.head?_filterMap, List.findSome?_eq_some_iff]
    simp only [TypedAttribute.fault?_eq_some_iff, TypedAttribute.fault?_eq_none_iff]
    refine exists_congr fun before => exists_congr fun a => exists_congr fun after => ?_
    exact and_congr_right fun _ => and_comm
  refine ⟨?_, first, fun e failed => ?_⟩
  · rw [meets.exists_ok_iff, List.filterMap_eq_nil_iff]
    simp only [TypedAttribute.fault?_eq_none_iff]
  · obtain ⟨before, a, after, split, _, fails⟩ := (first e).mp failed
    have member : a ∈ typedAttributesIn root := by simp [split]
    exact fails.not_ofStrict (not_version_of_mem_typedAttributesIn member)

theorem readTree_lenient_iff_unroutable :
    let device : Element :=
      { Element.ofName "Device" with
        attributes := [("ID", "1"), ("version", "new"), ("colour", "red")]
        children := [Element.ofName "Bogus",
          { Element.ofName "Keyword" with attributes := [("Id", "one")] }] }
    let root : Element := { Element.ofName "metadata" with children := [device] }
    (Config.isStrict {} = false ∧ Config.validate {} = false ∧ root.hasTag rootTag = true) ∧
      (readTree {} root).result = .error (.conversion "Id" "one" .long) := by
  intro device root
  have facts : Config.isStrict {} = false ∧ Config.validate {} = false ∧
      root.hasTag rootTag = true := by decide +kernel
  refine ⟨facts, ((readTree_lenient_iff facts.1 facts.2.1 facts.2.2).2.1 _).mpr
    ⟨[⟨"ID", "1", .long⟩], ⟨"Id", "one", .long⟩, [], by decide +kernel, ?_, ?_⟩⟩
  · unfold TypedAttribute.Coerces
    decide +kernel
  · exact .conversion (by decide) (by decide +kernel)

end ShoreMetadata
