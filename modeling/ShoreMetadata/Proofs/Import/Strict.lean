import ShoreMetadata.Proofs.Import.Build
import ShoreMetadata.Proofs.Validation.Attribute
import ShoreMetadata.Proofs.Xml.Tree

/-! A strict reading and a lenient one go the same way, up to the first thing that only the
strict one refuses. -/

namespace ShoreMetadata

open Recorded (Tightens exists_of_isOk exists_of_not_isOk)
open Xml (Element)

/-- The failures that only a strict reading has: unknown constructs and versions that are no
numbers. -/
inductive Error.OfStrict : Error → Prop
  | ofAttribute {e : Error} (reason : e.OfAttribute) : OfStrict e
  | element (name : String) (line : Nat) : OfStrict (.unknownElement name line)
  | child (child parent : String) (line : Nat) : OfStrict (.unroutable child parent line)

variable {strict lenient : Config}

private theorem buildChildren_tightens {children : List Element}
    (inside : ∀ child ∈ children,
      Tightens Error.OfStrict (buildElement strict child) (buildElement lenient child)) :
    Tightens Error.OfStrict (buildChildren strict children) (buildChildren lenient children) := by
  induction children with
  | nil => exact .same rfl
  | cons child rest ih =>
      rw [List.forall_mem_cons] at inside
      rw [buildChildren, buildChildren]
      split
      · exact (ih inside.2).bind fun offspring => .same rfl
      · refine inside.1.bind fun built => (ih inside.2).bind fun offspring => ?_
        cases built with
        | none => exact .same rfl
        | some entity => exact .same rfl

section

variable (tight : strict.isStrict = true)

include tight

/-! The four places where the mode counts. -/

namespace Entity

variable {k : Kind}

private theorem readVersion_tightens (e : Entity k) (value : String) :
    Tightens Error.OfStrict (.ofExcept (e.readVersion strict value))
      (.ofExcept (e.readVersion lenient value)) := by
  unfold readVersion
  cases Version.parse? value with
  | some version => exact .same rfl
  | none =>
      rw [tight]
      exact .refuse (.ofAttribute (.version value))

private theorem readAttribute_tightens (place : Place) (e : Entity k) (name value : String) :
    Tightens Error.OfStrict (.ofExcept (e.readAttribute strict place name value))
      (.ofExcept (e.readAttribute lenient place name value)) := by
  unfold readAttribute
  cases k.attributeUse? name with
  | none =>
      rw [tight]
      exact .refuse (.ofAttribute (.unknown name place.tag place.line))
  | some use =>
      cases use with
      | version => exact e.readVersion_tightens tight value
      | field f => exact .same rfl
      | shorthand s => exact .same rfl

private theorem adopt_tightens (place : Place) (e : Entity k) (child : Child) :
    Tightens Error.OfStrict (e.adopt strict place child) (e.adopt lenient place child) := by
  unfold adopt
  cases e.adopt? child with
  | some next => exact .same rfl
  | none =>
      rw [tight]
      exact .refuse (.child child.tag place.tag place.line)

end Entity

private theorem unknownElement_tightens (place : Place) :
    Tightens Error.OfStrict (unknownElement strict place) (unknownElement lenient place) := by
  unfold unknownElement
  rw [tight]
  exact .refuse (.element place.tag place.line)

/-! Everything else follows step by step. -/

namespace Entity

variable {k : Kind}

private theorem readAttributes_tightens (place : Place) (e : Entity k)
    (attributes : List (String × String)) :
    Tightens Error.OfStrict (.ofExcept (e.readAttributes strict place attributes))
      (.ofExcept (e.readAttributes lenient place attributes)) := by
  induction attributes generalizing e with
  | nil => exact .same rfl
  | cons a rest ih =>
      obtain ⟨name, value⟩ := a
      rw [readAttributes, readAttributes, Recorded.ofExcept_bind, Recorded.ofExcept_bind]
      exact (e.readAttribute_tightens tight place name value).bind ih

private theorem adoptAll_tightens (place : Place) (e : Entity k) (children : List Child) :
    Tightens Error.OfStrict (e.adoptAll strict place children)
      (e.adoptAll lenient place children) := by
  induction children generalizing e with
  | nil => exact .same rfl
  | cons child rest ih =>
      rw [adoptAll, adoptAll]
      exact (e.adopt_tightens tight place child).bind ih

end Entity

private theorem buildElement_tightens (x : Element) :
    Tightens Error.OfStrict (buildElement strict x) (buildElement lenient x) := by
  induction x using Element.induction with
  | step x ih =>
      obtain ⟨name, attributes, children, text, position⟩ := x
      rw [buildElement, buildElement]
      cases Role.ofTag? name with
      | none => exact unknownElement_tightens tight _
      | some role =>
          cases role with
          | entity k =>
              refine (Entity.readAttributes_tightens tight _ _ attributes).bind fun e => ?_
              refine (buildChildren_tightens ih).bind fun offspring => ?_
              refine (Entity.adoptAll_tightens tight _ _ offspring.children).bind fun e => ?_
              exact .same rfl
          | wrapper w =>
              simp only [buildContent_eq]
              cases found : children.find? (·.hasTagIn w.contentTags) with
              | none => exact .same rfl
              | some content => exact ih content (List.mem_of_find?_eq_some found)
          | description => exact .same rfl

private theorem buildDocument_tightens (d : Document) (children : List Element) :
    Tightens Error.OfStrict (buildDocument strict d children)
      (buildDocument lenient d children) := by
  induction children generalizing d with
  | nil => exact .same rfl
  | cons child rest ih =>
      rw [buildDocument, buildDocument]
      refine (buildElement_tightens tight child).bind fun built => ?_
      cases built with
      | none => exact ih d
      | some e => exact ih (d.insert e).1

private theorem readTree_tightens (agree : strict.validate = lenient.validate) (root : Element) :
    Tightens Error.OfStrict (readTree strict root) (readTree lenient root) := by
  unfold readTree
  rw [agree]
  split
  · exact .same rfl
  · generalize (if lenient.validate then Structure.violations root else []) = violations
    dsimp only
    split
    · exact buildDocument_tightens tight .empty _
    · exact .same rfl

private theorem readDocument_tightens (agree : strict.validate = lenient.validate) (text : String) :
    Tightens Error.OfStrict (readDocument strict text) (readDocument lenient text) :=
  Tightens.bind (.same rfl) (readTree_tightens tight agree)

end

/-- Of the same text, a strict reading gives the document that a lenient one gives without passing
anything over, or it fails: for the same reason as the lenient one, or for one that only a strict
reading has. It passes nothing over itself. -/
theorem readDocument_strict_lenient (config : Config) (text : String) :
    let strict := readDocument config.strict text
    let lenient := readDocument (config.setMode .lenient) text
    (∀ d, strict.result = .ok d → lenient = .ok d) ∧
      (∀ e, lenient.result = .error e →
        ∃ e', strict.result = .error e' ∧ (e' = e ∨ e'.OfStrict)) ∧
      (∀ d e, lenient.result = .ok d → strict.result = .error e → e.OfStrict) ∧
      strict.problems = [] := by
  intro strict lenient
  have agree : config.strict.validate = (config.setMode .lenient).validate := rfl
  have tightens : Tightens Error.OfStrict strict lenient := readDocument_tightens rfl agree text
  refine ⟨fun d => tightens.of_ok, fun e failed => ?_, fun d e built failed => ?_,
    tightens.problems_eq⟩
  · cases outcome : strict.result with
    | ok d =>
        rw [tightens.of_ok outcome] at failed
        cases failed
    | error e' =>
        refine ⟨e', rfl, (tightens.of_error outcome).imp_left fun same => ?_⟩
        exact Except.error.inj (same.symm.trans failed)
  · refine (tightens.of_error failed).resolve_left fun same => ?_
    cases built.symm.trans same

theorem readDocument_strict_lenient_versions :
    let alike := "<Metadata><Event name='a' version='2'/></Metadata>"
    let wrong := "<Metadata><Event startDate='soon' version='x'/></Metadata>"
    let loose := "<Metadata><Event name='a' version='x'/></Metadata>"
    (∃ d, (readDocument (Config.strict {}) alike).result = .ok d ∧
        readDocument (Config.setMode {} .lenient) alike = .ok d) ∧
      (∃ e, (readDocument (Config.strict {}) wrong).result = .error e) ∧
      ∃ e, (readDocument (Config.strict {}) loose).result = .error e ∧ e.OfStrict := by
  intro alike wrong loose
  obtain ⟨d, accepted⟩ := exists_of_isOk
    (show (readDocument (Config.strict {}) alike).result.isOk = true by decide +kernel)
  obtain ⟨e, failed⟩ := exists_of_not_isOk
    (show (readDocument (Config.setMode {} .lenient) wrong).result.isOk = false by decide +kernel)
  obtain ⟨e', failedToo, _⟩ := (readDocument_strict_lenient {} wrong).2.1 e failed
  obtain ⟨d', passed⟩ := exists_of_isOk
    (show (readDocument (Config.setMode {} .lenient) loose).result.isOk = true by decide +kernel)
  obtain ⟨own, refused⟩ := exists_of_not_isOk
    (show (readDocument (Config.strict {}) loose).result.isOk = false by decide +kernel)
  exact ⟨⟨d, accepted, (readDocument_strict_lenient {} alike).1 d accepted⟩, ⟨e', failedToo⟩,
    own, refused, (readDocument_strict_lenient {} loose).2.2.1 d' own passed refused⟩

end ShoreMetadata
