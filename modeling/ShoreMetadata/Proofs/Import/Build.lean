import ShoreMetadata.Import.Session
import ShoreMetadata.Proofs.Import.Recorded

/-! What building and reading come down to. -/

namespace ShoreMetadata

open Xml (Element)

variable {config : Config}

theorem buildContent_eq (config : Config) (tags : List String) (children : List Element) :
    buildContent config tags children =
      match children.find? (·.hasTagIn tags) with
      | some content => buildElement config content
      | none => .ok none := by
  induction children with
  | nil => rfl
  | cons child rest ih =>
      rw [buildContent, List.find?_cons]
      cases child.hasTagIn tags with
      | true => rfl
      | false => exact ih

section

variable {x : Element}

theorem buildElement_of_wrapper {w : Wrapper} (role : Role.ofTag? x.name = some (.wrapper w)) :
    buildElement config x = buildContent config w.contentTags x.children := by
  obtain ⟨name, attributes, children, text, position⟩ := x
  simp only at role
  simp only [buildElement, role]

theorem buildElement_of_description (role : Role.ofTag? x.name = some .description) :
    buildElement config x = .ok none := by
  obtain ⟨name, attributes, children, text, position⟩ := x
  simp only at role
  simp only [buildElement, role]

theorem buildElement_of_none (role : Role.ofTag? x.name = none) :
    buildElement config x = unknownElement config ⟨x.name, x.position.line⟩ := by
  obtain ⟨name, attributes, children, text, position⟩ := x
  simp only at role
  simp only [buildElement, role]

end

theorem result_unknownElement_ne (place : Place) (e : AnyEntity) :
    (unknownElement config place).result ≠ .ok (some e) := by
  unfold unknownElement
  cases config.isStrict with
  | true => exact fun built => by cases built
  | false => exact fun built => by cases built

/-- A text that is accepted is that of a tree, and the document is built from this tree turned
inside out. -/
theorem exists_root_of_accepted {text : String} {d : Document}
    (accepted : (readDocument config text).result = .ok d) :
    ∃ root, Xml.read text = .ok root ∧
      (buildDocument config .empty (Inversion.invert root).children).result = .ok d := by
  obtain ⟨root, parsed, accepted⟩ := Recorded.result_bind_eq_ok.mp accepted
  have read : Xml.read text = .ok root := by
    change (Xml.read text).mapError Error.xml = .ok root at parsed
    cases outcome : Xml.read text with
    | error e =>
        rw [outcome] at parsed
        cases parsed
    | ok other =>
        rw [outcome] at parsed
        cases parsed
        rfl
  refine ⟨root, read, ?_⟩
  unfold readTree at accepted
  split at accepted
  · cases accepted
  · generalize (if config.validate then Structure.violations root else []) = violations at accepted
    dsimp only at accepted
    split at accepted
    · exact accepted
    · cases accepted

end ShoreMetadata
