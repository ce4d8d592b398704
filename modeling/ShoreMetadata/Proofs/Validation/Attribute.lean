import ShoreMetadata.Import.Attribute
import ShoreMetadata.Proofs.Validation.Tables

/-! Attributes of a valid element can be read, whatever element they stand on. -/

namespace ShoreMetadata

open Text

private theorem Kind.type_of_mem_aliases {k : Kind} {entry : String × Field}
    (member : entry ∈ k.aliases) : entry.2.type = .text := by
  revert entry
  cases k <;> decide

private theorem Field.find?_xmlName {fs : List Field} {f : Field} (member : f ∈ fs) :
    fs.find? (fun g => sameName f.xmlName g.xmlName) = some f := by
  cases found : fs.find? fun g => sameName f.xmlName g.xmlName with
  | none =>
      have missing := List.find?_eq_none.mp found f member
      exact absurd (sameName_iff.mpr rfl) missing
  | some g =>
      have spelled := List.find?_some found
      rw [Field.eq_of_sameName spelled (sameName_iff.mpr rfl)]

theorem Kind.attributeUse?_xmlName {k : Kind} {f : Field} (member : f ∈ k.fields) :
    k.attributeUse? f.xmlName = some (.field f) := by
  have noVersion : sameName f.xmlName "version" = false :=
    beq_false_of_ne f.lower_xmlName_ne
  have own : (("version", AttributeUse.version) ::
      k.fields.map fun g => (g.xmlName, AttributeUse.field g)).find?
        (fun entry => sameName f.xmlName entry.1) = some (f.xmlName, .field f) := by
    rw [List.find?_cons]
    simp only [noVersion]
    rw [List.find?_map]
    exact congrArg (Option.map _) (Field.find?_xmlName member)
  rw [attributeUse?, attributeNames, List.find?_append, List.find?_append, own]
  rfl

theorem Kind.attributeUse?_version (k : Kind) : k.attributeUse? "version" = some .version := by
  have own : (("version", AttributeUse.version) ::
      k.fields.map fun g => (g.xmlName, AttributeUse.field g)).find?
        (fun entry => sameName "version" entry.1) = some ("version", .version) := by
    have itself : sameName "version" "version" = true := sameName_iff.mpr rfl
    rw [List.find?_cons]
    simp only [itself]
  rw [attributeUse?, attributeNames, List.find?_append, List.find?_append, own]
  rfl

theorem Kind.attributeUse?_of_sameName {k : Kind} {name other : String}
    (same : sameName name other = true) : k.attributeUse? name = k.attributeUse? other := by
  rw [attributeUse?, attributeUse?, sameName_congr same]

theorem Kind.attributeUse?_eq_field_iff_of_unaliased {k : Kind} {name : String} {f : Field}
    (unaliased : ∀ entry ∈ k.aliases, entry.2 ≠ f) :
    k.attributeUse? name = some (.field f) ↔ f ∈ k.fields ∧ sameName name f.xmlName = true := by
  constructor
  · intro use
    rw [attributeUse?, Option.map_eq_some_iff] at use
    obtain ⟨⟨label, _⟩, found, rfl⟩ := use
    have same : sameName name label = true := by simpa using List.find?_some found
    have member := List.mem_of_find?_eq_some found
    simp only [attributeNames, List.cons_append, List.mem_cons, List.mem_append, List.mem_map,
      Prod.mk.injEq, reduceCtorEq, and_false, false_or, AttributeUse.field.injEq] at member
    rcases member with (⟨g, known, rfl, rfl⟩ | ⟨entry, aliased, rfl, here⟩) | ⟨_, _, _, impossible⟩
    · exact ⟨known, same⟩
    · exact absurd here (unaliased entry aliased)
  · rintro ⟨known, same⟩
    rw [attributeUse?_of_sameName same, attributeUse?_xmlName known]

theorem Kind.attributeUse?_eq_field_iff {k : Kind} {name : String} {f : Field}
    (typed : f.type ≠ .text) :
    k.attributeUse? name = some (.field f) ↔ f ∈ k.fields ∧ sameName name f.xmlName = true := by
  apply attributeUse?_eq_field_iff_of_unaliased
  intro entry aliased here
  rw [← here] at typed
  exact typed (type_of_mem_aliases aliased)

theorem Kind.description_unaliased (k : Kind) : ∀ entry ∈ k.aliases, entry.2 ≠ .description := by
  cases k <;> decide

namespace Structure

open Xml (Element Position)

private theorem typeOfAttribute?_of_sameName {f : Field} {name : String} (typed : f.type ≠ .text)
    (same : sameName name f.xmlName = true) : typeOfAttribute? name = some f.type :=
  typeOfAttribute?_eq_some_iff.mpr ⟨f, rfl, typed, same⟩

theorem valueComplaint?_eq_none_iff {t : FieldType} {name value : String} :
    valueComplaint? t name value = none ↔ ∃ v, t.read name value = .ok v := by
  unfold valueComplaint?
  cases t.read name value with
  | ok v => simp
  | error e => cases t <;> simp

theorem attributeViolations_eq_nil_iff {position : Position}
    {attributes : List (String × String)} :
    attributeViolations position attributes = [] ↔
      ∀ a ∈ attributes, ∀ t, typeOfAttribute? a.1 = some t → ∃ v, t.read a.1 a.2 = .ok v := by
  rw [attributeViolations, List.filterMap_eq_nil_iff]
  constructor
  · intro silent a member t typed
    have here := silent a member
    rw [← valueComplaint?_eq_none_iff]
    cases complaint : valueComplaint? t a.1 a.2 with
    | none => rfl
    | some message => simp [typed, complaint] at here
  · intro readable a member
    cases typed : typeOfAttribute? a.1 with
    | none => simp [typed]
    | some t =>
        have silent := valueComplaint?_eq_none_iff.mpr (readable a member t typed)
        simp [typed, silent]

end Structure

/-- The failures by which a strict reading of a valid document goes beyond a lenient
one. -/
inductive Error.OfAttribute : Error → Prop
  | unknown (name element : String) (line : Nat) : OfAttribute (.unknownAttribute name element line)
  | version (value : String) : OfAttribute (.conversion "version" value .long)

namespace Entity

variable {k : Kind}

theorem readVersion_outcome (config : Config) (e : Entity k) (value : String) :
    (∃ next, e.readVersion config value = .ok next) ∨
      config.isStrict = true ∧
        e.readVersion config value = .error (.conversion "version" value .long) := by
  unfold readVersion
  cases parsed : Version.parse? value with
  | some version =>
      left
      simp only [bind, Except.bind]
      split <;> exact ⟨_, rfl⟩
  | none =>
      cases strict : config.isStrict with
      | true =>
          right
          exact ⟨rfl, rfl⟩
      | false =>
          left
          simp only [bind, Except.bind, Bool.false_eq_true, if_false]
          split <;> exact ⟨_, rfl⟩

/-- Attributes whose values are of their types are read, and a strict reading also fails
on unknown ones and on versions. -/
theorem readAttribute_outcome (config : Config) (place : Place) (e : Entity k)
    {name value : String}
    (valid : ∀ t, Structure.typeOfAttribute? name = some t → ∃ v, t.read name value = .ok v) :
    (∃ next, e.readAttribute config place name value = .ok next) ∨
      ∃ error, e.readAttribute config place name value = .error error ∧
        config.isStrict = true ∧ error.OfAttribute := by
  unfold readAttribute
  cases use : k.attributeUse? name with
  | none =>
      cases strict : config.isStrict with
      | true => exact .inr ⟨_, rfl, rfl, .unknown _ _ _⟩
      | false => exact .inl ⟨_, rfl⟩
  | some found =>
      cases found with
      | version =>
          rcases e.readVersion_outcome config value with ⟨next, read⟩ | ⟨strict, failed⟩
          · exact .inl ⟨next, read⟩
          · exact .inr ⟨_, failed, strict, .version value⟩
      | shorthand s => exact .inl ⟨_, rfl⟩
      | field f =>
          left
          have readable : ∃ v, f.type.read name value = .ok v := by
            by_cases typed : f.type = .text
            · rw [typed]
              exact ⟨value, rfl⟩
            · exact valid _ (Structure.typeOfAttribute?_of_sameName typed
                ((Kind.attributeUse?_eq_field_iff typed).mp use).2)
          obtain ⟨v, read⟩ := readable
          simp only [read]
          exact ⟨_, rfl⟩

end Entity

end ShoreMetadata
