import ShoreMetadata.Proofs.Export.Element
import ShoreMetadata.Proofs.Scalar
import ShoreMetadata.Proofs.Validation.Attribute
import ShoreMetadata.Proofs.Xml.RoundTrip

/-! The attributes of an exported element: their names differ, and each is known to the
kind of the entity and has a value of its type. -/

namespace ShoreMetadata

open Structure
open Text
open Xml (Element)

private theorem Field.xmlName_injective {f g : Field} (same : f.xmlName = g.xmlName) : f = g :=
  Field.eq_of_sameName (sameName_iff.mpr rfl) (sameName_iff.mpr (by rw [same]))

private theorem Field.xmlName_ne_version (f : Field) : f.xmlName ≠ "version" := fun same =>
  f.lower_xmlName_ne (congrArg lower same)

private theorem Field.isAttributeName_xmlName (f : Field) :
    Xml.isAttributeName f.xmlName.toList = true := by
  cases f <;> decide

private theorem Structure.type_of_typeOfAttribute? {f : Field} {t : FieldType}
    (typed : typeOfAttribute? f.xmlName = some t) : t = f.type := by
  obtain ⟨g, rfl, _, same⟩ := typeOfAttribute?_eq_some_iff.mp typed
  rw [Field.eq_of_sameName same (sameName_iff.mpr rfl)]

private theorem Structure.typeOfAttribute?_version : typeOfAttribute? "version" = none := by
  decide +kernel

namespace Entity

variable {k : Kind} {dialect : Dialect}

def Dated (e : Entity k) : Prop :=
  ∀ f v, e.get? f = some v → f.type.Dated v

instance (e : Entity k) : Decidable e.Dated :=
  decidable_of_iff (∀ f ∈ k.fields, ∀ v ∈ e.get? f, f.type.Dated v)
    ⟨fun all f v stored => all f (mem_fields_of_get? stored) v stored,
      fun dated f _ v stored => dated f v stored⟩

theorem valid_of_mem_toAttributes {e : Entity k} (dated : e.Dated) {a : String × String}
    (member : a ∈ e.toAttributes dialect) :
    ∀ t, typeOfAttribute? a.1 = some t → ∃ v, t.read a.1 a.2 = .ok v := by
  intro t typed
  rcases mem_toAttributes member with ⟨f, v, stored, text, written, rfl⟩ | ⟨known, rfl⟩
  · rw [type_of_typeOfAttribute? typed]
    obtain ⟨w, parsed, _⟩ := FieldType.parse?_text? (dated f v stored) written
    exact ⟨w, FieldType.read_of_parse? _ parsed⟩
  · rw [typeOfAttribute?_version] at typed
    cases typed

theorem readVersion_integerText (config : Config) (e : Entity k) {version : Version}
    (known : version ≠ .unknown) :
    e.readVersion config (Number.integerText version.toInt) = .ok (e.setVersion version) := by
  rw [readVersion, Version.parse?_integerText]
  simp only [bind, Except.bind, known, false_and, and_false, if_false]
  rfl

private theorem readAttribute_of_mem_toAttributes (config : Config) (place : Place) {e : Entity k}
    (dated : e.Dated) {a : String × String} (member : a ∈ e.toAttributes dialect) (x : Entity k) :
    ∃ next, x.readAttribute config place a.1 a.2 = .ok next := by
  rcases mem_toAttributes member with ⟨f, v, stored, text, written, rfl⟩ | ⟨known, rfl⟩
  · obtain ⟨w, parsed, _⟩ := FieldType.parse?_text? (dated f v stored) written
    rw [readAttribute, Kind.attributeUse?_xmlName (mem_fields_of_get? stored)]
    simp only [FieldType.read_of_parse? _ parsed]
    exact ⟨_, rfl⟩
  · rw [readAttribute, k.attributeUse?_version]
    exact ⟨_, x.readVersion_integerText config known⟩

theorem readAttributes_toAttributes (config : Config) (place : Place) {e : Entity k}
    (dated : e.Dated) (x : Entity k) :
    ∃ next, x.readAttributes config place (e.toAttributes dialect) = .ok next := by
  have readable := fun a (member : a ∈ e.toAttributes dialect) =>
    readAttribute_of_mem_toAttributes config place dated member
  generalize e.toAttributes dialect = attributes at readable
  induction attributes generalizing x with
  | nil => exact ⟨x, rfl⟩
  | cons a rest ih =>
      rw [List.forall_mem_cons] at readable
      obtain ⟨next, read⟩ := readable.1 x
      obtain ⟨last, readRest⟩ := ih next readable.2
      exact ⟨last, by rw [Entity.readAttributes, read]; exact readRest⟩

private theorem keys_toAttributes_values {fs : List Field} (values : Values fs) (p : Field → Bool) :
    ((values.toAttributes p).map Prod.fst).Sublist ((fs.filter p).map Field.xmlName) := by
  have fields := values.fields_entries_sublist.filter p
  rw [Values.toAttributes, Values.mapPresent_eq_map]
  refine .trans ?_ (fields.map Field.xmlName)
  induction values.entries with
  | nil => exact .slnil
  | cons entry rest ih =>
      by_cases kept : p entry.1 = true
      · cases written : entry.1.type.text? entry.2 with
        | none => simpa [kept, written] using ih.cons _
        | some text => simpa [kept, written] using ih
      · simpa [kept] using ih

private theorem exists_field_of_key {fs : List Field} {values : Values fs} {p : Field → Bool}
    {key : String} (member : key ∈ (values.toAttributes p).map Prod.fst) :
    ∃ f, p f = true ∧ key = f.xmlName := by
  obtain ⟨f, kept, rfl⟩ :=
    List.mem_map.mp ((keys_toAttributes_values values p).subset member)
  exact ⟨f, (List.mem_filter.mp kept).2, rfl⟩

private theorem nodup_keys_of_values (e : Entity k) (p : Field → Bool) :
    ((e.values.toAttributes p).map Prod.fst).Nodup :=
  (keys_toAttributes_values e.values p).nodup
    ((k.nodup_fields.filter p).map fun _ _ => Field.xmlName_injective)

private theorem keys_versionAttribute (version : Version) :
    (versionAttribute version).map Prod.fst = [] ∨
      (versionAttribute version).map Prod.fst = ["version"] := by
  unfold versionAttribute
  split
  · exact .inl rfl
  · exact .inr rfl

theorem nodup_keys_toAttributes (e : Entity k) :
    ((e.toAttributes dialect).map Prod.fst).Nodup := by
  have before := e.nodup_keys_of_values fun f => f.isAttribute dialect && k.precedesVersion f
  have after := e.nodup_keys_of_values fun f => f.isAttribute dialect && !k.precedesVersion f
  rw [toAttributes, List.map_append, List.map_append, List.append_assoc, List.nodup_append,
    List.nodup_append]
  refine ⟨before, ⟨?_, after, ?_⟩, ?_⟩
  · rcases keys_versionAttribute e.version with none | one
    · simp [none]
    · simp [one]
  · intro key member other otherMember same
    obtain ⟨f, _, rfl⟩ := exists_field_of_key otherMember
    rcases keys_versionAttribute e.version with none | one
    · rw [none] at member
      cases member
    · rw [one, List.mem_singleton] at member
      exact f.xmlName_ne_version (same.symm.trans member)
  · intro key member other otherMember same
    obtain ⟨f, kept, rfl⟩ := exists_field_of_key member
    rcases List.mem_append.mp otherMember with otherMember | otherMember
    · rcases keys_versionAttribute e.version with none | one
      · rw [none] at otherMember
        cases otherMember
      · rw [one, List.mem_singleton] at otherMember
        exact f.xmlName_ne_version (same.trans otherMember)
    · obtain ⟨g, otherKept, rfl⟩ := exists_field_of_key otherMember
      cases Field.xmlName_injective same
      simp only [Bool.and_eq_true, Bool.not_eq_true'] at kept otherKept
      rw [kept.2] at otherKept
      cases otherKept.2

private theorem named_attributes {e : Entity k} {a : String × String}
    (member : a ∈ e.toAttributes dialect) :
    Xml.isAttributeName a.1.toList = true := by
  rcases mem_toAttributes member with ⟨f, v, stored, text, written, rfl⟩ | ⟨_, rfl⟩
  · exact f.isAttributeName_xmlName
  · exact (by decide : Xml.isAttributeName "version".toList = true)

private theorem named_tag (e : Entity k) : Xml.isName (e.tag dialect).toList = true := by
  have all : ∀ k, ∀ tag ∈ Kind.acceptedTags k, Xml.isName tag.toList = true := by
    intro k
    cases k <;> decide
  exact all k _ e.tag_mem_acceptedTags

theorem named_element {direction : Direction} (e : Entity k) :
    (e.element dialect direction).Named where
  tag := e.named_tag
  keys := fun _ member => named_attributes member
  distinct := e.nodup_keys_toAttributes

end Entity

end ShoreMetadata
