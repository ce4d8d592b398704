import Mathlib.Data.List.Dedup
import ShoreMetadata.Proofs.Schema.Tag
import ShoreMetadata.Validation.Structure

/-! The tables that the structure of a document is checked by agree with the schema that
entities are built by. -/

namespace ShoreMetadata

open Text
open Xml (Element)

private theorem Field.nodup_attributeNames :
    (("version" :: Field.all.map Field.xmlName).map lower).Nodup := by
  decide +kernel

private theorem Field.nodup_xmlName : (Field.all.map fun f => lower f.xmlName).Nodup := by
  have all := List.Nodup.of_cons nodup_attributeNames
  rwa [List.map_map] at all

theorem Field.eq_of_sameName {f g : Field} {name : String} (first : sameName name f.xmlName = true)
    (second : sameName name g.xmlName = true) : f = g := by
  rw [sameName_iff] at first second
  exact List.inj_on_of_nodup_map nodup_xmlName (mem_all f) (mem_all g) (first.symm.trans second)

theorem Field.lower_xmlName_ne (f : Field) : lower f.xmlName ≠ lower "version" := by
  intro same
  refine (List.nodup_cons.mp nodup_attributeNames).1 ?_
  rw [← same]
  exact List.mem_map_of_mem (List.mem_map_of_mem (mem_all f))

def Slot.role (s : Slot) : Role :=
  match s.wrapper? with
  | some w => .wrapper w
  | none => .entity s.target

/-- The tags of what entities of a kind hold. A wrapper may have one tag in both dialects. -/
def Kind.childTags (k : Kind) : List String :=
  (if Field.description ∈ k.fields then [descriptionTag] else []) ++
    k.slots.flatMap fun s => s.role.tags

namespace Structure

theorem typedAttributes_perm :
    typedAttributes.Perm
      ((Field.all.filter (·.type ≠ .text)).map fun f => (lower f.xmlName, f.type)) := by
  decide +kernel

private theorem nodup_typedAttributes : (typedAttributes.map Prod.fst).Nodup := by
  decide +kernel

private theorem typeOfAttribute?_eq_some_iff_mem {name : String} {t : FieldType} :
    typeOfAttribute? name = some t ↔ (lower name, t) ∈ typedAttributes := by
  rw [typeOfAttribute?]
  constructor
  · intro found
    obtain ⟨before, after, split, _⟩ := List.lookup_eq_some_iff.mp found
    simp [split]
  · intro member
    obtain ⟨before, after, split⟩ := List.append_of_mem member
    refine List.lookup_eq_some_iff.mpr ⟨before, after, split, fun entry earlier => ?_⟩
    have distinct := nodup_typedAttributes
    rw [split, List.map_append, List.map_cons] at distinct
    have apart := List.disjoint_of_nodup_append distinct (List.mem_map_of_mem earlier)
    exact bne_iff_ne.mpr fun same => apart (by simp [same])

theorem typeOfAttribute?_eq_some_iff {name : String} {t : FieldType} :
    typeOfAttribute? name = some t ↔
      ∃ f : Field, f.type = t ∧ t ≠ .text ∧ sameName name f.xmlName = true := by
  rw [typeOfAttribute?_eq_some_iff_mem, typedAttributes_perm.mem_iff]
  simp only [List.mem_map, List.mem_filter, Prod.mk.injEq, decide_eq_true_eq, sameName_iff]
  constructor
  · rintro ⟨f, ⟨_, typed⟩, name, rfl⟩
    exact ⟨f, rfl, typed, name.symm⟩
  · rintro ⟨f, rfl, typed, name⟩
    exact ⟨f, ⟨f.mem_all, typed⟩, name.symm, rfl⟩

theorem allowedTags_perm (k : Kind) : (allowedTags k).Perm k.childTags.dedup := by
  cases k <;> decide +kernel

theorem hasTagIn_allowedTags_iff {x : Element} {k : Kind} :
    x.hasTagIn (allowedTags k) = true ↔
      (.description ∈ k.fields ∧ Role.ofTag? x.name = some .description) ∨
        ∃ s ∈ k.slots, Role.ofTag? x.name = some s.role := by
  simp only [Element.hasTagIn_iff, (allowedTags_perm k).mem_iff, List.mem_dedup, Kind.childTags,
    List.mem_append, List.mem_flatMap, Role.ofTag?_eq_some_iff]
  constructor
  · rintro ⟨tag, described | ⟨s, known, member⟩, same⟩
    · split at described
      · rename_i known
        exact .inl ⟨known, tag, described, same⟩
      · cases described
    · exact .inr ⟨s, known, tag, member, same⟩
  · rintro (⟨known, tag, member, same⟩ | ⟨s, known, tag, member, same⟩)
    · exact ⟨tag, .inl (by rwa [if_pos known]), same⟩
    · exact ⟨tag, .inr ⟨s, known, member⟩, same⟩

end Structure

end ShoreMetadata
