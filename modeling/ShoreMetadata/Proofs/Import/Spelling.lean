import ShoreMetadata.Proofs.Import.Alike
import ShoreMetadata.Proofs.Validation.Alike

/-! The case of the letters of tags and of attribute names does not matter, unless an element has
two attributes whose names differ in nothing else. -/

namespace ShoreMetadata

open Recorded (Agree)
open Structure (violations)
open Text
open Xml (Element)

namespace Xml.Element

/-- Elements that differ only in the case of letters of their tags and attribute names. -/
structure SameButCase (x y : Element) : Prop where
  name : sameName x.name y.name = true
  attributes : List.Forall₂ (fun a b => sameName a.1 b.1 = true ∧ a.2 = b.2)
    x.attributes y.attributes
  text : x.text = y.text
  position : x.position = y.position

def Recased : Element → Element → Prop :=
  Along SameButCase

/-- No two attributes have the same name, whatever the case of its letters. -/
def NamesDistinct (x : Element) : Prop :=
  (x.attributes.map fun a : String × String => lower a.1).Nodup

instance : DecidablePred NamesDistinct :=
  fun x => List.nodupDecidable (x.attributes.map fun a : String × String => lower a.1)

variable {x y : Element}

theorem SameButCase.role (same : x.SameButCase y) : Role.ofTag? x.name = Role.ofTag? y.name :=
  Role.ofTag?_of_sameName same.name

private theorem SameButCase.attributesAlike (same : x.SameButCase y) (k : Kind) :
    List.Forall₂ k.AttributesAlike x.attributes y.attributes :=
  same.attributes.imp fun _ _ alike => k.attributesAlike_of_sameName alike.1 alike.2

private theorem SameButCase.namesDistinct (same : x.SameButCase y) (distinct : x.NamesDistinct) :
    y.NamesDistinct := by
  have spelled : x.attributes.map (fun a => lower a.1) = y.attributes.map fun a => lower a.1 := by
    have pairs := same.attributes
    generalize x.attributes = first at pairs ⊢
    generalize y.attributes = second at pairs ⊢
    induction pairs with
    | nil => rfl
    | cons here _ ih => rw [List.map_cons, List.map_cons, ih, sameName_iff.mp here.1]
  rw [NamesDistinct] at distinct ⊢
  rwa [← spelled]

private theorem readAs?_setAttribute_description (distinct : x.NamesDistinct) (text : String)
    (config : Config) :
    (x.setAttribute descriptionTag text).readAs? config .dataProducerGroup =
      (x.readAs? config .dataProducerGroup).map (·.set .description (some text)) := by
  rw [readAs?, readAs?, ← Except.toOption_map]
  exact congrArg Except.toOption
    (Entity.readAttributes_setIn config _ _ (by decide) distinct text)

theorem SameButCase.readAs? (same : x.SameButCase y) (config : Config) (k : Kind) :
    x.readAs? config k = y.readAs? config k := by
  rw [Element.readAs?, Element.readAs?, Entity.ofTag_of_sameName k same.name]
  exact Entity.toOption_readAttributes _ _ _ (same.attributesAlike k)

theorem SameButCase.readsAlike (same : x.SameButCase y) (distinct : x.NamesDistinct) :
    x.ReadsAlike y where
  role := same.role
  text := congrArg trim same.text
  attributes := fun k _ config => same.readAs? config k
  described := by
    intro _ text config
    rw [readAs?_setAttribute_description distinct,
      readAs?_setAttribute_description (same.namesDistinct distinct), same.readAs?]

private theorem SameButCase.checksAlike (same : x.SameButCase y) : x.ChecksAlike y where
  role := same.role
  position := same.position
  attributes := by
    intro k _
    rw [same.position]
    exact Structure.positions_attributeViolations_of_alike (same.attributesAlike k) y.position

end Xml.Element

/-- Trees that differ only in the case of letters give the same document with equally many
problems, or both fail, and their violations lie at the same places. -/
theorem readTree_recased (config : Config) {x y : Element}
    (distinct : x.Everywhere Element.NamesDistinct) (recased : x.Recased y) :
    Agree Eq (readTree config x) (readTree config y) ∧
      (violations x).map Violation.position = (violations y).map Violation.position := by
  have named : x.hasTag rootTag = y.hasTag rootTag := by
    rw [Element.hasTag, Element.hasTag, sameName_congr recased.here.name]
  have readAlike : x.Along Element.ReadsAlike y :=
    recased.mono (fun _ _ distinct same => same.readsAlike distinct) distinct
  have checkedAlike : x.Along Element.ChecksAlike y :=
    recased.mono (fun _ _ _ same => same.checksAlike) distinct
  have places := Structure.positions_violations named recased.here.position checkedAlike.inside
  exact ⟨readTree_alike named readAlike.inside places, places⟩

theorem readTree_recased_group :
    let x : Element := ⟨"metadata", [],
      [⟨"DataProducerGroup", [("name", "G"), ("Description", "a")],
        [.ofText "description" "b",
          ⟨"Deployment", [("NAME", "M1")], [.ofName "sensor"], "", .none⟩], "", .none⟩],
      "", .none⟩
    let y : Element := ⟨"METADATA", [],
      [⟨"dataproducergroup", [("Name", "G"), ("description", "a")],
        [.ofText "Description" "b",
          ⟨"deployment", [("name", "M1")], [.ofName "Sensor"], "", .none⟩], "", .none⟩],
      "", .none⟩
    x.Everywhere Element.NamesDistinct ∧ x.Recased y ∧
      (readTree {} x).result.isOk = true ∧ (readTree {} x).problems.length = 1 ∧
      Agree Eq (readTree {} x) (readTree {} y) ∧
      (violations x).map Violation.position = (violations y).map Violation.position := by
  intro x y
  have distinct : x.Everywhere Element.NamesDistinct := by decide +kernel
  have recased : x.Recased y := by
    refine .intro ⟨by decide, .nil, rfl, rfl⟩ (.cons (.intro ⟨by decide, ?_, rfl, rfl⟩ ?_) .nil)
    · exact .cons ⟨by decide, rfl⟩ (.cons ⟨by decide, rfl⟩ .nil)
    · refine .cons (.intro ⟨by decide, .nil, rfl, rfl⟩ .nil) (.cons (.intro ?_ ?_) .nil)
      · exact ⟨by decide, .cons ⟨by decide, rfl⟩ .nil, rfl, rfl⟩
      · exact .cons (.intro ⟨by decide, .nil, rfl, rfl⟩ .nil) .nil
  exact ⟨distinct, recased, by decide +kernel, by decide +kernel,
    readTree_recased {} distinct recased⟩

end ShoreMetadata
