import ShoreMetadata.Proofs.Document.Basic
import ShoreMetadata.Proofs.Document.Inversion
import ShoreMetadata.Proofs.Export.Acceptance
import ShoreMetadata.Proofs.Import.Restoration

/-! Documents of canonical entities are read back from their text in the current dialect,
grouped by kind. -/

namespace ShoreMetadata

open Structure Text
open Xml (Element)

def AnyEntity.Canonical (e : AnyEntity) : Prop :=
  e.entity.Complete e.kind.direction

instance (e : AnyEntity) : Decidable e.Canonical :=
  inferInstanceAs (Decidable (e.entity.Complete e.kind.direction))

theorem AnyEntity.Canonical.dated {e : AnyEntity} (canonical : e.Canonical) : e.Dated :=
  Entity.Everywhere.mono (fun _ complete => complete.1.dated) canonical

def AnyEntity.element (e : AnyEntity) : Element :=
  e.entity.element .current e.kind.direction

variable {config : Config} {entities : List AnyEntity}

theorem AnyEntity.Canonical.topElement? {e : AnyEntity} (canonical : e.Canonical) :
    topElement? .current e = some e.element := by
  have inside := canonical.here.1
  have nonempty := Entity.isEmpty_element inside.conveys
    (Entity.buildElement_element {} e.entity canonical (Entity.Complete.conveys canonical))
  have exported : e.toElement .current = some e.element := inside.toElement
  rw [ShoreMetadata.topElement?, exported]
  exact Option.filter_some_pos (by simp [element, nonempty])

theorem children_marshal (current : config.dialect = .current)
    (canonical : ∀ e ∈ entities, e.Canonical) :
    (marshal config entities).children = entities.map AnyEntity.element := by
  change entities.filterMap (topElement? config.dialect) = _
  rw [current, List.filterMap_congr fun e member => (canonical e member).topElement?]
  exact congrFun (List.filterMap_eq_map (f := AnyEntity.element)) entities

private theorem buildDocument_elements (config : Config) (canonical : ∀ e ∈ entities, e.Canonical)
    (d : Document) :
    buildDocument config d (entities.map AnyEntity.element) = .ok (d.insertAll entities) := by
  induction entities generalizing d with
  | nil => rfl
  | cons e rest ih =>
      rw [List.forall_mem_cons] at canonical
      have built := Entity.buildElement_element config e.entity canonical.1
        (Entity.Complete.conveys canonical.1)
      rw [List.map_cons, buildDocument, AnyEntity.element, built, Recorded.bind_ok]
      exact ih canonical.2 (d.insert e).1

private theorem readTree_withTexts {f : String → String} (keeps : ∀ s, trim (f s) = trim s)
    (root : Element) {reading : Config} {d : Document} :
    readTree reading (root.withTexts f) = .ok d ↔ readTree reading root = .ok d := by
  have built : buildDocument reading .empty (Inversion.invert (root.withTexts f)).children = .ok d ↔
      buildDocument reading .empty (Inversion.invert root).children = .ok d := by
    rw [Inversion.children_invert_withTexts keeps]
    exact buildDocument_withTexts keeps _ _ _
  have failed : ∀ error, (Recorded.fail error : Recorded Document) ≠ .ok d := nofun
  unfold readTree
  rw [Element.hasTag_withTexts]
  split
  · simp [failed]
  · cases reading.validate with
    | false => exact built
    | true =>
        have valid := violations_withTexts_eq_nil_iff f root
        simp only [if_true, List.isEmpty_iff, valid]
        split
        · exact built
        · simp [failed]

/-- Reading the text of a document gives what reading its tree gives, as far as nothing is noted. -/
theorem readDocument_serialize_iff (config reading : Config) {entities : List AnyEntity}
    {d : Document} :
    readDocument reading (serialize config entities) = .ok d ↔
      readTree reading (marshal config entities) = .ok d := by
  have written : ∃ root, Xml.read (serialize config entities) = .ok root ∧
      root.unplaced = (marshal config entities).settled := read_serialize config
  obtain ⟨root, read, same⟩ := written
  rw [readDocument_of_tree read, ← readTree_withTexts (fun _ => rfl) root,
    ← readTree_withTexts trim_trim (marshal config entities)]
  change readTree reading root.unplaced = _ ↔ readTree reading (marshal config entities).settled = _
  rw [same]

/-- The text of canonical entities is read as a document to which they were added one by one. -/
theorem readDocument_serialize_canonical (config reading : Config) {entities : List AnyEntity}
    (current : config.dialect = .current) (canonical : ∀ e ∈ entities, e.Canonical)
    (upright : Inversion.soleGroup? (marshal config entities) = none) :
    readDocument reading (serialize config entities) = .ok (Document.empty.insertAll entities) := by
  rw [readDocument_serialize_iff, readTree_of_valid
    (violations_marshal config fun e member => (canonical e member).dated),
    Inversion.invert_of_soleGroup? upright, children_marshal current canonical]
  exact buildDocument_elements reading canonical Document.empty

/-- Nothing of a canonical document is lost. -/
theorem readDocument_serialize_grouped (config reading : Config) {entities : List AnyEntity}
    (current : config.dialect = .current) (canonical : ∀ e ∈ entities, e.Canonical)
    (distinct : entities.Pairwise fun a b => a.same b = false)
    (upright : Inversion.invert (marshal config entities) = marshal config entities) :
    ∃ d, readDocument reading (serialize config entities) = .ok d ∧
      d.toList = Kind.all.flatMap fun k => entities.filter fun e => decide (e.kind = k) := by
  refine ⟨Document.empty.insertAll entities, ?_, Document.toList_insertAll distinct⟩
  exact readDocument_serialize_canonical config reading current canonical
    (Inversion.soleGroup?_of_invert_eq_self upright)

theorem readDocument_serialize_grouped_nested :
    let column (n : Int64) (name : String) : Entity .recordVariable :=
      ((Entity.empty _).set .columnIndex (some n)).set .name (some name)
    let record : Entity .recordDescription :=
      (((Entity.empty _).accept .recordVariables (column 0 "depth")).accept .recordVariables
        (column 2 "<&>")).accept .recordVariables (column (-1) "note")
    let container : Entity .dataContainer :=
      (((Entity.empty _).set .name (some "a")).set .description (some "b  \n]]>")).accept
        .recordDescription record
    let instant : Calendar.Instant := ⟨951782400, 0, by decide⟩
    let producer : Entity .dataProducer :=
      (((Entity.empty _).set .startDate (some instant)).accept .outputs container).accept .outputs
        ((Entity.empty _).set .id (some (7 : Int64)))
    let consumed : Entity .dataContainer :=
      ((Entity.empty _).set .uriString (some " ")).accept .consumers
        (((Entity.empty _).set .name (some "c")).accept .person
          ((Entity.empty _).set .email (some "d")))
    let entities : List AnyEntity := [⟨_, producer⟩, ⟨_, consumed⟩]
    ∃ d, readDocument { mode := .strict } (serialize { pretty := false } entities) = .ok d ∧
      d.toList = [⟨_, consumed⟩, ⟨_, producer⟩] := by
  intro column record container instant producer consumed entities
  have canonical : ∀ e ∈ entities, e.Canonical := by decide +kernel
  have several : Inversion.soleGroup? (marshal { pretty := false } entities) = none :=
    Option.isNone_iff_eq_none.mp (by decide +kernel)
  exact readDocument_serialize_grouped { pretty := false } { mode := .strict } rfl canonical
    (by decide +kernel) (Inversion.invert_of_soleGroup? several)

end ShoreMetadata
