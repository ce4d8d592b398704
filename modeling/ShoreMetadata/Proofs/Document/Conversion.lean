import ShoreMetadata.Proofs.Document.RoundTrip
import ShoreMetadata.Proofs.Export.Told
import ShoreMetadata.Proofs.Import.FromText

/-! Converting a text and converting the outcome again. -/

namespace ShoreMetadata

open Text
open Xml (Element)

/-- What a text becomes by being read and written again. -/
def convert (reading writing : Config) (text : String) : Except Error String :=
  (readDocument reading text).result.map fun d => exportEntities writing .xml d.toList

namespace AnyEntity

def isWritten (e : AnyEntity) : Bool :=
  e.entity.isWritten e.kind.direction

def told (e : AnyEntity) : AnyEntity :=
  ⟨e.kind, e.entity.told e.kind.direction⟩

def Unambiguous (e : AnyEntity) : Prop :=
  e.entity.Everywhere fun _ x => x.Unambiguous

instance (e : AnyEntity) : Decidable e.Unambiguous :=
  inferInstanceAs (Decidable (e.entity.Everywhere fun _ x => x.Unambiguous))

theorem canonical_told {e : AnyEntity} (written : e.isWritten = true) (fromText : e.AllFromText)
    (clear : e.told.Unambiguous) : e.told.Canonical :=
  Entity.complete_told e.entity written
    (Entity.Everywhere.mono (fun _ parsed f v stored =>
      FieldType.whole_of_parse? (parsed f v stored).choose_spec) fromText) clear

theorem settled_element_told {e : AnyEntity} (clear : e.told.Unambiguous) :
    e.told.element.settled = e.element.settled :=
  Entity.settled_element_told e.entity
    (Entity.Everywhere.mono (fun _ unambiguous => unambiguous.required) clear)

private theorem topElement?_eq (e : AnyEntity) :
    topElement? .current e = if e.isWritten then some e.element else none := by
  rw [ShoreMetadata.topElement?, AnyEntity.toElement, isWritten, Entity.isWritten]
  cases exported : e.entity.toElement .current e.kind.direction with
  | none => rfl
  | some x =>
      rw [Entity.eq_element_of_toElement exported]
      change (some e.element).filter _ = if (some e.element).any _ then some e.element else none
      cases bare : e.element.isEmpty <;> simp [bare]

end AnyEntity

def tellAll (entities : List AnyEntity) : List AnyEntity :=
  (entities.filter AnyEntity.isWritten).map AnyEntity.told

variable {config : Config} {entities : List AnyEntity}

private theorem children_marshal_written (current : config.dialect = .current) :
    (marshal config entities).children =
      (entities.filter AnyEntity.isWritten).map AnyEntity.element := by
  change entities.filterMap (topElement? config.dialect) = _
  rw [current]
  induction entities with
  | nil => rfl
  | cons e rest ih =>
      rw [List.filterMap_cons, List.filter_cons, ih, e.topElement?_eq]
      cases e.isWritten <;> rfl

private theorem canonical_tellAll (fromText : ∀ e ∈ entities, AnyEntity.AllFromText e)
    (clear : ∀ e ∈ tellAll entities, e.Unambiguous) : ∀ e ∈ tellAll entities, e.Canonical := by
  intro t member
  obtain ⟨e, held, rfl⟩ := List.mem_map.mp member
  obtain ⟨inside, written⟩ := List.mem_filter.mp held
  exact AnyEntity.canonical_told written (fromText e inside) (clear _ member)

private theorem settled_marshal_tellAll (current : config.dialect = .current)
    (fromText : ∀ e ∈ entities, AnyEntity.AllFromText e)
    (clear : ∀ e ∈ tellAll entities, e.Unambiguous) :
    (marshal config (tellAll entities)).settled = (marshal config entities).settled := by
  have children : (marshal config (tellAll entities)).children.map Element.settled =
      (marshal config entities).children.map Element.settled := by
    rw [children_marshal current (canonical_tellAll fromText clear),
      children_marshal_written current, tellAll, List.map_map, List.map_map, List.map_map]
    refine List.map_congr_left fun e member => ?_
    exact AnyEntity.settled_element_told (clear _ (List.mem_map_of_mem member))
  rw [Element.ext_iff]
  refine ⟨?_, ?_, ?_, ?_, ?_⟩
  · simp [Element.settled, marshal]
  · simp [Element.settled, marshal]
  · simp only [Element.settled, Element.children_withTexts]
    exact children
  · simp [Element.settled, marshal]
  · simp [Element.settled]

private theorem serialize_tellAll (current : config.dialect = .current)
    (fromText : ∀ e ∈ entities, AnyEntity.AllFromText e)
    (clear : ∀ e ∈ tellAll entities, e.Unambiguous) :
    serialize config (tellAll entities) = serialize config entities := by
  rw [serialize, serialize, ← Xml.write_settled, settled_marshal_tellAll current fromText clear,
    Xml.write_settled]

private theorem flatMap_of_kind {α : Type} {ks : List Kind} (distinct : ks.Nodup) {k : Kind}
    (member : k ∈ ks) (f : Kind → List α) :
    (ks.flatMap fun j => if j = k then f j else []) = f k := by
  induction ks with
  | nil => cases member
  | cons j rest ih =>
      rw [List.nodup_cons] at distinct
      rw [List.flatMap_cons]
      by_cases same : j = k
      · subst same
        have others : ∀ i ∈ rest, (if i = j then f i else []) = [] := by
          intro i later
          rw [if_neg]
          rintro rfl
          exact distinct.1 later
        rw [if_pos rfl, List.flatMap_eq_nil_iff.mpr others, List.append_nil]
      · rw [if_neg same, ih distinct.2 ((List.mem_cons.mp member).resolve_left (Ne.symm same))]
        rfl

private theorem filter_kind_tellAll (d : Document) (j k : Kind) :
    (tellAll ((d.get j).map (AnyEntity.mk j))).filter (fun e => decide (e.kind = k)) =
      if j = k then tellAll ((d.get j).map (AnyEntity.mk j)) else [] := by
  have kinds : ∀ e ∈ tellAll ((d.get j).map (AnyEntity.mk j)), e.kind = j := by
    intro t member
    obtain ⟨e, held, rfl⟩ := List.mem_map.mp member
    obtain ⟨x, _, rfl⟩ := List.mem_map.mp (List.mem_filter.mp held).1
    rfl
  split
  · rename_i same
    exact List.filter_eq_self.mpr fun e member => by simp [kinds e member, same]
  · rename_i other
    exact List.filter_eq_nil_iff.mpr fun e member => by simp [kinds e member, other]

private theorem grouped_tellAll (d : Document) :
    (Kind.all.flatMap fun k => (tellAll d.toList).filter fun e => decide (e.kind = k)) =
      tellAll d.toList := by
  have split : tellAll d.toList =
      Kind.all.flatMap fun j => tellAll ((d.get j).map (AnyEntity.mk j)) := by
    rw [Document.toList_eq, tellAll, List.filter_flatMap, List.map_flatMap]
    rfl
  rw [split]
  refine List.flatMap_congr fun k member => ?_
  rw [List.filter_flatMap, List.flatMap_congr fun j _ => filter_kind_tellAll d j k]
  exact flatMap_of_kind (by decide) member _

/-- The text of a document tells it in a way that can be read back: what it tells of each entity
is unambiguous, no two of those at the top are the same, and it does not consist of one group with
members. -/
structure Document.Legible (config : Config) (d : Document) : Prop where
  unambiguous : ∀ e ∈ tellAll d.toList, e.Unambiguous
  distinct : (tellAll d.toList).Pairwise fun a b => a.same b = false
  upright : Inversion.soleGroup? (marshal config d.toList) = none

instance (config : Config) (d : Document) : Decidable (d.Legible config) :=
  decidable_of_iff ((∀ e ∈ tellAll d.toList, e.Unambiguous) ∧
      ((tellAll d.toList).Pairwise fun a b => a.same b = false) ∧
      (Inversion.soleGroup? (marshal config d.toList)).isNone = true)
    ⟨fun ⟨unambiguous, distinct, upright⟩ =>
      ⟨unambiguous, distinct, Option.isNone_iff_eq_none.mp upright⟩,
      fun ⟨unambiguous, distinct, upright⟩ =>
      ⟨unambiguous, distinct, Option.isNone_iff_eq_none.mpr upright⟩⟩

private theorem convert_of_read {reading writing : Config} {text : String} {d : Document}
    (read : (readDocument reading text).result = .ok d) :
    convert reading writing text = .ok (serialize writing d.toList) := by
  rw [convert, read]
  rfl

/-- A text that has been converted stays as it is when it is converted again. -/
theorem convert_convert (reading writing : Config) (current : writing.dialect = .current)
    {text converted : String} (done : convert reading writing text = .ok converted)
    (legible : ∀ d, (readDocument reading text).result = .ok d → d.Legible writing) :
    convert reading writing converted = .ok converted := by
  cases read : (readDocument reading text).result with
  | error error =>
      rw [convert, read] at done
      cases done
  | ok d =>
      obtain ⟨unambiguous, distinct, upright⟩ := legible d read
      have fromText := readDocument_fromText text d read
      have canonical := canonical_tellAll fromText unambiguous
      have same : serialize writing (tellAll d.toList) = converted :=
        (serialize_tellAll current fromText unambiguous).trans
          (Except.ok.inj ((convert_of_read read).symm.trans done))
      have stillUpright : Inversion.soleGroup? (marshal writing (tellAll d.toList)) = none := by
        rw [← Inversion.soleGroup?_withTexts_eq_none_iff trim]
        change Inversion.soleGroup? (marshal writing (tellAll d.toList)).settled = none
        rw [settled_marshal_tellAll current fromText unambiguous]
        exact (Inversion.soleGroup?_withTexts_eq_none_iff trim).mpr upright
      have again := readDocument_serialize_canonical writing reading current canonical stillUpright
      have kept : (Document.empty.insertAll (tellAll d.toList)).toList = tellAll d.toList :=
        (Document.toList_insertAll distinct).trans (grouped_tellAll d)
      rw [same] at again
      rw [convert_of_read (congrArg Recorded.result again), kept, same]

theorem convert_convert_blanks :
    ∃ converted,
      convert {} {} "<Metadata><Event id='1' name='' description=' b '/></Metadata>" =
        .ok converted ∧ convert {} {} converted = .ok converted := by
  have legible : (readDocument {}
      "<Metadata><Event id='1' name='' description=' b '/></Metadata>").result.toOption.any
        (fun d => decide (d.Legible {})) = true := by decide +kernel
  cases read : (readDocument {}
      "<Metadata><Event id='1' name='' description=' b '/></Metadata>").result with
  | error error =>
      rw [read] at legible
      cases legible
  | ok d =>
      rw [read] at legible
      have done : convert {} {} _ = .ok (serialize {} d.toList) := convert_of_read read
      refine ⟨_, done, convert_convert {} {} rfl done fun other same => ?_⟩
      cases read.symm.trans same
      exact of_decide_eq_true legible

/-- A text that is converted to one that is converted to yet another. -/
def Unsettled (text : String) : Prop :=
  ∃ once twice, convert {} {} text = .ok once ∧ convert {} {} once = .ok twice ∧ twice ≠ once

/-- Whether a text is read as a document whose tree is read as one with another text: this can be
computed without scanning the first conversion. -/
def changesAgain (text : String) : Bool :=
  match (readDocument {} text).result with
  | .error _ => false
  | .ok d =>
    match readTree {} (marshal {} d.toList) with
    | ⟨[], .ok again⟩ =>
      Xml.writeChars {} (marshal {} again.toList) != Xml.writeChars {} (marshal {} d.toList)
    | _ => false

private theorem unsettled_of_changesAgain {text : String} (changes : changesAgain text = true) :
    Unsettled text := by
  unfold changesAgain at changes
  split at changes
  · cases changes
  · rename_i d read
    split at changes
    · rename_i again reread
      refine ⟨_, _, convert_of_read read, convert_of_read
        (congrArg Recorded.result ((readDocument_serialize_iff {} {}).mpr reread)), ?_⟩
      intro same
      exact (bne_iff_ne.mp changes) (String.ofList_injective same)
    · cases changes

/-- Two entities that differ in an empty text only are written alike and read as one; without its
empty name a keyword is not written again; and a lone group is read as a group with members once
its description has become a child. -/
theorem convert_convert_ne :
    Unsettled "<Metadata><Event id='1' name=''/><Event id='1'/></Metadata>" ∧
      Unsettled "<Metadata><Keyword id='1' name=''/></Metadata>" ∧
      Unsettled "<Metadata><DataProducerGroup name='G' description='x'/></Metadata>" :=
  ⟨unsettled_of_changesAgain (by decide +kernel), unsettled_of_changesAgain (by decide +kernel),
    unsettled_of_changesAgain (by decide +kernel)⟩

example : (Calendar.Profile.parse? "9999-12-31T23:59:59-01:00").any (fun time =>
    (Calendar.Profile.parse? (Calendar.Profile.format time)).isNone) = true := by
  decide +kernel

end ShoreMetadata
