import ShoreMetadata.Export.Document
import ShoreMetadata.Proofs.Export.Attribute
import ShoreMetadata.Proofs.Validation.Soundness

/-! Every document that is exported with dates in years of four digits is valid, and the
strictest reading of its text neither fails nor passes anything over. -/

namespace ShoreMetadata

open Structure
open Xml (Element)

namespace Entity

variable {k : Kind} {dialect : Dialect} {direction : Direction}

private theorem role_of_toElement {e : Entity k} {x : Element}
    (exported : e.toElement dialect direction = some x) :
    Role.ofTag? x.name = some (.entity k) := by
  rw [eq_element_of_toElement exported]
  exact e.role_tag

private theorem check_toElement (e : Entity k) : e.Everywhere (fun _ x => x.Dated) → ∀ x,
    e.toElement dialect direction = some x → check (some (.entity k)) x = [] := by
  induction e using Entity.induction with
  | @step k e ih =>
      intro dated x exported
      rw [eq_element_of_toElement exported, check_entity_eq_nil_iff, attributeViolations_eq_nil_iff]
      refine ⟨fun a member => valid_of_mem_toAttributes dated.here member, fun child member => ?_⟩
      rcases mem_children_element member with
        ⟨text, stored, _, rfl⟩ | ⟨s, slotMember, _, other, held, content, found, _, wraps⟩
      · have known : Field.description ∈ k.fields := mem_fields_of_get? stored
        refine ⟨hasTagIn_allowedTags_iff.mpr (.inl ⟨known, role_descriptionTag⟩), ?_⟩
        change check (Role.ofTag? descriptionTag) _ = []
        rw [role_descriptionTag, check_description_eq_nil_iff]
        rfl
      · have roleInside := role_of_toElement found
        have valid := ih s other held (dated.inside s other held) content found
        rcases wraps with ⟨unwrapped, rfl⟩ | ⟨w, wrapped, rfl⟩
        · refine ⟨hasTagIn_allowedTags_iff.mpr (.inr ⟨s, slotMember, ?_⟩), ?_⟩
          · rw [roleInside, Slot.role, unwrapped]
          · rw [roleInside]
            exact valid
        · have contentKind := Slot.contentKind_of_wrapper? wrapped
          have role : Role.ofTag? ((Element.ofName (w.tag dialect)).pushChild content).name =
              some (.wrapper w) := w.role_tag dialect
          refine ⟨hasTagIn_allowedTags_iff.mpr (.inr ⟨s, slotMember, ?_⟩), ?_⟩
          · rw [role, Slot.role, wrapped]
          · rw [role, check_wrapper_eq_nil_iff, contentKind]
            refine ⟨content, rfl, ?_, valid⟩
            rw [Wrapper.contentTags, contentKind]
            exact Element.hasTagIn_tags_iff.mpr roleInside

end Entity

def AnyEntity.Dated (e : AnyEntity) : Prop :=
  e.entity.Everywhere fun _ x => x.Dated

instance (e : AnyEntity) : Decidable e.Dated :=
  inferInstanceAs (Decidable (e.entity.Everywhere fun _ x => x.Dated))

variable (config : Config) {entities : List AnyEntity}

private theorem exists_of_mem_children_marshal {child : Element}
    (member : child ∈ (marshal config entities).children) :
    ∃ e ∈ entities, e.toElement config.dialect = some child := by
  obtain ⟨e, held, exported⟩ := List.mem_filterMap.mp member
  exact ⟨e, held, (Option.filter_eq_some_iff.mp exported).1⟩

theorem violations_marshal (dated : ∀ e ∈ entities, e.Dated) :
    violations (marshal config entities) = [] := by
  rw [violations_eq_nil_iff]
  refine ⟨by change Text.sameName rootTag rootTag = true; decide, fun child member => ?_⟩
  obtain ⟨e, held, exported⟩ := exists_of_mem_children_marshal config member
  exact checkTop_eq_nil_iff.mpr ⟨e.kind, Entity.role_of_toElement exported,
    e.entity.check_toElement (dated e held) child exported⟩

private theorem named_root : (marshal config entities).Named where
  tag := (by decide : Xml.isName rootTag.toList = true)
  keys := (by decide : ∀ a ∈ [("xmlns:xsi", schemaInstance),
    ("xsi:noNamespaceSchemaLocation", schemaLocation)], Xml.isAttributeName a.1.toList = true)
  distinct := (by decide : ["xmlns:xsi", "xsi:noNamespaceSchemaLocation"].Nodup)

private theorem named_description (text : String) : (Element.ofText descriptionTag text).Named where
  tag := (by decide : Xml.isName descriptionTag.toList = true)
  keys := fun _ member => by cases member
  distinct := .nil

theorem Wrapper.named (w : Wrapper) (dialect : Dialect) (content : Element) :
    ((Element.ofName (w.tag dialect)).pushChild content).Named where
  tag := by
    change Xml.isName (w.tag dialect).toList = true
    cases w <;> cases dialect <;> decide
  keys := fun _ member => by cases member
  distinct := .nil

private theorem named_marshal : (marshal config entities).Everywhere Element.Named := by
  refine .intro (named_root config) fun child member => ?_
  obtain ⟨e, _, exported⟩ := exists_of_mem_children_marshal config member
  exact Entity.everywhere_toElement (fun e _ => e.named_element)
    (fun text _ => named_description text) (fun w _ _ _ _ => w.named config.dialect _) e.entity
    (Entity.everywhere_of_forall (P := fun _ _ => True) (fun _ => trivial) e.entity) child exported

def AttributesRead (reading : Config) (x : Element) : Prop :=
  ∀ (k : Kind) (e : Entity k) (place : Place), Role.ofTag? x.name = some (.entity k) →
    ∃ next, e.readAttributes reading place x.attributes = .ok next

theorem AttributesRead.of_withTexts {reading : Config} {f : String → String} {x : Element}
    (read : AttributesRead reading (x.withTexts f)) : AttributesRead reading x := by
  simpa [AttributesRead] using read

theorem AttributesRead.withTexts {reading : Config} {f : String → String} {x : Element}
    (read : AttributesRead reading x) : AttributesRead reading (x.withTexts f) := by
  simpa [AttributesRead] using read

private theorem attributesRead_marshal (reading : Config) (dated : ∀ e ∈ entities, e.Dated)
    {child : Element} (member : child ∈ (marshal config entities).children) :
    child.Everywhere (AttributesRead reading) := by
  obtain ⟨e, held, exported⟩ := exists_of_mem_children_marshal config member
  refine Entity.everywhere_toElement (fun e dated k x place role => ?_)
    (fun text _ k x place role => ?_) (fun w _ c _ _ k x place role => ?_)
    e.entity (dated e held) child exported
  · cases e.role_tag.symm.trans role
    exact Entity.readAttributes_toAttributes reading place dated x
  · cases role_descriptionTag.symm.trans role
  · cases (w.role_tag config.dialect).symm.trans role

/-- The text of an exported document is read as the document, apart from places and blanks
around texts. -/
theorem read_serialize : ∃ root, Xml.read (serialize config entities) = .ok root ∧
    root.unplaced = (marshal config entities).settled :=
  Xml.read_write _ (named_marshal config)

private theorem exists_of_mem_children_read {root child : Element}
    (same : root.unplaced = (marshal config entities).settled) (member : child ∈ root.children) :
    ∃ original ∈ (marshal config entities).children, child.unplaced = original.settled := by
  have children : root.children.map Element.unplaced =
      (marshal config entities).children.map Element.settled := by
    have whole := congrArg Element.children same
    rw [Element.unplaced, Element.settled, Element.children_withTexts,
      Element.children_withTexts] at whole
    exact whole
  have placed : child.unplaced ∈ (marshal config entities).children.map Element.settled := by
    rw [← children]
    exact List.mem_map_of_mem member
  obtain ⟨original, held, equal⟩ := List.mem_map.mp placed
  exact ⟨original, held, equal.symm⟩

theorem readDocument_of_tree {reading : Config} {text : String} {root : Element}
    (read : Xml.read text = .ok root) : readDocument reading text = readTree reading root := by
  rw [readDocument, read]
  rfl

private theorem readDocument_serialize (reading : Config) (dated : ∀ e ∈ entities, e.Dated) :
    ∃ d, readDocument reading (serialize config entities) = .ok d := by
  obtain ⟨root, read, same⟩ := read_serialize config
  have valid : violations root = [] := by
    rw [← violations_withTexts_eq_nil_iff id root]
    change violations root.unplaced = []
    rw [same]
    exact (violations_withTexts_eq_nil_iff Text.trim _).mpr (violations_marshal config dated)
  have settling : ∀ child ∈ root.children, child.Everywhere fun x =>
      attributeViolations x.position x.attributes = [] →
        AttributesSettle reading (fun _ => False) x := by
    intro child member
    obtain ⟨original, held, equal⟩ := exists_of_mem_children_read config same member
    have everywhere := (attributesRead_marshal config reading dated held).withTexts
      (f := Text.trim) fun _ read => read.withTexts
    change original.settled.Everywhere _ at everywhere
    rw [← equal] at everywhere
    have atRoot := everywhere.of_withTexts fun _ read => read.of_withTexts
    refine atRoot.mono fun x read _ k e role => ?_
    obtain ⟨next, succeeded⟩ := read k e ⟨x.name, x.position.line⟩ role
    rw [succeeded]
    exact .ok trivial
  obtain ⟨d, built, _⟩ := (build_invert_settles valid settling).exists_ok
  exact ⟨d, by rw [readDocument_of_tree read, readTree_of_valid valid, built]⟩

/-- Exported documents are accepted. -/
theorem marshal_accepted (config : Config) {entities : List AnyEntity}
    (dated : ∀ e ∈ entities, e.Dated) :
    violations (marshal config entities) = [] ∧
      ∃ d, readDocument { config with mode := .strict, validate := true }
        (serialize config entities) = .ok d :=
  ⟨violations_marshal config dated, readDocument_serialize config _ dated⟩

theorem marshal_accepted_nested :
    let leapSecond : Calendar.Instant := ⟨1483228799, 1500000000, by decide⟩
    let container : Entity .dataContainer :=
      (((Entity.empty _).set .name (some "")).set .minLatitude (some (.nan : Number.Double))).set
        .description (some " <b> ")
    let producer : Entity .dataProducer :=
      ((Entity.empty _).set .startDate (some leapSecond)).accept .outputs container
    let entities : List AnyEntity :=
      [⟨_, producer⟩, ⟨_, container.accept .consumers producer⟩, ⟨_, .empty .keyword⟩]
    (∀ e ∈ entities, e.Dated) ∧ violations (marshal { dialect := .legacy } entities) = [] ∧
      ∃ d, readDocument { dialect := .legacy, mode := .strict, validate := true }
        (serialize { dialect := .legacy } entities) = .ok d := by
  intro leapSecond container producer entities
  have dated : ∀ e ∈ entities, e.Dated := by decide +kernel
  exact ⟨dated, marshal_accepted { dialect := .legacy } dated⟩

end ShoreMetadata
