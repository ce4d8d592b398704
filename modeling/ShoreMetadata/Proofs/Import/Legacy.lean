import ShoreMetadata.Proofs.Import.Restoration

/-! The legacy dialect tells the type of a container or a producer by its tag, and has no place
for some relations. An entity that does without them is built again from its legacy element. -/

namespace ShoreMetadata

def ContainerType.unwritten : ContainerType → List Slot
  | .file => [.keywords, .dataContainerGroups]
  | .stream => [.keywords, .dataContainerGroups, .headerDescription]

def ProducerType.unwritten : ProducerType → List Slot
  | .deployment => [.keywords, .dataProducerGroups, .software]
  | .processRun => [.keywords, .dataProducerGroups, .device, .childDataProducers]

theorem ContainerType.written (type : ContainerType) : ∀ s ∈ Kind.dataContainer.slots,
    s ∉ type.unwritten → Part.slot s ∈ legacyContainerParts (some type) := by
  cases type <;> decide

theorem ProducerType.written (type : ProducerType) : ∀ s ∈ Kind.dataProducer.slots,
    s ∉ type.unwritten → Part.slot s ∈ legacyProducerParts (some type) := by
  cases type <;> decide

private theorem ContainerType.ofTag?_tag (type : ContainerType) :
    ofTag? (tag (some type) .legacy) = some type := by
  cases type <;> decide

private theorem ProducerType.ofTag?_tag (type : ProducerType) :
    ofTag? (tag (some type) .legacy) = some type := by
  cases type <;> decide

namespace Entity

variable {k : Kind}

def containerType? (e : Entity k) : Option ContainerType :=
  e.get? .dataContainerType

def producerType? (e : Entity k) : Option ProducerType :=
  e.get? .dataProducerType

def Identified (e : Entity k) : Prop :=
  (e.get? .id).isSome = true ∨ (e.get? .name).isSome = true

instance (e : Entity k) : Decidable e.Identified :=
  inferInstanceAs (Decidable (_ ∨ _))

/-- Containers and producers have a type and an id or a name, and nothing stands in the slots
that are left out for their type. -/
def LegacyRepresentable : {k : Kind} → Entity k → Prop
  | .dataContainer, e =>
    ∃ type ∈ e.containerType?, e.Identified ∧ ∀ s ∈ type.unwritten, e.members s = []
  | .dataProducer, e =>
    ∃ type ∈ e.producerType?, e.Identified ∧ ∀ s ∈ type.unwritten, e.members s = []
  | _, _ => True

instance : {k : Kind} → (e : Entity k) → Decidable e.LegacyRepresentable
  | .dataContainer, e => inferInstanceAs (Decidable
      (∃ type ∈ e.containerType?, e.Identified ∧ ∀ s ∈ type.unwritten, e.members s = []))
  | .dataProducer, e => inferInstanceAs (Decidable
      (∃ type ∈ e.producerType?, e.Identified ∧ ∀ s ∈ type.unwritten, e.members s = []))
  | .commentTag, _ | .dataContainerGroup, _ | .dataProducerGroup, _ | .device, _ | .deviceType, _
  | .event, _ | .headerDescription, _ | .keyword, _ | .person, _ | .recordDescription, _
  | .recordVariable, _ | .resource, _ | .resourceBlob, _ | .resourceType, _ | .software, _
  | .standardDomain, _ | .standardKeyword, _ | .standardReferenceScale, _ | .standardUnit, _
  | .standardVariable, _ | .userGroup, _ => .isTrue trivial

private theorem untold_of_legacy {f : Field} (known : f ∈ k.fields)
    (untold : f.isAttribute .legacy = false) (other : f ≠ .description) :
    (k = .dataContainer ∧ f = .dataContainerType) ∨
      (k = .dataProducer ∧ f = .dataProducerType) := by
  cases f <;> first | cases untold; done | exact absurd rfl other | skip
  · cases k <;> first | exact .inl ⟨rfl, rfl⟩ | exact absurd known (by decide)
  · cases k <;> first | exact .inr ⟨rfl, rfl⟩ | exact absurd known (by decide)

private theorem untagged_of_legacy (tag : String) {f : Field}
    (told : f.isAttribute .legacy = true) : (ofTag k tag).get? f = none := by
  apply get?_ofTag_of_ne
  · rintro rfl
    cases told
  · rintro rfl
    cases told

private theorem ne_ofTag_of_identified {e : Entity k} (tag : String)
    (identified : e.Identified) : e ≠ ofTag k tag := by
  rintro rfl
  have noId : (ofTag k tag).get? .id = none := get?_ofTag_of_ne tag (by decide) (by decide)
  have noName : (ofTag k tag).get? .name = none := get?_ofTag_of_ne tag (by decide) (by decide)
  rcases identified with hasId | hasName
  · rw [noId] at hasId
    cases hasId
  · rw [noName] at hasName
    cases hasName

private theorem mem_slots_of_members {e : Entity k} {s : Slot} (held : e.members s ≠ []) :
    s ∈ k.slots :=
  Decidable.byContradiction fun missing => held (e.members_of_not_mem missing)

private theorem conveys_of_container {e : Entity .dataContainer} (legacy : e.LegacyRepresentable) :
    e.Conveys .legacy := by
  obtain ⟨type, typed, identified, vacant⟩ := legacy
  have typed : e.get? .dataContainerType = some type := typed
  refine ⟨fun f known untold other => ?_, fun f => untagged_of_legacy _, fun s held => ?_,
    ne_ofTag_of_identified _ identified⟩
  · rcases untold_of_legacy known untold other with ⟨_, rfl⟩ | ⟨impossible, _⟩
    · have told : ContainerType.ofTag? (e.tag .legacy) = some type := by
        rw [tag, typed]
        exact type.ofTag?_tag
      rw [typed, ← told]
      exact (get?_set_of_ne _ (by decide) _).trans (get?_set_same _ (by decide) _)
    · cases impossible
  · rw [parts, if_pos rfl, typed]
    exact type.written s (mem_slots_of_members held) fun left => held (vacant s left)

private theorem conveys_of_producer {e : Entity .dataProducer} (legacy : e.LegacyRepresentable) :
    e.Conveys .legacy := by
  obtain ⟨type, typed, identified, vacant⟩ := legacy
  have typed : e.get? .dataProducerType = some type := typed
  refine ⟨fun f known untold other => ?_, fun f => untagged_of_legacy _, fun s held => ?_,
    ne_ofTag_of_identified _ identified⟩
  · rcases untold_of_legacy known untold other with ⟨impossible, _⟩ | ⟨_, rfl⟩
    · cases impossible
    · have told : ProducerType.ofTag? (e.tag .legacy) = some type := by
        rw [tag, typed]
        exact type.ofTag?_tag
      rw [typed, ← told]
      exact get?_set_same _ (by decide) _
  · rw [parts, if_pos rfl, typed]
    exact type.written s (mem_slots_of_members held) fun left => held (vacant s left)

private theorem conveys_of_other {e : Entity k} (container : k ≠ .dataContainer)
    (producer : k ≠ .dataProducer) (canonical : e.Canonical) : e.Conveys .legacy := by
  have sameTag : e.tag .legacy = e.tag .current := by
    cases k <;> first | rfl | exact absurd rfl container | exact absurd rfl producer
  have sameParts : e.parts .legacy = e.parts .current := by
    cases k <;> first | rfl | exact absurd rfl container | exact absurd rfl producer
  refine ⟨fun f known untold other => ?_, fun f => untagged_of_legacy _, fun s held => ?_, ?_⟩
  · rcases untold_of_legacy known untold other with ⟨isContainer, _⟩ | ⟨isProducer, _⟩
    · exact absurd isContainer container
    · exact absurd isProducer producer
  · rw [sameParts]
    exact canonical.conveys.written s held
  · rw [sameTag]
    exact canonical.conveys.nonempty

private theorem Canonical.conveys_legacy {e : Entity k} (canonical : e.Canonical)
    (legacy : e.LegacyRepresentable) : e.Conveys .legacy := by
  by_cases container : k = .dataContainer
  · subst container
    exact conveys_of_container legacy
  · by_cases producer : k = .dataProducer
    · subst producer
      exact conveys_of_producer legacy
    · exact conveys_of_other container producer canonical

private theorem Complete.conveys_legacy {direction : Direction} {e : Entity k}
    (complete : e.Complete direction) (legacy : e.Everywhere fun _ x => x.LegacyRepresentable) :
    e.Everywhere fun _ x => x.Conveys .legacy :=
  (Everywhere.both complete legacy).mono fun _ both => both.1.1.conveys_legacy both.2

end Entity

/-- In every mode of reading the legacy element of an entity is built into the entity again, and
nothing is noted on the way. -/
theorem AnyEntity.buildElement_legacy (config : Config) {e : AnyEntity}
    (canonical : e.entity.Complete e.kind.direction)
    (legacy : e.entity.Everywhere fun _ x => x.LegacyRepresentable) :
    ∃ x, e.toElement .legacy = some x ∧ buildElement config x = .ok (some e) :=
  ⟨e.entity.element .legacy e.kind.direction, canonical.here.1.toElement,
    Entity.buildElement_element config e.entity canonical (canonical.conveys_legacy legacy)⟩

theorem AnyEntity.buildElement_legacy_nested :
    let header : Entity .headerDescription :=
      ((Entity.empty _).set .byteOffset (some (0 : Int64))).accept .commentTags
        ((Entity.empty _).set .tagString (some "a"))
    let file : Entity .dataContainer :=
      (((Entity.empty _).set .dataContainerType (some ContainerType.file)).set .id
        (some (1 : Int64))).accept .headerDescription header
    let stream : Entity .dataContainer :=
      (((Entity.empty _).set .dataContainerType (some ContainerType.stream)).set .name
        (some "<s>")).set .description (some "b c")
    let run : Entity .dataProducer :=
      (((Entity.empty _).set .dataProducerType (some ProducerType.processRun)).set .name
        (some "r")).accept .outputs stream
    let deployment : Entity .dataProducer :=
      (((((Entity.empty _).set .dataProducerType (some ProducerType.deployment)).set .id
        (some (-3 : Int64))).accept .childDataProducers run).accept .outputs file).accept .outputs
          stream
    ∃ x, AnyEntity.toElement .legacy ⟨_, deployment⟩ = some x ∧
      buildElement { mode := .strict } x = .ok (some ⟨_, deployment⟩) := by
  intro header file stream run deployment
  exact buildElement_legacy { mode := .strict } (e := ⟨_, deployment⟩) (by decide +kernel)
    (by decide +kernel)

end ShoreMetadata
