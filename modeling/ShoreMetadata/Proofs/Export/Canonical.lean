import ShoreMetadata.Proofs.Export.Attribute

/-! Canonical entities: those of which everything is exported. -/

namespace ShoreMetadata

open Text
open Xml (Element)

instance : (s : Slot) → (items : List (Entity s.target)) → Decidable (s.inOrder items = items)
  | .recordVariables, (items : List (Entity .recordVariable)) =>
      decidable_of_iff (items.Pairwise (Precedes Entity.column?)) orderByColumn_eq_self_iff.symm
  | .person, _ | .headerDescription, _ | .recordDescription, _ | .dataContainerGroups, _
  | .resources, _ | .keywords, _ | .consumers, _ | .device, _ | .software, _
  | .childDataProducers, _ | .dataProducerGroups, _ | .events, _ | .outputs, _ | .deviceType, _
  | .commentTags, _ | .userGroups, _ | .standardDomain, _ | .standardKeyword, _
  | .standardReferenceScale, _ | .standardUnit, _ | .standardVariable, _ | .resourceType, _
  | .resourceBlob, _ | .standardUnits, _ => .isTrue rfl

namespace Entity

variable {k : Kind}

def description? (e : Entity k) : Option String :=
  e.get? .description

/-- An entity that its element can tell, as far as it does not depend on the entities in its
slots. -/
structure Canonical (e : Entity k) : Prop where
  values : ∀ f v, e.get? f = some v → f.type.Tellable v
  description : ∀ text, e.description? = some text → trim text = text
  required : ∀ f, k.required? = some f → (e.get? f).isSome = true
  present : (∃ f ∈ k.fields, (e.get? f).isSome = true) ∨ e.version ≠ .unknown ∨
    ∃ s ∈ k.slots, e.members s ≠ []
  distinct : ∀ s, (e.members s).Pairwise fun a b => a.same b = false
  ordered : ∀ s, s.inOrder (e.members s) = e.members s

private theorem canonical_iff {e : Entity k} : e.Canonical ↔
    (∀ f ∈ k.fields, ∀ v ∈ e.get? f, f.type.Tellable v) ∧
      (∀ text ∈ e.description?, trim text = text) ∧
      (∀ f ∈ k.required?, (e.get? f).isSome = true) ∧
      ((∃ f ∈ k.fields, (e.get? f).isSome = true) ∨ e.version ≠ .unknown ∨
        ∃ s ∈ k.slots, e.members s ≠ []) ∧
      ∀ s ∈ k.slots, (e.members s).Pairwise (fun a b => a.same b = false) ∧
        s.inOrder (e.members s) = e.members s := by
  constructor
  · intro c
    exact ⟨fun f _ v stored => c.values f v stored, c.description, c.required, c.present,
      fun s _ => ⟨c.distinct s, c.ordered s⟩⟩
  · rintro ⟨values, description, required, present, slots⟩
    have inSlot : ∀ s, (e.members s).Pairwise (fun a b => a.same b = false) ∧
        s.inOrder (e.members s) = e.members s := by
      intro s
      by_cases known : s ∈ k.slots
      · exact slots s known
      · rw [e.members_of_not_mem known]
        exact ⟨.nil, s.inOrder_nil⟩
    exact ⟨fun f v stored => values f (mem_fields_of_get? stored) v stored, description, required,
      present, fun s => (inSlot s).1, fun s => (inSlot s).2⟩

instance (e : Entity k) : Decidable e.Canonical :=
  decidable_of_iff _ canonical_iff.symm

def Follows (direction : Direction) (e : Entity k) : Prop :=
  ∀ s : Slot, s.isFollowed direction = false → e.members s = []

instance (direction : Direction) (e : Entity k) : Decidable (e.Follows direction) :=
  decidable_of_iff (∀ s ∈ k.slots, s.isFollowed direction = false → e.members s = []) <| by
    refine ⟨fun all s other => ?_, fun all s _ => all s⟩
    by_cases known : s ∈ k.slots
    · exact all s known other
    · exact e.members_of_not_mem known

/-- An entity and all entities in it are canonical, and all of them are on the side that is
followed. -/
def Complete (direction : Direction) (e : Entity k) : Prop :=
  e.Everywhere fun _ x => x.Canonical ∧ x.Follows direction

instance (direction : Direction) (e : Entity k) : Decidable (e.Complete direction) :=
  inferInstanceAs (Decidable (e.Everywhere fun _ x => x.Canonical ∧ x.Follows direction))

variable {dialect : Dialect} {direction : Direction} {e : Entity k}

theorem Canonical.dated (canonical : e.Canonical) : e.Dated :=
  fun f v stored => (canonical.values f v stored).dated

theorem Canonical.ne_empty (canonical : e.Canonical) : e ≠ .empty k := by
  rintro rfl
  rcases canonical.present with ⟨f, _, stored⟩ | version | ⟨s, _, held⟩
  · simp at stored
  · exact version rfl
  · simp at held

theorem toElement_of_required (has : ∀ f, k.required? = some f → (e.get? f).isSome = true) :
    e.toElement dialect direction = some (e.element dialect direction) := by
  rw [toElement_eq]
  cases required : k.required? with
  | none => rfl
  | some f =>
      have stored := has f required
      simp [stored]

theorem Canonical.toElement (canonical : e.Canonical) :
    e.toElement dialect direction = some (e.element dialect direction) :=
  toElement_of_required canonical.required

theorem Canonical.descriptionElement (canonical : e.Canonical) :
    e.descriptionElement =
      (e.description?.map (Element.ofText descriptionTag)).toList := by
  have nonempty : ∀ text, e.description? = some text → text ≠ "" :=
    fun text stored => canonical.values .description text stored
  have trimmed := canonical.description
  cases stored : e.description? with
  | none =>
      have absent : (e.get? .description : Option String) = none := stored
      rw [Entity.descriptionElement, absent]
      rfl
  | some text =>
      have present : (e.get? .description : Option String) = some text := stored
      have notBlank : ¬isBlankText text = true := by
        rw [isBlankText_iff_trim, trimmed text stored]
        exact nonempty text stored
      rw [Entity.descriptionElement, present]
      simp [notBlank]

end Entity

end ShoreMetadata
