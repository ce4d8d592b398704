import ShoreMetadata.Import.Session
import ShoreMetadata.Proofs.Import.Recorded
import ShoreMetadata.Proofs.Validation.Structure

/-! A document without violations can be built: a lenient reading passes nothing over
and does not fail, and a strict one fails at most on an attribute that no kind of
violation is about. -/

namespace ShoreMetadata

open Text
open Xml (Element)
open Structure

namespace Entity

variable {k : Kind}

private theorem adopt_of_fits (config : Config) (place : Place) (e : Entity k) {child : Child}
    {s : Slot} (member : s ∈ k.slots) (fit : fits child s = true) :
    ∃ next, e.adopt config place child = .ok next := by
  cases found : k.slots.find? (fits child) with
  | none =>
      have missing := List.find?_eq_none.mp found s member
      exact absurd fit missing
  | some slot =>
      have slotFits := List.find?_some found
      simp only [fits, Bool.and_eq_true, decide_eq_true_eq] at slotFits
      have adopted : ∃ next, e.adopt? child = some next := by
        simp [adopt?, found, AnyEntity.as?, slotFits.1.symm]
      obtain ⟨next, adopted⟩ := adopted
      exact ⟨next, by rw [adopt, adopted]⟩

private theorem adoptAll_of_fits (config : Config) (place : Place) (e : Entity k)
    {children : List Child} (fit : ∀ child ∈ children, ∃ s ∈ k.slots, fits child s = true) :
    ∃ next, e.adoptAll config place children = .ok next := by
  induction children generalizing e with
  | nil => exact ⟨e, rfl⟩
  | cons child rest ih =>
      obtain ⟨s, member, fitsHere⟩ := fit child (by simp)
      obtain ⟨next, adopted⟩ := e.adopt_of_fits config place member fitsHere
      obtain ⟨last, adoptedRest⟩ := ih next fun child member => fit child (by simp [member])
      refine ⟨last, ?_⟩
      rw [adoptAll, adopted, Recorded.bind_ok, adoptedRest]

private theorem readAttributes_outcome (config : Config) (place : Place) (e : Entity k)
    {attributes : List (String × String)} (valid : ∀ a ∈ attributes, ∀ t,
      typeOfAttribute? a.1 = some t → ∃ v, t.read a.1 a.2 = .ok v) :
    (∃ next, e.readAttributes config place attributes = .ok next) ∨
      ∃ error, e.readAttributes config place attributes = .error error ∧
        config.isStrict = true ∧ error.OfAttribute := by
  induction attributes generalizing e with
  | nil => exact .inl ⟨e, rfl⟩
  | cons a rest ih =>
      obtain ⟨name, value⟩ := a
      rcases e.readAttribute_outcome config place (valid (name, value) (by simp)) with
        ⟨next, read⟩ | ⟨error, failed, strict⟩
      · have more := ih next fun a member => valid a (by simp [member])
        rw [readAttributes, read]
        exact more
      · right
        refine ⟨error, ?_, strict⟩
        rw [readAttributes, failed]
        rfl

end Entity

/-- The attributes of an element are read by an entity of its kind, or the failure is
allowed. -/
def AttributesSettle (config : Config) (allowed : Error → Prop) (x : Element) : Prop :=
  ∀ (k : Kind) (e : Entity k), Role.ofTag? x.name = some (.entity k) →
    Recorded.Settles allowed (fun _ => True)
      (.ofExcept (e.readAttributes config ⟨x.name, x.position.line⟩ x.attributes))

private theorem attributesSettle_of_valid (config : Config) {x : Element}
    (valid : attributeViolations x.position x.attributes = []) :
    AttributesSettle config (fun error => config.isStrict = true ∧ error.OfAttribute) x := by
  intro k e _
  rcases e.readAttributes_outcome config ⟨x.name, x.position.line⟩
    (attributeViolations_eq_nil_iff.mp valid) with ⟨next, read⟩ | ⟨error, failed, allowed⟩
  · rw [read]
    exact .ok trivial
  · rw [failed]
    exact .fail allowed

/-- In the role it has where it stands, an element without violations is built. -/
def Buildable (config : Config) (allowed : Error → Prop) (x : Element) : Prop :=
  ∀ (role : Role) (k : Kind), Role.ofTag? x.name = some role → role.kind? = some k →
    check (some role) x = [] →
    Recorded.Settles allowed (fun built => ∃ e : Entity k, built = some ⟨k, e⟩)
      (buildElement config x)

section

variable {config : Config} {allowed : Error → Prop}

private theorem exists_slot_of_allowed {k : Kind} {child : Element}
    (allowedHere : child.hasTagIn (allowedTags k) = true)
    (noDescription : child.hasTag descriptionTag = false) :
    ∃ s ∈ k.slots, ∃ role, Role.ofTag? child.name = some role ∧ role.kind? = some s.target ∧
      role.wrapper? = s.wrapper? := by
  rcases hasTagIn_allowedTags_iff.mp allowedHere with ⟨_, described⟩ | ⟨s, slotMember, role⟩
  · rw [Element.hasTag_description_iff.mpr described] at noDescription
    contradiction
  · refine ⟨s, slotMember, s.role, role, ?_⟩
    cases s <;> exact ⟨rfl, rfl⟩

private theorem buildChildren_settles {k : Kind} {children : List Element}
    (buildable : ∀ child ∈ children, Buildable config allowed child)
    (valid : ∀ child ∈ children, child.hasTagIn (allowedTags k) = true ∧
      check (Role.ofTag? child.name) child = []) :
    Recorded.Settles allowed
      (fun offspring => ∀ child ∈ offspring.children, ∃ s ∈ k.slots, Entity.fits child s = true)
      (buildChildren config children) := by
  induction children with
  | nil => exact .ok (by simp)
  | cons child rest ih =>
      obtain ⟨⟨allowedHere, childValid⟩, restValid⟩ := List.forall_mem_cons.mp valid
      have settlesRest := ih (fun child member => buildable child (by simp [member])) restValid
      rw [buildChildren]
      cases described : child.hasTag descriptionTag with
      | true =>
          simp only [if_true]
          exact settlesRest.bind fun offspring fits => .ok fits
      | false =>
          simp only [Bool.false_eq_true, if_false]
          obtain ⟨s, slotMember, role, roleHere, kind, wrapper⟩ :=
            exists_slot_of_allowed allowedHere described
          rw [roleHere] at childValid
          refine (buildable child (by simp) role s.target roleHere kind childValid).bind ?_
          rintro built ⟨e, rfl⟩
          refine settlesRest.bind fun offspring fits => .ok ?_
          intro other member
          rcases List.mem_cons.mp member with rfl | member
          · exact ⟨s, slotMember, by simp [Entity.fits, roleHere, wrapper]⟩
          · exact fits other member

private theorem buildable {x : Element} (settling : x.Everywhere fun x =>
      attributeViolations x.position x.attributes = [] → AttributesSettle config allowed x) :
    Buildable config allowed x := by
  induction settling with
  | @intro x here inside ih =>
      intro role k roleHere kind valid
      obtain ⟨name, attributes, children, text, position⟩ := x
      simp only at roleHere here ih
      cases role with
      | entity k =>
          cases kind
          rw [check_entity_eq_nil_iff] at valid
          rw [buildElement]
          simp only [roleHere]
          refine (here valid.1 k _ roleHere).bind fun e _ => ?_
          refine (buildChildren_settles ih valid.2).bind fun offspring fits => ?_
          obtain ⟨last, adopted⟩ :=
            (e.describe offspring.description).adoptAll_of_fits config ⟨name, position.line⟩ fits
          rw [adopted]
          exact .ok ⟨last, rfl⟩
      | wrapper w =>
          cases kind
          rw [buildElement]
          simp only [roleHere]
          obtain ⟨content, only, fit, contentValid⟩ := check_wrapper_eq_nil_iff.mp valid
          cases only
          rw [buildContent, if_pos fit]
          have roleInside : Role.ofTag? content.name = some (.entity w.contentKind) :=
            Element.hasTagIn_tags_iff.mp fit
          exact ih content (by simp) _ _ roleInside rfl contentValid
      | description => cases kind

private theorem role_of_mem_group {group child : Element}
    (valid : check (some (.entity .dataProducerGroup)) group = [])
    (member : child ∈ group.children) :
    Role.ofTag? child.name = some .description := by
  have allowedHere := ((check_entity_eq_nil_iff.mp valid).2 child member).1
  have tags : allowedTags .dataProducerGroup = [descriptionTag] := rfl
  rw [tags] at allowedHere
  exact Element.hasTag_description_iff.mp (by simpa [Element.hasTagIn] using allowedHere)

/-- Valid groups of producers hold none, so that turning a document inside out leaves
only elements that were at its top. -/
theorem mem_children_of_mem_invert {root child : Element} (valid : violations root = [])
    (member : child ∈ (Inversion.invert root).children) : child ∈ root.children := by
  unfold Inversion.invert Inversion.invert? Inversion.soleGroup? at member
  split at member
  · rename_i group only
    split at member
    · rename_i isGroup
      rw [Bool.and_eq_true] at isGroup
      have roleHere : Role.ofTag? group.name = some (.entity .dataProducerGroup) :=
        Role.ofTag?_eq_some_iff.mpr ⟨_, List.mem_singleton_self _, isGroup.1⟩
      have groupValid := (violations_eq_nil_iff.mp valid).2 group (by simp [only])
      obtain ⟨k, sameRole, groupValid⟩ := checkTop_eq_nil_iff.mp groupValid
      cases roleHere.symm.trans sameRole
      have noProducers : Inversion.producers group = [] := by
        rw [Inversion.producers, List.filter_eq_nil_iff]
        intro child inside isProducer
        have producer : Role.ofTag? child.name = some (.entity .dataProducer) :=
          Element.hasTagIn_tags_iff.mp isProducer
        cases producer.symm.trans (role_of_mem_group groupValid inside)
      simp [noProducers] at member
    · exact member
  · exact member

private theorem buildDocument_settles (d : Document) {children : List Element}
    (valid : ∀ child ∈ children, checkTop child = [])
    (settling : ∀ child ∈ children, child.Everywhere fun x =>
      attributeViolations x.position x.attributes = [] → AttributesSettle config allowed x) :
    Recorded.Settles allowed (fun _ => True) (buildDocument config d children) := by
  induction children generalizing d with
  | nil => exact .ok trivial
  | cons child rest ih =>
      obtain ⟨k, roleHere, childValid⟩ := checkTop_eq_nil_iff.mp (valid child (by simp))
      rw [buildDocument]
      refine (buildable (settling child (by simp)) _ k roleHere rfl childValid).bind ?_
      rintro built ⟨e, rfl⟩
      exact ih (d.insert ⟨k, e⟩).1 (fun other member => valid other (by simp [member]))
        fun other member => settling other (by simp [member])

theorem build_invert_settles {root : Element} (valid : violations root = [])
    (settling : ∀ child ∈ root.children, child.Everywhere fun x =>
      attributeViolations x.position x.attributes = [] → AttributesSettle config allowed x) :
    Recorded.Settles allowed (fun _ => True)
      (buildDocument config .empty (Inversion.invert root).children) :=
  buildDocument_settles .empty
    (fun child member => (violations_eq_nil_iff.mp valid).2 child
      (mem_children_of_mem_invert valid member))
    fun child member => settling child (mem_children_of_mem_invert valid member)

end

theorem readTree_of_valid {config : Config} {root : Element} (valid : violations root = []) :
    readTree config root =
      buildDocument config .empty (Inversion.invert root).children := by
  rw [readTree, (violations_eq_nil_iff.mp valid).1, valid]
  simp

/-- When all valid documents can be built, nothing but a wrong root or a violation stops
the reading of a tree. -/
theorem error_of_readTree {config : Config} (validating : config.validate = true)
    (built : ∀ root, violations root = [] →
      ∃ d, buildDocument config .empty (Inversion.invert root).children = .ok d)
    {root : Element} {error : Error} (failed : (readTree config root).result = .error error) :
    (∃ found, error = .schemaMismatch rootTag found) ∨ ∃ found, error = .validity found := by
  by_cases valid : violations root = []
  · obtain ⟨d, done⟩ := built root valid
    rw [readTree_of_valid valid, done] at failed
    cases failed
  · unfold readTree at failed
    rw [validating] at failed
    simp only [if_true, List.isEmpty_iff, valid, if_false] at failed
    split at failed
    · cases failed
      exact .inl ⟨_, rfl⟩
    · cases failed
      exact .inr ⟨_, rfl⟩

/-- Validation is sound for building. -/
theorem build_of_no_violations (config : Config) :
    (∀ root, violations root = [] → config.isStrict = false →
      ∃ d, buildDocument config .empty (Inversion.invert root).children = .ok d) ∧
    (∀ root, violations root = [] → config.isStrict = true →
      Recorded.Settles Error.OfAttribute (fun _ => True)
        (buildDocument config .empty (Inversion.invert root).children)) ∧
    (config.isStrict = false → config.validate = true → ∀ text error,
      (readDocument config text).result = .error error →
      (∃ fault, error = .xml fault) ∨ (∃ found, error = .schemaMismatch rootTag found) ∨
        ∃ found, error = .validity found) := by
  have settles := fun (root : Element) (valid : violations root = []) =>
    build_invert_settles valid fun child _ =>
      Element.everywhere_of_forall (fun _ => attributesSettle_of_valid config) child
  have lenient : ∀ root, violations root = [] → config.isStrict = false →
      ∃ d, buildDocument config .empty (Inversion.invert root).children = .ok d := by
    intro root valid lenient
    rcases settles root valid with ⟨d, built, _⟩ | ⟨_, _, strict, _⟩
    · exact ⟨d, built⟩
    · rw [lenient] at strict
      contradiction
  refine ⟨lenient, ?_, ?_⟩
  · intro root valid _
    rcases settles root valid with ⟨d, built, _⟩ | ⟨error, failed, _, ofAttribute⟩
    · exact .inl ⟨d, built, trivial⟩
    · exact .inr ⟨error, failed, ofAttribute⟩
  · intro isLenient validating text error failed
    unfold readDocument at failed
    cases parsed : Xml.read text with
    | error fault =>
        rw [parsed] at failed
        cases failed
        exact .inl ⟨fault, rfl⟩
    | ok root =>
        rw [parsed] at failed
        exact .inr (error_of_readTree validating (fun root valid => lenient root valid isLenient)
          failed)

theorem build_of_no_violations_nested :
    let container : Element :=
      ⟨"DataFile", [("startDate", "2010-03-04T05:06:07Z")], [], "", .none⟩
    let producer : Element :=
      ⟨"Deployment", [("bogus", "1"), ("version", "x")], [⟨"OUTPUT", [], [container], "", .none⟩],
        "", .none⟩
    let root : Element := ⟨"Metadata", [], [producer, container], "", .none⟩
    let noRoot : Error := .xml ⟨⟨1, 1⟩, .noRoot⟩
    violations root = [] ∧
      (∃ d, buildDocument {} .empty (Inversion.invert root).children = .ok d) ∧
      Recorded.Settles Error.OfAttribute (fun _ => True)
        (buildDocument { mode := .strict } .empty (Inversion.invert root).children) ∧
      (readDocument { validate := true } "").result = .error noRoot ∧
      ((∃ fault, noRoot = .xml fault) ∨ (∃ found, noRoot = .schemaMismatch rootTag found) ∨
        ∃ found, noRoot = .validity found) := by
  intro container producer root noRoot
  have valid : violations root = [] := by decide +kernel
  have nothing : Xml.scanFrom 0 [] = .done := by simp [Xml.scanFrom]
  have failed : (readDocument { validate := true } "").result = .error noRoot := by
    change (do
      let root ← .ofExcept ((Xml.Progress.empty.run _ (Xml.scanFrom 0 [])).mapError .xml)
      readTree _ root : Recorded Document).result = _
    rw [nothing]
    rfl
  exact ⟨valid, (build_of_no_violations {}).1 root valid rfl,
    (build_of_no_violations { mode := .strict }).2.1 root valid rfl, failed,
    (build_of_no_violations { validate := true }).2.2 rfl rfl "" _ failed⟩

end ShoreMetadata
