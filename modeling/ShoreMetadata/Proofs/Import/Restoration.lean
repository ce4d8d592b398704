import ShoreMetadata.Import.Build
import ShoreMetadata.Proofs.Import.Attribute
import ShoreMetadata.Proofs.Import.Recorded

/-! A canonical entity is built from its element in a dialect that conveys it, whatever
the mode of reading. -/

namespace ShoreMetadata

open Xml (Element)

namespace Slot

variable (dialect : Dialect)

def childOf (s : Slot) (c : Entity s.target) : Child where
  tag :=
    match s.wrapper? with
    | none => c.tag dialect
    | some w => w.tag dialect
  entity := ⟨s.target, c⟩

def wrapped (s : Slot) (content : Element) : Element :=
  match s.wrapper? with
  | none => content
  | some w => (Element.ofName (w.tag dialect)).pushChild content

end Slot

private theorem Kind.find?_slot (k : Kind) : ∀ s ∈ k.slots, k.slots.find? (fun t =>
    decide (t.target = s.target) && decide (t.wrapper? = s.wrapper?)) = some s := by
  cases k <;> decide

namespace Entity

variable {k : Kind} {dialect : Dialect}

private theorem role_childOf (s : Slot) (c : Entity s.target) :
    (Role.ofTag? (s.childOf dialect c).tag).bind Role.wrapper? = s.wrapper? := by
  rw [Slot.childOf]
  cases wrapped : s.wrapper? with
  | none =>
      simp only [c.role_tag]
      rfl
  | some w =>
      simp only [w.role_tag]
      rfl

private theorem adopt_childOf (config : Config) (place : Place) (x : Entity k) {s : Slot}
    (known : s ∈ k.slots) (c : Entity s.target) :
    x.adopt config place (s.childOf dialect c) = .ok (x.accept s c) := by
  have found : k.slots.find? (fits (s.childOf dialect c)) = some s := by
    have chosen := k.find?_slot s known
    unfold fits
    rw [role_childOf]
    exact chosen
  have adopted : x.adopt? (s.childOf dialect c) = some (x.accept s c) := by
    rw [adopt?, found]
    simp [Slot.childOf, AnyEntity.as?]
  rw [adopt, adopted]

theorem members_accept_of_ne (x : Entity k) {s t : Slot} (other : s ≠ t) (c : Entity s.target) :
    (x.accept s c).members t = x.members t :=
  congrArg Members.toList (Links.get_update_of_ne x.links other _)

private theorem members_accept (x : Entity k) {s : Slot} (known : s ∈ k.slots) (c : Entity s.target)
    (fresh : ∀ other ∈ x.members s, other.same c = false)
    (place : s.arity = .one → x.members s = []) :
    (x.accept s c).members s = x.members s ++ [c] := by
  have updated := Links.get_update_same x.links known fun members =>
    members.accept Entity.same c
  exact (congrArg Members.toList updated).trans (Members.toList_accept _ c fresh place)

variable (config : Config) (place : Place)

variable {config place} in
private theorem adoptAll_append {x y : Entity k} {first : List Child} (rest : List Child)
    (adopted : x.adoptAll config place first = .ok y) :
    x.adoptAll config place (first ++ rest) = y.adoptAll config place rest := by
  induction first generalizing x with
  | nil =>
      cases adopted
      rfl
  | cons child more ih =>
      rw [adoptAll, Recorded.bind_eq_ok] at adopted
      obtain ⟨z, first, adopted⟩ := adopted
      rw [List.cons_append, adoptAll, first, Recorded.bind_ok, ih adopted]

private theorem adoptAll_slot {s : Slot} (known : s ∈ k.slots) {items : List (Entity s.target)}
    (x : Entity k) (distinct : (x.members s ++ items).Pairwise fun a b => a.same b = false)
    (few : s.arity = .one → (x.members s ++ items).length ≤ 1) :
    ∃ y, x.adoptAll config place (items.map (s.childOf dialect)) = .ok y ∧
      y.members s = x.members s ++ items ∧ (∀ t, s ≠ t → y.members t = x.members t) ∧
      y.values = x.values ∧ y.version = x.version := by
  induction items generalizing x with
  | nil => exact ⟨x, rfl, by simp, fun _ _ => rfl, rfl, rfl⟩
  | cons c rest ih =>
      have fresh : ∀ other ∈ x.members s, other.same c = false := fun other member =>
        (List.pairwise_append.mp distinct).2.2 other member c (by simp)
      have alone : s.arity = .one → x.members s = [] := by
        intro one
        have bound := few one
        rw [List.length_append, List.length_cons] at bound
        exact List.length_eq_zero_iff.mp (by omega)
      have joined := x.members_accept known c fresh alone
      have regrouped : (x.accept s c).members s ++ rest = x.members s ++ c :: rest := by
        rw [joined, List.append_assoc, List.singleton_append]
      obtain ⟨y, adopted, here, elsewhere, values, version⟩ := ih (x.accept s c)
        (by rw [regrouped]; exact distinct) (by rw [regrouped]; exact few)
      refine ⟨y, ?_, here.trans regrouped, ?_, values, version⟩
      · rw [List.map_cons, adoptAll, adopt_childOf config place x known, Recorded.bind_ok, adopted]
      · intro t other
        rw [elsewhere t other, x.members_accept_of_ne other]

def offspring (dialect : Dialect) (e : Entity k) : Part → List Child
  | .description => []
  | .slot s => (e.members s).map (s.childOf dialect)

private theorem adoptAll_parts {e : Entity k} (canonical : e.Canonical) {parts : List Part}
    (distinct : parts.Nodup) (known : ∀ s, .slot s ∈ parts → s ∈ k.slots) (x : Entity k)
    (fresh : ∀ s, .slot s ∈ parts → x.members s = []) :
    ∃ y, x.adoptAll config place (parts.flatMap (e.offspring dialect)) = .ok y ∧
      (∀ s, y.members s = if .slot s ∈ parts then e.members s else x.members s) ∧
      y.values = x.values ∧ y.version = x.version := by
  induction parts generalizing x with
  | nil => exact ⟨x, rfl, by simp, rfl, rfl⟩
  | cons part rest ih =>
      rw [List.nodup_cons] at distinct
      have knownRest := fun s (member : .slot s ∈ rest) => known s (List.mem_cons_of_mem _ member)
      cases part with
      | description =>
          obtain ⟨y, adopted, members, values⟩ := ih distinct.2 knownRest x
            fun s member => fresh s (List.mem_cons_of_mem _ member)
          refine ⟨y, ?_, ?_, values⟩
          · rw [List.flatMap_cons]
            exact adopted
          · simpa using members
      | slot s =>
          have vacant := fresh s (by simp)
          have few : s.arity = .one → (x.members s ++ e.members s).length ≤ 1 := by
            rw [vacant]
            exact e.length_members_le
          obtain ⟨y, adoptedHere, here, elsewhere, values, version⟩ :=
            adoptAll_slot config place (known s (by simp)) x
              (by rw [vacant]; exact canonical.distinct s) few
          have other : ∀ t, .slot t ∈ rest → s ≠ t := by
            rintro t member rfl
            exact distinct.1 member
          obtain ⟨z, adoptedRest, members, valuesRest, versionRest⟩ := ih distinct.2 knownRest y
            fun t member => by rw [elsewhere t (other t member), fresh t (by simp [member])]
          refine ⟨z, ?_, ?_, valuesRest.trans values, versionRest.trans version⟩
          · rw [List.flatMap_cons]
            exact (adoptAll_append _ adoptedHere).trans adoptedRest
          · intro t
            rw [members t]
            by_cases same : s = t
            · subst same
              rw [if_neg distinct.1, here, vacant]
              simp
            · rw [elsewhere t same]
              simp [Ne.symm same]

end Entity

/-- Parts of elements of a kind: the description and slots, none of them twice. -/
structure Kind.Arranges (k : Kind) (parts : List Part) : Prop where
  nodup : parts.Nodup
  description : .description ∈ parts
  slots : ∀ s, .slot s ∈ parts → s ∈ k.slots

private theorem Kind.arranges_iff {k : Kind} {parts : List Part} : k.Arranges parts ↔
    parts.Nodup ∧ .description ∈ parts ∧
      ∀ part ∈ parts, part = .description ∨ part ∈ k.slots.map Part.slot := by
  constructor
  · rintro ⟨nodup, description, slots⟩
    refine ⟨nodup, description, fun part member => ?_⟩
    cases part with
    | description => exact .inl rfl
    | slot s => exact .inr (List.mem_map_of_mem (slots s member))
  · rintro ⟨nodup, description, parts⟩
    refine ⟨nodup, description, fun s member => ?_⟩
    simpa using parts _ member

instance (k : Kind) (parts : List Part) : Decidable (k.Arranges parts) :=
  decidable_of_iff _ Kind.arranges_iff.symm

private theorem currentParts_spec : ∀ k : Kind,
    k.Arranges (currentParts k) ∧ ∀ s ∈ k.slots, Part.slot s ∈ currentParts k := by
  intro k
  cases k <;> decide

private theorem arranges_legacyContainerParts (type : Option ContainerType) :
    Kind.dataContainer.Arranges (legacyContainerParts type) := by
  match type with
  | none => decide
  | some .file => decide
  | some .stream => decide

private theorem arranges_legacyProducerParts (type : Option ProducerType) :
    Kind.dataProducer.Arranges (legacyProducerParts type) := by
  match type with
  | none => decide
  | some .deployment => decide
  | some .processRun => decide

namespace Entity

variable {k : Kind}

private theorem parts_current (e : Entity k) : e.parts .current = currentParts k := by
  cases k <;> rfl

private theorem arranges_parts (e : Entity k) (dialect : Dialect) :
    k.Arranges (e.parts dialect) := by
  cases dialect with
  | current =>
      rw [parts_current]
      exact (currentParts_spec k).1
  | legacy =>
      cases k with
      | dataContainer => exact arranges_legacyContainerParts _
      | dataProducer => exact arranges_legacyProducerParts _
      | _ => exact (currentParts_spec _).1

end Entity

private theorem buildChildren_append {config : Config} {first rest : List Element} {x y : Offspring}
    (builtFirst : buildChildren config first = .ok x)
    (builtRest : buildChildren config rest = .ok y) :
    buildChildren config (first ++ rest) =
      .ok ⟨y.description.or x.description, x.children ++ y.children⟩ := by
  induction first generalizing x with
  | nil =>
      cases builtFirst
      simpa using builtRest
  | cons child more ih =>
      rw [buildChildren] at builtFirst
      rw [List.cons_append, buildChildren]
      split at builtFirst
      · rename_i described
        rw [if_pos described]
        obtain ⟨z, built, done⟩ := Recorded.bind_eq_ok.mp builtFirst
        cases done
        rw [ih built, Recorded.bind_ok]
        simp [Recorded.pure_eq_ok]
      · rename_i described
        rw [if_neg described]
        obtain ⟨entity, builtChild, builtMore⟩ := Recorded.bind_eq_ok.mp builtFirst
        obtain ⟨z, built, done⟩ := Recorded.bind_eq_ok.mp builtMore
        rw [builtChild, Recorded.bind_ok, ih built, Recorded.bind_ok]
        cases entity with
        | none =>
            cases done
            rfl
        | some entity =>
            cases done
            rfl

section

variable (config : Config) {dialect : Dialect} {direction : Direction}

private theorem name_wrapped {s : Slot} (c : Entity s.target) :
    (s.wrapped dialect (c.element dialect direction)).name = (s.childOf dialect c).tag := by
  unfold Slot.wrapped Slot.childOf
  cases s.wrapper? <;> rfl

private theorem wrapped_not_description {s : Slot} (c : Entity s.target) :
    ¬(s.wrapped dialect (c.element dialect direction)).hasTag descriptionTag = true := by
  rw [Element.hasTag_description_iff, name_wrapped, Slot.childOf]
  cases s.wrapper? with
  | none => simp [c.role_tag]
  | some w => simp [w.role_tag]

private theorem buildElement_wrapped {s : Slot} {c : Entity s.target}
    (built : buildElement config (c.element dialect direction) = .ok (some ⟨s.target, c⟩)) :
    buildElement config (s.wrapped dialect (c.element dialect direction)) =
      .ok (some ⟨s.target, c⟩) := by
  unfold Slot.wrapped
  cases wrapped : s.wrapper? with
  | none => exact built
  | some w =>
      have fit : (c.element dialect direction).hasTagIn w.contentTags = true := by
        have role : Role.ofTag? (c.element dialect direction).name = some (.entity s.target) :=
          c.role_tag
        rw [Wrapper.contentTags, Slot.contentKind_of_wrapper? wrapped]
        exact Element.hasTagIn_tags_iff.mpr role
      change buildElement config ⟨w.tag dialect, [], [c.element dialect direction], "", .none⟩ = _
      rw [buildElement]
      simp only [w.role_tag]
      rw [buildContent, if_pos fit, built]

private theorem buildChildren_slot {s : Slot} {items : List (Entity s.target)}
    (built : ∀ c ∈ items,
      buildElement config (c.element dialect direction) = .ok (some ⟨s.target, c⟩)) :
    buildChildren config (items.map fun c => s.wrapped dialect (c.element dialect direction)) =
      .ok ⟨none, items.map (s.childOf dialect)⟩ := by
  induction items with
  | nil => rfl
  | cons c rest ih =>
      rw [List.forall_mem_cons] at built
      rw [List.map_cons, buildChildren, if_neg (wrapped_not_description c),
        buildElement_wrapped config built.1, Recorded.bind_ok, ih built.2, name_wrapped]
      rfl

private theorem buildChildren_textContent {child : Element}
    (described : child.hasTag descriptionTag = true) :
    buildChildren config [child] = .ok ⟨some child.textContent, []⟩ := by
  rw [buildChildren, if_pos described, buildChildren]
  rfl

private theorem buildChildren_description {k : Kind} {e : Entity k} (canonical : e.Canonical) :
    buildChildren config e.descriptionElement = .ok ⟨e.description?, []⟩ := by
  rw [canonical.descriptionElement]
  cases stored : e.description? with
  | none => rfl
  | some text =>
      have described : (Element.ofText descriptionTag text).hasTag descriptionTag = true :=
        Element.hasTag_description_iff.mpr role_descriptionTag
      have content : (Element.ofText descriptionTag text).textContent = text :=
        canonical.description text stored
      rw [Option.map_some, Option.toList_some, buildChildren_textContent config described, content]

namespace Entity

variable {config} {k : Kind} {e : Entity k}

/-- The tag and the order of children in a dialect leave nothing out: the fields that are no
attributes are told by the tag, and every slot that holds entities is written. -/
structure Conveys (dialect : Dialect) (e : Entity k) : Prop where
  tagged : ∀ f ∈ k.fields, f.isAttribute dialect = false → f ≠ .description →
    (ofTag k (e.tag dialect)).get? f = e.get? f
  untagged : ∀ f, f.isAttribute dialect = true → (ofTag k (e.tag dialect)).get? f = none
  written : ∀ s, e.members s ≠ [] → .slot s ∈ e.parts dialect
  nonempty : e ≠ ofTag k (e.tag dialect)

theorem get?_ofTag_of_ne (tag : String) {f : Field} (container : f ≠ .dataContainerType)
    (producer : f ≠ .dataProducerType) : (ofTag k tag).get? f = none :=
  (get?_set_of_ne _ producer.symm _).trans
    ((get?_set_of_ne _ container.symm _).trans (get?_empty f))

@[simp] theorem members_ofTag (tag : String) (s : Slot) : (ofTag k tag).members s = [] :=
  (members_set _ _ _ s).trans ((members_set _ _ _ s).trans (members_empty s))

private theorem version_ofTag (tag : String) : (ofTag k tag).version = .unknown :=
  rfl

theorem isEmpty_element (conveyed : e.Conveys dialect)
    (built : buildElement config (e.element dialect direction) = .ok (some ⟨k, e⟩)) :
    (e.element dialect direction).isEmpty = false := by
  rw [Bool.eq_false_iff]
  intro bare
  simp only [Element.isEmpty, Bool.and_eq_true, List.isEmpty_iff] at bare
  have shape : e.element dialect direction = ⟨e.tag dialect, [], [], "", .none⟩ :=
    Element.ext_iff.mpr ⟨rfl, bare.1.1, bare.1.2, rfl, rfl⟩
  have fromNothing : buildElement config ⟨e.tag dialect, [], [], "", .none⟩ =
      .ok (some ⟨k, ofTag k (e.tag dialect)⟩) := by
    rw [buildElement]
    simp only [e.role_tag]
    rfl
  rw [shape, fromNothing] at built
  simp only [Recorded.ok, Recorded.mk.injEq, Except.ok.injEq, Option.some.injEq,
    AnyEntity.mk.injEq, heq_eq_eq, true_and] at built
  exact conveyed.nonempty built.symm

private theorem childElements_eq (canonical : e.Canonical) (follows : e.Follows direction)
    {s : Slot} (inside : ∀ c ∈ e.members s,
      c.toElement dialect direction = some (c.element dialect direction) ∧
        (c.element dialect direction).isEmpty = false) :
    e.childElements dialect direction s =
      (e.members s).map fun c => s.wrapped dialect (c.element dialect direction) := by
  have each : ∀ c ∈ e.members s, s.wrap dialect (c.toElement dialect direction) =
      [s.wrapped dialect (c.element dialect direction)] := by
    intro c member
    rw [(inside c member).1, Slot.wrap, (inside c member).2, if_neg Bool.false_ne_true,
      Slot.wrapped]
    cases s.wrapper? <;> rfl
  unfold childElements
  cases followed : s.isFollowed direction with
  | true =>
      rw [if_pos rfl, canonical.ordered s, List.flatMap_congr each]
      exact List.flatMap_pure_eq_map _ _
  | false =>
      rw [follows s followed]
      rfl

private theorem buildChildren_parts (canonical : e.Canonical) {parts : List Part}
    (slots : ∀ s, .slot s ∈ parts →
      buildChildren config (e.childElements dialect direction s) =
        .ok ⟨none, (e.members s).map (s.childOf dialect)⟩) :
    buildChildren config (parts.flatMap (e.partElements dialect direction)) =
      .ok ⟨if .description ∈ parts then e.description? else none,
        parts.flatMap (e.offspring dialect)⟩ := by
  induction parts with
  | nil => rfl
  | cons part rest ih =>
      have builtRest := ih fun s member => slots s (List.mem_cons_of_mem _ member)
      rw [List.flatMap_cons, List.flatMap_cons]
      cases part with
      | description =>
          have builtHere := buildChildren_description config canonical
          rw [partElements, buildChildren_append builtHere builtRest]
          by_cases again : Part.description ∈ rest <;> cases e.description? <;>
            simp [offspring, again]
      | slot s =>
          rw [partElements, buildChildren_append (slots s (by simp)) builtRest]
          simp [offspring]

theorem members_describe (x : Entity k) (text : Option String) (s : Slot) :
    (x.describe text).members s = x.members s := by
  cases text <;> rfl

private theorem version_describe (x : Entity k) (text : Option String) :
    (x.describe text).version = x.version := by
  cases text <;> rfl

private theorem get?_describe {x : Entity k} {f : Field} (known : f ∈ k.fields)
    (undescribed : x.get? .description = none) (rest : f ≠ .description → x.get? f = e.get? f) :
    (x.describe e.description?).get? f = e.get? f := by
  by_cases described : f = .description
  · subst described
    cases stored : e.description? with
    | none => exact undescribed.trans stored.symm
    | some text => exact (get?_set_same x known _).trans stored.symm
  · rw [← rest described]
    cases e.description? with
    | none => rfl
    | some text => exact get?_set_of_ne x (Ne.symm described) _

private theorem buildChildren_element (complete : e.Complete direction)
    (conveyed : e.Everywhere fun _ x => x.Conveys dialect) (built : ∀ s, ∀ c ∈ e.members s,
      buildElement config (c.element dialect direction) = .ok (some ⟨s.target, c⟩)) :
    buildChildren config (e.element dialect direction).children =
      .ok ⟨e.description?, (e.parts dialect).flatMap (e.offspring dialect)⟩ := by
  obtain ⟨canonical, follows⟩ := complete.here
  have slots : ∀ s, buildChildren config (e.childElements dialect direction s) =
      .ok ⟨none, (e.members s).map (s.childOf dialect)⟩ := by
    intro s
    rw [childElements_eq canonical follows fun c member => ?_]
    · exact buildChildren_slot config (built s)
    · have inside := (complete.inside s c member).here.1
      exact ⟨inside.toElement,
        isEmpty_element (conveyed.inside s c member).here (built s c member)⟩
  have whole : (e.element dialect direction).children =
      (e.parts dialect).flatMap (e.partElements dialect direction) := rfl
  rw [whole, buildChildren_parts canonical fun s _ => slots s,
    if_pos (e.arranges_parts dialect).description]

/-- Fields come from attributes or from the tag; the description and the entities in slots that
come from children complete the entity. -/
theorem adoptAll_describe (config : Config) (place : Place) (canonical : e.Canonical)
    (conveyed : e.Conveys dialect) {x : Entity k}
    (values : ∀ f ∈ k.fields, x.get? f = if f = .description then none else e.get? f)
    (version : x.version = e.version) (vacant : ∀ s, x.members s = []) :
    (x.describe e.description?).adoptAll config place
      ((e.parts dialect).flatMap (e.offspring dialect)) = .ok e := by
  have arranged := e.arranges_parts dialect
  obtain ⟨y, adopted, members, sameValues, sameVersion⟩ :=
    adoptAll_parts config place canonical arranged.nodup arranged.slots (x.describe e.description?)
      fun s _ => by rw [members_describe, vacant]
  have undescribed : x.get? .description = none := by
    by_cases known : Field.description ∈ k.fields
    · rw [values _ known, if_pos rfl]
    · exact x.get?_of_not_mem known
  have restored : y = e := by
    refine ext (fun f member => ?_) ?_ fun s member => ?_
    · have stored := get?_describe member undescribed fun other =>
        (values f member).trans (if_neg other)
      rw [← stored, Entity.get?, sameValues]
      rfl
    · rw [sameVersion, version_describe, version]
    · rw [members s, members_describe, vacant]
      by_cases held : e.members s = []
      · rw [held, ite_self]
      · rw [if_pos (conveyed.written s held)]
  rw [adopted, restored]

/-- From its tag and its attributes an entity has all but its description and what is in its
slots. -/
theorem readAttributes_ofTag (config : Config) (place : Place) (canonical : e.Canonical)
    (conveyed : e.Conveys dialect) :
    ∃ x, (ofTag k (e.tag dialect)).readAttributes config place (e.toAttributes dialect) = .ok x ∧
      (∀ f ∈ k.fields, x.get? f = if f = .description then none else e.get? f) ∧
      x.version = e.version ∧ ∀ s, x.members s = [] := by
  obtain ⟨x, read, fields, version, members⟩ := readAttributes_canonical config place dialect
    canonical (version_ofTag (e.tag dialect)) conveyed.untagged
  refine ⟨x, read, fun f known => ?_, version, fun s => (members s).trans (members_ofTag _ s)⟩
  rw [fields f known]
  cases told : f.isAttribute dialect with
  | true =>
      have other : f ≠ .description := by
        rintro rfl
        cases told
      rw [if_pos rfl, if_neg other]
  | false =>
      rw [if_neg Bool.false_ne_true]
      by_cases described : f = .description
      · rw [if_pos described, described]
        exact get?_ofTag_of_ne _ (by decide) (by decide)
      · rw [if_neg described]
        exact conveyed.tagged f known told described

/-- What is told by an element is restored from it. -/
theorem buildElement_element (config : Config) {k : Kind} (e : Entity k) :
    e.Complete direction → e.Everywhere (fun _ x => x.Conveys dialect) →
      buildElement config (e.element dialect direction) = .ok (some ⟨k, e⟩) := by
  induction e using Entity.induction with
  | @step k e ih =>
      intro complete everywhere
      have canonical := complete.here.1
      have conveyed := everywhere.here
      have builtChildren := buildChildren_element complete everywhere fun s c member =>
        ih s c member (complete.inside s c member) (everywhere.inside s c member)
      let place : Place := ⟨e.tag dialect, Xml.Position.none.line⟩
      obtain ⟨x, read, values, version, members⟩ :=
        readAttributes_ofTag config place canonical conveyed
      have adopted := adoptAll_describe config place canonical conveyed values version members
      change buildElement config ⟨e.tag dialect, e.toAttributes dialect,
        (e.element dialect direction).children, "", .none⟩ = _
      rw [buildElement]
      simp only [e.role_tag]
      rw [read, builtChildren]
      change (do
        let last ← (x.describe e.description?).adoptAll config _ _
        return some (AnyEntity.mk k last) : Recorded (Option AnyEntity)) = _
      rw [adopted]
      rfl

private theorem tag_current (e : Entity k) : e.tag .current = k.tag := by
  cases k <;> rfl

private theorem ofTag_tag (e : Entity k) : ofTag k (e.tag .current) = empty k := by
  have types : ∀ k : Kind,
      ContainerType.ofTag? k.tag = none ∧ ProducerType.ofTag? k.tag = none := by
    intro k
    cases k <;> decide
  have unchanged : ∀ f, (empty k).set f none = empty k := fun f =>
    congrArg (fun values => mk values .unknown (.empty k.slots)) (Values.set_absent f)
  rw [tag_current, ofTag, (types k).1, (types k).2]
  exact (congrArg (fun x : Entity k => x.set .dataProducerType none) (unchanged _)).trans
    (unchanged _)

theorem Canonical.conveys (canonical : e.Canonical) : e.Conveys .current where
  tagged f _ untold other := by
    cases f <;> first | exact absurd rfl other | cases untold
  untagged f _ := by rw [ofTag_tag, get?_empty]
  written s held := by
    rw [parts_current]
    refine (currentParts_spec k).2 s (Decidable.byContradiction fun missing => held ?_)
    exact e.members_of_not_mem missing
  nonempty := by
    rw [ofTag_tag]
    exact canonical.ne_empty

theorem Complete.conveys (complete : e.Complete direction) :
    e.Everywhere fun _ x => x.Conveys .current :=
  Everywhere.mono (fun _ inside => inside.1.conveys) complete

end Entity

end

end ShoreMetadata
