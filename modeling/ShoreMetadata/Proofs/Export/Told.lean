import ShoreMetadata.Proofs.Export.Canonical

/-! What the element of an entity tells: the entity without empty texts and NaNs, without blanks
around its description, without the entities that are not written, and with the others in the
order in which they are written. -/

namespace ShoreMetadata

open Text
open Xml (Element)

def Field.told : (f : Field) → f.Value → Option f.Value
  | .description, (text : String) => if isBlankText text then none else some (trim text)
  | f, value => if (f.type.text? value).isSome then some value else none

private theorem Field.told_of_ne {f : Field} (other : f ≠ .description) (value : f.Value) :
    f.told value = if (f.type.text? value).isSome then some value else none := by
  cases f <;> first | rfl | exact absurd rfl other

private theorem Field.text?_told {f : Field} (other : f ≠ .description) (value : f.Value) :
    (f.told value).bind f.type.text? = f.type.text? value := by
  rw [told_of_ne other]
  cases written : f.type.text? value <;> simp [written]

namespace Values

def tellEach : {fs : List Field} → Values fs → Values fs
  | _, .nil => .nil
  | f :: _, .cons value rest => .cons (value.bind f.told) rest.tellEach

private theorem get?_tellEach {fs : List Field} (values : Values fs) (f : Field) :
    values.tellEach.get? f = (values.get? f).bind f.told := by
  induction values with
  | nil => rfl
  | @cons g fs value rest ih =>
      by_cases same : g = f
      · subst same
        simp [tellEach, get?]
      · simp [tellEach, get?, same, ih]

private theorem toAttributes_cons (p : Field → Bool) {f : Field} {fs : List Field}
    (value : Option f.Value) (rest : Values fs) :
    (cons value rest).toAttributes p =
      ((if p f then value.bind f.type.text? else none).map fun text => (f.xmlName, text)).toList
        ++ rest.toAttributes p := by
  cases value with
  | none => cases p f <;> rfl
  | some v =>
      by_cases kept : p f = true
      · cases written : f.type.text? v <;> simp [toAttributes, mapPresent, kept, written]
      · simp [toAttributes, mapPresent, kept]

private theorem toAttributes_absent (p : Field → Bool) (fs : List Field) :
    (absent fs).toAttributes p = [] := by
  induction fs with
  | nil => rfl
  | cons f fs ih =>
      rw [absent, toAttributes_cons, ih]
      cases p f <;> rfl

private theorem toAttributes_tellEach {fs : List Field} {p : Field → Bool}
    (attributes : p .description = false) (values : Values fs) :
    values.tellEach.toAttributes p = values.toAttributes p := by
  induction values with
  | nil => rfl
  | @cons f fs value rest ih =>
      rw [tellEach, toAttributes_cons, toAttributes_cons, ih]
      by_cases kept : p f = true
      · have other : f ≠ .description := by
          rintro rfl
          rw [attributes] at kept
          cases kept
        have sameText : (value.bind f.told).bind f.type.text? = value.bind f.type.text? := by
          cases value with
          | none => rfl
          | some v => exact Field.text?_told other v
        rw [sameText]
      · simp [kept]

end Values

namespace Members

def fromList : (a : Arity) → {k : Kind} → List (Entity k) → Members a k
  | .one, _, [] => .absent
  | .one, _, e :: _ => .present e
  | .many, _, items => .ofList items

theorem toList_ofList {k : Kind} (items : List (Entity k)) : (ofList items).toList = items := by
  induction items with
  | nil => rfl
  | cons e rest ih => rw [ofList, toList, ih]

private theorem toList_fromList {a : Arity} {k : Kind} {items : List (Entity k)}
    (few : a = .one → items.length ≤ 1) : (fromList a items : Members a k).toList = items := by
  cases a with
  | many => exact toList_ofList items
  | one =>
      match items, few rfl with
      | [], _ => rfl
      | [e], _ => rfl

end Members

variable (direction : Direction)

def Entity.isWritten {k : Kind} (e : Entity k) : Bool :=
  (e.toElement .current direction).any (!·.isEmpty)

mutual
def Entity.told : {k : Kind} → Entity k → Entity k
  | _, .mk values version links => .mk values.tellEach version (Links.told links)

def Links.told : {ss : List Slot} → Links ss → Links ss
  | _, .nil => .nil
  | s :: _, .cons members rest =>
    .cons
      (if s.isFollowed direction then
        .fromList s.arity ((s.arrange (Members.told members)).filterMap Prod.snd)
      else .empty s.arity)
      (Links.told rest)

def Members.told : {a : Arity} → {k : Kind} → Members a k → List (Entity k × Option (Entity k))
  | _, _, .absent => []
  | _, _, .present e => [(e, if e.isWritten direction then some (Entity.told e) else none)]
  | _, _, .nil => []
  | _, _, .cons e rest =>
    (e, if e.isWritten direction then some (Entity.told e) else none) :: Members.told rest
end

namespace Entity

variable {k : Kind} {direction}

def toldIfWritten (direction : Direction) (e : Entity k) : Option (Entity k) :=
  if e.isWritten direction then some (e.told direction) else none

private theorem toldIfWritten_eq_some {e t : Entity k} :
    e.toldIfWritten direction = some t ↔ e.isWritten direction = true ∧ e.told direction = t := by
  simp [toldIfWritten]

end Entity

theorem Members.told_eq : {a : Arity} → {k : Kind} → (members : Members a k) →
    Members.told direction members =
      members.toList.map fun child => (child, child.toldIfWritten direction)
  | _, _, .absent => rfl
  | _, _, .present _ => rfl
  | _, _, .nil => rfl
  | _, _, .cons e rest => by
      rw [Members.told, Members.told_eq rest]
      rfl

private theorem Links.get_told : {ss : List Slot} → (links : Links ss) → (s : Slot) →
    ((Links.told direction links).get s).toList =
      if s.isFollowed direction then
        (s.inOrder (links.get s).toList).filterMap (Entity.toldIfWritten direction)
      else []
  | _, .nil, s => by
      have nothing : ((nil : Links []).get s).toList = [] := Members.toList_empty _
      rw [Links.told, nothing, s.inOrder_nil]
      simp
  | t :: _, .cons members rest, s => by
      by_cases same : t = s
      · subst same
        have here : (cons members rest).get t = members := by simp [get]
        have few : t.arity = .one →
            ((t.inOrder members.toList).filterMap (Entity.toldIfWritten direction)).length ≤ 1 := by
          intro one
          rw [Slot.inOrder_of_one one]
          refine (List.length_filterMap_le _ _).trans ?_
          generalize members = held
          revert held
          rw [one]
          exact Members.length_toList_le
        rw [here, Links.told, Members.told_eq, Slot.arrange_map, List.filterMap_map]
        cases followed : t.isFollowed direction with
        | true =>
            simp only [get, dite_true, if_true]
            exact Members.toList_fromList few
        | false => simp [get]
      · have there : (cons members rest).get s = rest.get s := by simp [get, same]
        rw [there, ← Links.get_told rest s, Links.told]
        simp [get, same]

namespace Entity

variable {k : Kind} {direction} {e : Entity k}

private theorem get?_told (e : Entity k) (f : Field) :
    (e.told direction).get? f = (e.get? f).bind f.told := by
  cases e with
  | mk values version links => exact values.get?_tellEach f

private theorem version_told (e : Entity k) : (e.told direction).version = e.version := by
  cases e
  rfl

private theorem members_told (e : Entity k) (s : Slot) :
    (e.told direction).members s =
      if s.isFollowed direction then
        (s.inOrder (e.members s)).filterMap (toldIfWritten direction)
      else [] := by
  cases e with
  | mk values version links => exact links.get_told direction s

private theorem exists_of_mem_members_told {s : Slot} {t : Entity s.target}
    (member : t ∈ (e.told direction).members s) :
    ∃ c ∈ e.members s, c.isWritten direction = true ∧ c.told direction = t := by
  rw [members_told] at member
  split at member
  · obtain ⟨c, held, told⟩ := List.mem_filterMap.mp member
    exact ⟨c, Slot.mem_inOrder.mp held, toldIfWritten_eq_some.mp told⟩
  · cases member

private theorem column?_told (v : Entity .recordVariable) :
    (v.told direction).column? = v.column? := by
  have told : ∀ n : Field.columnIndex.Value, Field.told .columnIndex n = some n := fun _ => rfl
  rw [column?, column?, get?_told]
  cases v.get? .columnIndex with
  | none => rfl
  | some n => exact told n

private theorem precedes_told {a b : Entity .recordVariable} (precedes : Precedes column? a b) :
    Precedes column? (a.told direction) (b.told direction) := by
  unfold Precedes hasColumn columnLE at precedes ⊢
  rw [column?_told, column?_told]
  exact precedes

private theorem inOrder_members_told (e : Entity k) (s : Slot) :
    s.inOrder ((e.told direction).members s) = (e.told direction).members s := by
  cases s with
  | recordVariables =>
      rw [members_told]
      split
      · have sorted := pairwise_orderByColumn column? (e.members .recordVariables)
        refine orderByColumn_eq_self_iff.mpr (sorted.filterMap _ ?_)
        intro a b precedes t told u told'
        obtain ⟨_, rfl⟩ := toldIfWritten_eq_some.mp told
        obtain ⟨_, rfl⟩ := toldIfWritten_eq_some.mp told'
        exact precedes_told precedes
      · exact Slot.inOrder_nil _
  | _ => rfl

private theorem toAttributes_told (e : Entity k) (dialect : Dialect) :
    (e.told direction).toAttributes dialect = e.toAttributes dialect := by
  have values : (e.told direction).values = e.values.tellEach := by
    cases e
    rfl
  rw [toAttributes, toAttributes, values, version_told, Values.toAttributes_tellEach rfl,
    Values.toAttributes_tellEach rfl]

end Entity

namespace Xml.Element

@[simp] theorem isEmpty_settled (x : Element) : x.settled.isEmpty = x.isEmpty := by
  have blank : isBlankText (trim x.text) = isBlankText x.text := by
    rw [Bool.eq_iff_iff, isBlankText_iff_trim, isBlankText_iff_trim, trim_trim]
  simp [isEmpty, settled, blank]

end Xml.Element

private theorem Slot.settled_wrap {s : Slot} {dialect : Dialect} {x y : Element}
    (same : x.settled = y.settled) :
    (s.wrap dialect (some x)).map Element.settled =
      (s.wrap dialect (some y)).map Element.settled := by
  have emptiness : x.isEmpty = y.isEmpty := by
    rw [← x.isEmpty_settled, same, y.isEmpty_settled]
  rw [Slot.wrap, Slot.wrap, emptiness]
  cases y.isEmpty with
  | true => rfl
  | false =>
      cases s.wrapper? with
      | none => simpa using same
      | some w =>
          have inside : ∀ z : Element,
              ((Element.ofName (w.tag dialect)).pushChild z).settled =
                ⟨w.tag dialect, [], [z.settled], trim "", .none⟩ := fun _ => rfl
          simp [inside, same]

namespace Entity

variable {k : Kind} {direction} {e : Entity k}

def HasRequired (e : Entity k) : Prop :=
  ∀ f, k.required? = some f → (e.get? f).isSome = true

private theorem isWritten_iff : e.isWritten direction = true ↔
    ∃ x, e.toElement .current direction = some x ∧ x.isEmpty = false := by
  rw [isWritten, Option.any_eq_true]
  simp

private theorem wrap_of_not_isWritten {s : Slot} {c : Entity s.target}
    (unwritten : c.isWritten direction = false) :
    s.wrap .current (c.toElement .current direction) = [] := by
  cases exported : c.toElement .current direction with
  | none => rfl
  | some x =>
      rw [isWritten, exported] at unwritten
      have bare : x.isEmpty = true := by simpa using unwritten
      rw [Slot.wrap, if_pos bare]

private theorem description?_told (e : Entity k) :
    (e.told direction).description? =
      e.description?.bind fun text => if isBlankText text then none else some (trim text) :=
  e.get?_told .description

private theorem descriptionElement_eq (e : Entity k) :
    e.descriptionElement = e.description?.toList.flatMap fun text =>
      if isBlankText text then [] else [.ofText descriptionTag text] := by
  have stored : (e.get? .description : Option String) = e.description? := rfl
  rw [descriptionElement, stored]
  cases e.description? <;> simp

private theorem descriptionElement_told (e : Entity k) :
    (e.told direction).descriptionElement.map Element.settled =
      e.descriptionElement.map Element.settled := by
  rw [descriptionElement_eq, descriptionElement_eq, description?_told]
  cases e.description? with
  | none => rfl
  | some text =>
      by_cases blank : isBlankText text = true
      · simp [blank]
      · have stillBlank : ¬isBlankText (trim text) = true := by
          rwa [isBlankText_iff_trim, trim_trim, ← isBlankText_iff_trim]
        have content : ∀ text, (Element.ofText descriptionTag text).settled =
            Element.ofText descriptionTag (trim text) := fun _ => rfl
        simp [blank, stillBlank, content]

private theorem settled_wrap_told {s : Slot} {c : Entity s.target}
    (same : c.isWritten direction = true → (c.told direction).HasRequired ∧
      ((c.told direction).element .current direction).settled =
        (c.element .current direction).settled) :
    ((c.toldIfWritten direction).toList.flatMap fun t =>
        s.wrap .current (t.toElement .current direction)).map Element.settled =
      (s.wrap .current (c.toElement .current direction)).map Element.settled := by
  cases written : c.isWritten direction with
  | false =>
      rw [wrap_of_not_isWritten written]
      simp [toldIfWritten, written]
  | true =>
      obtain ⟨required, sameElement⟩ := same written
      obtain ⟨x, exported, _⟩ := isWritten_iff.mp written
      rw [toldIfWritten_eq_some.mpr ⟨written, rfl⟩, exported, eq_element_of_toElement exported]
      simp only [Option.toList_some, List.flatMap_singleton, toElement_of_required required]
      exact Slot.settled_wrap sameElement

private theorem settled_childElements_told {s : Slot}
    (same : ∀ c ∈ e.members s, c.told direction ∈ (e.told direction).members s →
      (c.told direction).HasRequired ∧
        ((c.told direction).element .current direction).settled =
          (c.element .current direction).settled) :
    ((e.told direction).childElements .current direction s).map Element.settled =
      (e.childElements .current direction s).map Element.settled := by
  rw [childElements, childElements, inOrder_members_told]
  cases followed : s.isFollowed direction with
  | false => rfl
  | true =>
      rw [if_pos rfl, if_pos rfl, members_told, if_pos followed,
        List.filterMap_eq_flatMap_toList, List.flatMap_assoc, List.map_flatMap, List.map_flatMap]
      refine List.flatMap_congr fun c member => settled_wrap_told fun written => ?_
      refine same c (Slot.mem_inOrder.mp member) ?_
      rw [members_told, if_pos followed]
      exact List.mem_filterMap.mpr ⟨c, member, toldIfWritten_eq_some.mpr ⟨written, rfl⟩⟩

theorem settled_element_told (e : Entity k) :
    (e.told direction).Everywhere (fun _ t => t.HasRequired) →
      ((e.told direction).element .current direction).settled =
        (e.element .current direction).settled := by
  induction e using Entity.induction with
  | @step k e ih =>
      intro required
      have part : ∀ p, ((e.told direction).partElements .current direction p).map
          Element.settled = (e.partElements .current direction p).map Element.settled := by
        intro p
        cases p with
        | description => exact descriptionElement_told e
        | slot s =>
            refine settled_childElements_told fun c member held => ?_
            have inside := required.inside s _ held
            exact ⟨inside.here, ih s c member inside⟩
      have tag : (e.told direction).tag .current = e.tag .current := by cases k <;> rfl
      have parts : (e.told direction).parts .current = e.parts .current := by cases k <;> rfl
      rw [Element.ext_iff]
      refine ⟨?_, ?_, ?_, ?_, ?_⟩
      · simpa [Element.settled, element] using tag
      · simpa [Element.settled, element] using toAttributes_told e .current
      · simp only [Element.settled, Element.children_withTexts, element, parts,
          List.map_flatMap]
        exact List.flatMap_congr fun p _ => part p
      · simp [Element.settled, element]
      · simp [Element.settled]

def Whole (e : Entity k) : Prop :=
  ∀ f v, e.get? f = some v → f.type.Whole v

/-- Dates lie in years of four digits, the field that the kind requires is there, and no two
entities in a slot are the same. -/
structure Unambiguous (e : Entity k) : Prop where
  dated : e.Dated
  required : e.HasRequired
  distinct : ∀ s, (e.members s).Pairwise fun a b => a.same b = false

private theorem unambiguous_iff : e.Unambiguous ↔
    e.Dated ∧ (∀ f ∈ k.required?, (e.get? f).isSome = true) ∧
      ∀ s ∈ k.slots, (e.members s).Pairwise fun a b => a.same b = false := by
  constructor
  · rintro ⟨dated, required, distinct⟩
    exact ⟨dated, required, fun s _ => distinct s⟩
  · rintro ⟨dated, required, distinct⟩
    refine ⟨dated, required, fun s => ?_⟩
    by_cases known : s ∈ k.slots
    · exact distinct s known
    · rw [e.members_of_not_mem known]
      exact .nil

instance (e : Entity k) : Decidable e.Unambiguous :=
  decidable_of_iff _ unambiguous_iff.symm

private theorem whole_told (whole : e.Whole) : (e.told direction).Whole := by
  intro f v stored
  rw [get?_told] at stored
  obtain ⟨w, held, told⟩ := Option.bind_eq_some_iff.mp stored
  by_cases other : f = .description
  · subst other
    exact trivial
  · rw [Field.told_of_ne other] at told
    split at told
    · cases told
      exact whole f _ held
    · cases told

private theorem tellable_told (whole : e.Whole) (dated : (e.told direction).Dated) {f : Field}
    {v : f.Value} (stored : (e.told direction).get? f = some v) : f.type.Tellable v := by
  have wholeValue := whole_told whole f v stored
  have datedValue := dated f v stored
  rw [get?_told] at stored
  obtain ⟨w, _, told⟩ := Option.bind_eq_some_iff.mp stored
  by_cases other : f = .description
  · subst other
    change (if isBlankText w then none else some (trim w)) = some v at told
    split at told
    · cases told
    · rename_i notBlank
      cases told
      exact fun empty => notBlank (isBlankText_iff_trim.mpr empty)
  · rw [Field.told_of_ne other] at told
    split at told
    · rename_i written
      cases told
      exact FieldType.tellable_of_text? written datedValue wholeValue
    · cases told

private theorem trim_description_told {text : String}
    (stored : (e.told direction).description? = some text) : trim text = text := by
  rw [description?_told] at stored
  obtain ⟨original, _, told⟩ := Option.bind_eq_some_iff.mp stored
  split at told
  · cases told
  · cases told
    exact trim_trim original

private theorem isEmpty_element_empty (k : Kind) (dialect : Dialect) :
    ((empty k).element dialect direction).isEmpty = true := by
  have attributes : (empty k).toAttributes dialect = [] := by
    change Values.toAttributes _ (.absent k.fields) ++ [] ++
      Values.toAttributes _ (.absent k.fields) = []
    rw [Values.toAttributes_absent, Values.toAttributes_absent]
    rfl
  have parts : ∀ p, (empty k).partElements dialect direction p = [] := by
    intro p
    cases p with
    | description =>
        have undescribed : (empty k).description? = none := get?_empty .description
        rw [partElements, descriptionElement_eq, undescribed]
        rfl
    | slot s =>
        rw [partElements, childElements, members_empty, s.inOrder_nil]
        exact ite_self _
  have children : ((empty k).element dialect direction).children = [] :=
    List.flatMap_eq_nil_iff.mpr fun p _ => parts p
  have listed : ((empty k).element dialect direction).attributes = [] := attributes
  rw [Element.isEmpty, children, listed]
  rfl

private theorem ne_empty_told (written : e.isWritten direction = true)
    (required : (e.told direction).Everywhere fun _ t => t.HasRequired) :
    e.told direction ≠ empty k := by
  intro nothing
  obtain ⟨x, exported, nonempty⟩ := isWritten_iff.mp written
  have same := settled_element_told e required
  rw [nothing, ← eq_element_of_toElement exported] at same
  rw [← x.isEmpty_settled, ← same, Element.isEmpty_settled,
    isEmpty_element_empty] at nonempty
  cases nonempty

private theorem present_of_ne_empty (something : e ≠ empty k) :
    (∃ f ∈ k.fields, (e.get? f).isSome = true) ∨ e.version ≠ .unknown ∨
      ∃ s ∈ k.slots, e.members s ≠ [] := by
  refine Decidable.byContradiction fun absent => something ?_
  simp only [not_or, not_exists, not_and, Bool.not_eq_true, Option.isSome_eq_false_iff,
    Option.isNone_iff_eq_none, not_not] at absent
  obtain ⟨fields, version, slots⟩ := absent
  refine ext (fun f known => ?_) version fun s known => ?_
  · rw [fields f known, get?_empty]
  · rw [slots s known, members_empty]

theorem canonical_told (written : e.isWritten direction = true) (whole : e.Whole)
    (clear : (e.told direction).Everywhere fun _ t => t.Unambiguous) :
    (e.told direction).Canonical where
  values _ _ := tellable_told whole clear.here.dated
  description _ := trim_description_told
  required := clear.here.required
  present := present_of_ne_empty
    (ne_empty_told written (clear.mono fun _ unambiguous => unambiguous.required))
  distinct := clear.here.distinct
  ordered := inOrder_members_told e

private theorem follows_told (e : Entity k) : (e.told direction).Follows direction := by
  intro s aside
  rw [members_told, aside]
  rfl

theorem complete_told (e : Entity k) : e.isWritten direction = true →
    e.Everywhere (fun _ x => x.Whole) → (e.told direction).Everywhere (fun _ t => t.Unambiguous) →
      (e.told direction).Complete direction := by
  induction e using Entity.induction with
  | step e ih =>
      intro written whole clear
      refine .intro ⟨canonical_told written whole.here clear, follows_told e⟩ fun s t member => ?_
      have inside := clear.inside s t member
      obtain ⟨c, held, writtenInside, rfl⟩ := exists_of_mem_members_told member
      exact ih s c held writtenInside (whole.inside s c held) inside

end Entity

end ShoreMetadata
