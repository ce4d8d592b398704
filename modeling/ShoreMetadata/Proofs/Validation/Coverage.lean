import ShoreMetadata.Proofs.Import.AttributeOrder
import ShoreMetadata.Proofs.Validation.Structure

/-! Which violations are found: all that there are in elements that stand in their place, and for
what lies elsewhere one at an element around it. -/

namespace ShoreMetadata.Structure

open Xml (Element)

/-- An element stands where there is a place for it: at the top if it is one of an entity, in the
element of an entity if it is allowed there, in a wrapper if it is all there is and the content. -/
inductive Placed (root : Element) : Element → Prop
  | top {x : Element} {k : Kind} (member : x ∈ root.children)
      (role : Role.ofTag? x.name = some (.entity k)) : Placed root x
  | child {x parent : Element} {k : Kind} (outer : Placed root parent)
      (role : Role.ofTag? parent.name = some (.entity k)) (member : x ∈ parent.children)
      (allowed : x.hasTagIn (allowedTags k) = true) : Placed root x
  | content {x parent : Element} {w : Wrapper} (outer : Placed root parent)
      (role : Role.ofTag? parent.name = some (.wrapper w)) (only : parent.children = [x])
      (fit : x.hasTagIn w.contentTags = true) : Placed root x

variable {root x y : Element} {v : Violation}

private theorem mem_checkChildren_iff {parent : String} {allowed : List String}
    {children : List Element} :
    v ∈ checkChildren parent allowed children ↔ ∃ child ∈ children,
      v ∈ if child.hasTagIn allowed then check (Role.ofTag? child.name) child
        else [⟨child.position, s!"<{child.name}> is not allowed inside <{parent}>"⟩] := by
  induction children with
  | nil => simp [checkChildren]
  | cons first rest ih =>
      rw [checkChildren, List.mem_append, ih]
      simp only [List.mem_cons, exists_eq_or_imp]

private theorem mem_checkChildren_of_stray {parent : String} {allowed : List String}
    {children : List Element} (member : x ∈ children) (stray : x.hasTagIn allowed = false) :
    ⟨x.position, s!"<{x.name}> is not allowed inside <{parent}>"⟩ ∈
      checkChildren parent allowed children := by
  refine mem_checkChildren_iff.mpr ⟨x, member, ?_⟩
  rw [stray]
  exact List.mem_singleton_self _

private theorem mem_checkContent {w : Wrapper} {children : List Element} (member : x ∈ children)
    (other : ¬(children = [x] ∧ x.hasTagIn w.contentTags = true)) :
    v ∈ checkContent w v children := by
  cases children with
  | nil => cases member
  | cons content rest =>
      rw [checkContent, if_neg]
      · exact List.mem_singleton_self _
      · rw [Bool.and_eq_true, List.isEmpty_iff]
        rintro ⟨rfl, fit⟩
        obtain rfl := List.mem_singleton.mp member
        exact other ⟨rfl, fit⟩

private theorem check_entity (k : Kind) (x : Element) :
    check (some (.entity k)) x =
      attributeViolations x.position x.attributes ++
        checkChildren x.name (allowedTags k) x.children := by
  obtain ⟨name, attributes, children, text, position⟩ := x
  rw [check]

private theorem checkTop_of_entity {k : Kind} (role : Role.ofTag? x.name = some (.entity k)) :
    checkTop x = check (Role.ofTag? x.name) x := by
  rw [checkTop, role]

private theorem mem_checkTop_of_stray (stray : ¬∃ k, Role.ofTag? x.name = some (.entity k)) :
    ⟨x.position, s!"<{x.name}> is not allowed at the top level"⟩ ∈ checkTop x := by
  unfold checkTop
  split
  · rename_i k role
    exact absurd ⟨k, role⟩ stray
  · exact List.mem_singleton_self _

private theorem mem_violations_iff (tagged : root.hasTag rootTag = true) :
    v ∈ violations root ↔ ∃ top ∈ root.children, v ∈ checkTop top := by
  rw [violations, if_pos tagged, List.mem_flatMap]

private theorem Placed.check_subset (tagged : root.hasTag rootTag = true) (placed : Placed root x) :
    check (Role.ofTag? x.name) x ⊆ violations root := by
  induction placed with
  | @top x k member role =>
      intro v found
      refine (mem_violations_iff tagged).mpr ⟨x, member, ?_⟩
      rwa [checkTop_of_entity role]
  | @child x parent k _ role member allowed ih =>
      intro v found
      apply ih
      rw [role, check_entity]
      refine List.mem_append_right _ (mem_checkChildren_iff.mpr ⟨x, member, ?_⟩)
      rwa [if_pos allowed]
  | @content x parent w _ role only fit ih =>
      have content : Role.ofTag? x.name = some (.entity w.contentKind) :=
        Element.hasTagIn_tags_iff.mp fit
      obtain ⟨name, attributes, children, text, position⟩ := parent
      cases only
      rw [role, check, checkContent, fit] at ih
      rw [content]
      exact ih

def FoundAt (root x : Element) : Prop :=
  ∃ message, ⟨x.position, message⟩ ∈ violations root

private theorem Placed.foundAt (tagged : root.hasTag rootTag = true) (placed : Placed root x)
    (found : ∃ message, ⟨y.position, message⟩ ∈ check (Role.ofTag? x.name) x) :
    FoundAt root y := by
  obtain ⟨message, member⟩ := found
  exact ⟨message, placed.check_subset tagged member⟩

private theorem Placed.of_parent (tagged : root.hasTag rootTag = true) {parent : Element}
    (placed : Placed root parent) (member : x ∈ parent.children) :
    Placed root x ∨ FoundAt root x ∨ FoundAt root parent := by
  have atParent := placed.foundAt tagged (y := parent)
  match role : Role.ofTag? parent.name with
  | some (.entity k) =>
      cases allowed : x.hasTagIn (allowedTags k) with
      | true => exact .inl (.child placed role member allowed)
      | false =>
          refine .inr (.inl (placed.foundAt tagged ?_))
          rw [role, check_entity]
          exact ⟨_, List.mem_append_right _ (mem_checkChildren_of_stray member allowed)⟩
  | some (.wrapper w) =>
      by_cases only : parent.children = [x] ∧ x.hasTagIn w.contentTags = true
      · exact .inl (.content placed role only.1 only.2)
      · refine .inr (.inr (atParent ?_))
        obtain ⟨name, attributes, children, text, position⟩ := parent
        rw [role, check]
        exact ⟨_, mem_checkContent member only⟩
  | some .description =>
      refine .inr (.inr (atParent ?_))
      obtain ⟨name, attributes, children, text, position⟩ := parent
      have occupied : children.isEmpty = false :=
        List.isEmpty_eq_false_iff_exists_mem.mpr ⟨x, member⟩
      rw [role, check, occupied]
      exact ⟨_, List.mem_singleton_self _⟩
  | none =>
      refine .inr (.inr (atParent ?_))
      obtain ⟨name, attributes, children, text, position⟩ := parent
      rw [role, check]
      exact ⟨_, List.mem_singleton_self _⟩

private theorem placed_top (tagged : root.hasTag rootTag = true) (member : x ∈ root.children) :
    Placed root x ∨ FoundAt root x := by
  by_cases entity : ∃ k, Role.ofTag? x.name = some (.entity k)
  · obtain ⟨k, role⟩ := entity
    exact .inl (.top member role)
  · exact .inr ⟨_, (mem_violations_iff tagged).mpr ⟨x, member, mem_checkTop_of_stray entity⟩⟩

def Below (root x : Element) : Prop :=
  ∃ top ∈ root.children, x.Occurs top

/-- Below an element in its place everything stands in its place or in an element at which a
violation is found. -/
theorem placed_or_foundAt_of_occurs (tagged : root.hasTag rootTag = true) (occurs : x.Occurs y)
    (below : Below root y) (placed : Placed root y) :
    Placed root x ∨ ∃ z, x.Occurs z ∧ Below root z ∧ FoundAt root z := by
  induction occurs with
  | here => exact .inl placed
  | @inside y child member within ih =>
      obtain ⟨top, topMember, outer⟩ := below
      have inside : Below root child :=
        ⟨top, topMember, (Element.Occurs.inside member .here).trans outer⟩
      rcases placed.of_parent tagged member with placedChild | atChild | atParent
      · exact ih inside placedChild
      · exact .inr ⟨child, within, inside, atChild⟩
      · exact .inr ⟨y, .inside member within, ⟨top, topMember, outer⟩, atParent⟩

private theorem placed_or_foundAt (tagged : root.hasTag rootTag = true) (below : Below root x) :
    Placed root x ∨ ∃ z, x.Occurs z ∧ Below root z ∧ FoundAt root z := by
  obtain ⟨top, member, occurs⟩ := below
  rcases placed_top tagged member with placed | found
  · exact placed_or_foundAt_of_occurs tagged occurs ⟨top, member, .here⟩ placed
  · exact .inr ⟨top, occurs, ⟨top, member, .here⟩, found⟩

private theorem infix_told (before name : String) (after : List String) :
    name.toList <:+: (after.foldl (· ++ ·) (before ++ name)).toList := by
  induction after using List.reverseRecOn with
  | nil =>
      rw [List.foldl_nil, String.toList_append]
      exact (List.suffix_append _ _).isInfix
  | append_singleton after last ih =>
      rw [List.foldl_append, List.foldl_cons, List.foldl_nil, String.toList_append]
      exact ih.trans (List.prefix_append _ _).isInfix

private theorem infix_message_of_read {t : FieldType} {name value : String} {e : Error}
    (failed : t.read name value = .error e) : name.toList <:+: e.message.toList := by
  have named : (∃ fault, e = .encoding name fault) ∨ e = .conversion name value t := by
    cases t with
    | bytes =>
        change (bytesOfText value).mapError _ = .error e at failed
        cases decoded : bytesOfText value with
        | ok bytes =>
            rw [decoded] at failed
            cases failed
        | error fault =>
            rw [decoded] at failed
            cases failed
            exact .inl ⟨fault, rfl⟩
    | _ =>
        unfold FieldType.read at failed
        dsimp only at failed
        split at failed
        · cases failed
        · cases failed
          exact .inr rfl
  rcases named with ⟨fault, rfl⟩ | rfl
  · exact infix_told "Encoding error on " name [": ", fault.message]
  · exact infix_told "Cannot convert " name ["=\"", value, "\" to ", t.title]

private theorem infix_of_valueComplaint? {t : FieldType} {name value message : String}
    (complained : valueComplaint? t name value = some message) :
    name.toList <:+: message.toList := by
  unfold valueComplaint? at complained
  cases read : t.read name value with
  | ok v =>
      rw [read] at complained
      cases complained
  | error e =>
      rw [read] at complained
      have told := infix_message_of_read read
      cases t with
      | date =>
          cases complained
          exact infix_told "attribute " name ["=\"", value, "\" is not a valid date"]
      | containerType =>
          cases complained
          exact infix_told "attribute " name ["=\"", value, "\" is not a ", "DataContainer type"]
      | producerType =>
          cases complained
          exact infix_told "attribute " name ["=\"", value, "\" is not a ", "DataProducer type"]
      | _ =>
          cases complained
          exact told

/-- A value that is not of the type of its attribute is told at the element that has it, if that
stands in its place, whatever else is found. Of an element elsewhere the attributes are not looked
at, but then something is found at an element around it, or at itself. -/
theorem mistyped_reported (tagged : root.hasTag rootTag = true) (below : Below root x) {k : Kind}
    (role : Role.ofTag? x.name = some (.entity k)) {name value : String} {t : FieldType}
    (member : (name, value) ∈ x.attributes) (typed : typeOfAttribute? name = some t)
    (mistyped : t.parse? value = none) :
    (Placed root x → ∃ message, valueComplaint? t name value = some message ∧
      ⟨x.position, message⟩ ∈ violations root ∧ name.toList <:+: message.toList) ∧
    (¬Placed root x → ∃ z, x.Occurs z ∧ Below root z ∧ FoundAt root z) := by
  constructor
  · intro placed
    have complains : (valueComplaint? t name value).isSome = true := by
      rw [isSome_valueComplaint?, mistyped]
      rfl
    obtain ⟨message, complained⟩ := Option.isSome_iff_exists.mp complains
    refine ⟨message, complained, placed.check_subset tagged ?_,
      infix_of_valueComplaint? complained⟩
    rw [role, check_entity]
    refine List.mem_append_left _ (List.mem_filterMap.mpr ⟨(name, value), member, ?_⟩)
    simp [typed, complained]
  · intro stray
    exact (placed_or_foundAt tagged below).resolve_left stray

theorem mistyped_reported_beside_stray :
    let keyword : Element := ⟨"Keyword", [("id", "2")], [], "", ⟨3, 5⟩⟩
    let file : Element := ⟨"DataFile", [("numberOfRecords", "many")], [], "", ⟨4, 9⟩⟩
    let output : Element := ⟨"output", [], [file], "", ⟨4, 1⟩⟩
    let deployment : Element :=
      ⟨"Deployment", [], [.ofName "DeviceType", keyword, output], "", ⟨2, 1⟩⟩
    let root : Element := ⟨"Metadata", [], [.ofName "Sensor", deployment], "", ⟨1, 1⟩⟩
    Placed root file ∧ (violations root).length = 3 ∧
      ∃ message, valueComplaint? .long "numberOfRecords" "many" = some message ∧
        ⟨⟨4, 9⟩, message⟩ ∈ violations root ∧
        "numberOfRecords".toList <:+: message.toList := by
  intro keyword file output deployment root
  have atTop : Placed root deployment :=
    .top (by simp [root]) (by decide : Role.ofTag? "Deployment" = some (.entity .dataProducer))
  have wrapped : Placed root output :=
    .child atTop (by decide : Role.ofTag? "Deployment" = some (.entity .dataProducer))
      (by simp [deployment]) (by decide)
  have placed : Placed root file :=
    .content wrapped (by decide : Role.ofTag? "output" = some (.wrapper .output)) rfl (by decide)
  have below : Below root file :=
    ⟨deployment, by simp [root], .inside (by simp [deployment] : output ∈ deployment.children)
      (.inside (by simp [output] : file ∈ output.children) .here)⟩
  have reported := mistyped_reported (t := .long) (by decide) below
    (by decide : Role.ofTag? "DataFile" = some (.entity .dataContainer))
    (by simp [file] : ("numberOfRecords", "many") ∈ file.attributes) (by decide) (by decide)
  exact ⟨placed, by decide +kernel, reported.1 placed⟩

theorem mistyped_unreported_in_stray :
    let event : Element := ⟨"Event", [("startDate", "noon")], [], "", ⟨1, 19⟩⟩
    let root : Element := ⟨"Metadata", [], [⟨"Device", [], [event], "", ⟨1, 11⟩⟩], "", ⟨1, 1⟩⟩
    Role.ofTag? event.name = some (.entity .event) ∧
      typeOfAttribute? "startDate" = some .date ∧ FieldType.date.parse? "noon" = none ∧
      violations root = [⟨⟨1, 19⟩, "<Event> is not allowed inside <Device>"⟩] ∧
      ¬∃ v ∈ violations root, "startDate".toList <:+: v.message.toList := by
  decide +kernel

end ShoreMetadata.Structure
