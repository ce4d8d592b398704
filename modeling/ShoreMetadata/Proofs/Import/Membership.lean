import ShoreMetadata.Proofs.Document.Firsts
import ShoreMetadata.Proofs.Import.FromText
import ShoreMetadata.Proofs.Import.Restoration

/-! The lists in a document that was read, at the top and at any depth, hold the firsts of the
entities that are routed to them. -/

namespace ShoreMetadata

open Recorded (Yields)
open Xml (Element)

def built? (config : Config) (x : Element) : Option AnyEntity :=
  (buildElement config x).result.toOption.join

theorem built?_of_result {config : Config} {x : Element} {r : Option AnyEntity}
    (built : (buildElement config x).result = .ok r) : built? config x = r := by
  rw [built?, built]
  rfl

private theorem result_of_built? {config : Config} {x : Element} {e : AnyEntity}
    (built : built? config x = some e) : (buildElement config x).result = .ok (some e) := by
  unfold built? at built
  cases outcome : (buildElement config x).result with
  | error error =>
      rw [outcome] at built
      cases built
  | ok r =>
      rw [outcome] at built
      change r = some e at built
      rw [built]

private theorem built?_of_description (config : Config) {x : Element}
    (role : Role.ofTag? x.name = some .description) : built? config x = none := by
  obtain ⟨name, attributes, children, text, position⟩ := x
  change Role.ofTag? name = _ at role
  apply built?_of_result
  rw [buildElement, role]
  rfl

def builtChildren (config : Config) (children : List Element) : List Child :=
  children.filterMap fun child => (built? config child).map (Child.mk child.name)

def Child.routed? (k : Kind) (s : Slot) (child : Child) : Option (Entity s.target) :=
  if k.slots.find? (Entity.fits child) = some s then child.entity.as? s.target else none

def routed (config : Config) (k : Kind) (s : Slot) (children : List Element) :
    List (Entity s.target) :=
  (builtChildren config children).filterMap (·.routed? k s)

private theorem buildChildren_built (config : Config) (children : List Element) :
    Yields (fun offspring => offspring.children = builtChildren config children)
      (buildChildren config children) := by
  induction children with
  | nil => exact .ok rfl
  | cons child rest ih =>
      rw [buildChildren]
      split
      · rename_i described
        have built := built?_of_description config (Element.hasTag_description_iff.mp described)
        intro offspring ended
        obtain ⟨others, builtRest, ended⟩ := Recorded.result_bind_eq_ok.mp ended
        cases ended
        rw [builtChildren, List.filterMap_cons, built]
        exact ih others builtRest
      · intro offspring ended
        obtain ⟨r, built, ended⟩ := Recorded.result_bind_eq_ok.mp ended
        obtain ⟨others, builtRest, ended⟩ := Recorded.result_bind_eq_ok.mp ended
        have tail := ih others builtRest
        rw [builtChildren, List.filterMap_cons, built?_of_result built]
        cases r with
        | none =>
            cases ended
            exact tail
        | some e =>
            cases ended
            rw [tail]
            rfl

private theorem buildDocument_built (config : Config) (d : Document) (children : List Element) :
    Yields (fun last => last = d.insertAll (children.filterMap (built? config)))
      (buildDocument config d children) := by
  induction children generalizing d with
  | nil => exact .ok rfl
  | cons child rest ih =>
      rw [buildDocument]
      intro last ended
      obtain ⟨r, built, ended⟩ := Recorded.result_bind_eq_ok.mp ended
      rw [List.filterMap_cons, built?_of_result built]
      cases r with
      | none => exact ih d last ended
      | some e => exact ih (d.insert e).1 last ended

namespace Entity

variable {k : Kind}

/-- Lists stay as they are, and what is new in a slot is just a name. -/
structure NamesOnly (before after : Entity k) : Prop where
  lists : ∀ s, s.arity = .many → after.members s = before.members s
  inside : ∀ s, ∀ child ∈ after.members s,
    child ∈ before.members s ∨ ∃ name, child = named s.target name

namespace NamesOnly

variable {a b c : Entity k}

private theorem of_members (same : b.members = a.members) : NamesOnly a b :=
  ⟨fun s _ => congrFun same s, fun _ _ member => .inl (same ▸ member)⟩

theorem trans (first : NamesOnly a b) (second : NamesOnly b c) : NamesOnly a c where
  lists s many := (second.lists s many).trans (first.lists s many)
  inside s child member :=
    (second.inside s child member).elim (first.inside s child) .inr

end NamesOnly

private theorem arity_of_attributeUse? {name : String} {s : Slot}
    (use : k.attributeUse? name = some (.shorthand s)) : s.arity = .one := by
  have single : ∀ entry ∈ k.shorthands, entry.2.arity = .one := by
    cases k <;> decide
  rw [Kind.attributeUse?, Option.map_eq_some_iff] at use
  obtain ⟨entry, found, told⟩ := use
  have member := List.mem_of_find?_eq_some found
  simp only [Kind.attributeNames, List.mem_append, List.mem_cons, List.mem_map] at member
  rcases member with ((rfl | ⟨f, _, rfl⟩) | ⟨f, _, rfl⟩) | ⟨shorthand, known, rfl⟩
  · cases told
  · cases told
  · cases told
  · cases told
    exact single shorthand known

private theorem namesOnly_readAttribute {config : Config} {place : Place} {e next : Entity k}
    {name value : String} (read : e.readAttribute config place name value = .ok next) :
    NamesOnly e next := by
  unfold readAttribute at read
  split at read
  · obtain ⟨version, rfl | rfl⟩ := exists_version_of_readVersion read
    · exact .of_members rfl
    · exact .of_members rfl
  · rename_i f _
    cases parsed : f.type.read name value with
    | error error =>
        rw [parsed] at read
        cases read
    | ok v =>
        rw [parsed] at read
        cases read
        exact .of_members rfl
  · rename_i s use
    cases read
    constructor
    · intro t many
      have other : s ≠ t := by
        rintro rfl
        cases many.symm.trans (arity_of_attributeUse? use)
      exact congrArg Members.toList (Links.get_update_of_ne e.links other _)
    · refine forall_members_accept (P := fun t child =>
        child ∈ e.members t ∨ ∃ name, child = named t.target name) ?_ ?_
      · exact fun _ _ member => .inl member
      · exact .inr ⟨value, rfl⟩
  · split at read
    · cases read
    · cases read
      exact .of_members rfl

private theorem namesOnly_readAttributes {config : Config} {place : Place} {e last : Entity k}
    {attributes : List (String × String)}
    (read : e.readAttributes config place attributes = .ok last) : NamesOnly e last := by
  induction attributes generalizing e with
  | nil =>
      cases read
      exact .of_members rfl
  | cons a rest ih =>
      obtain ⟨name, value⟩ := a
      rw [readAttributes] at read
      cases first : e.readAttribute config place name value with
      | error error =>
          rw [first] at read
          cases read
      | ok next =>
          rw [first] at read
          exact (namesOnly_readAttribute first).trans (ih read)

def adoptOrKeep (e : Entity k) (child : Child) : Entity k :=
  (e.adopt? child).getD e

private theorem adoptAll_eq_foldl (config : Config) (place : Place) (e : Entity k)
    (children : List Child) :
    Yields (fun last => last = children.foldl adoptOrKeep e)
      (e.adoptAll config place children) := by
  induction children generalizing e with
  | nil => exact .ok rfl
  | cons child rest ih =>
      rw [adoptAll, List.foldl_cons]
      have step : Yields (fun next => next = e.adoptOrKeep child) (e.adopt config place child) := by
        unfold adopt adoptOrKeep
        cases e.adopt? child with
        | some next => exact .ok rfl
        | none =>
            dsimp only
            split
            · exact .fail _
            · rintro next ⟨⟩
              rfl
      refine step.bind fun next same => ?_
      subst same
      exact ih (e.adoptOrKeep child)

private theorem adopt?_eq_none_or (e : Entity k) (child : Child) :
    (k.slots.find? (fits child) = none ∧ e.adoptOrKeep child = e) ∨
      ∃ s ∈ k.slots, ∃ other, k.slots.find? (fits child) = some s ∧
        child.entity = ⟨s.target, other⟩ ∧ e.adoptOrKeep child = e.accept s other := by
  unfold adoptOrKeep adopt?
  cases found : k.slots.find? (fits child) with
  | none => exact .inl ⟨rfl, rfl⟩
  | some s =>
      have fit := List.find?_some found
      rw [fits, Bool.and_eq_true, decide_eq_true_eq] at fit
      obtain ⟨tag, kind, entity⟩ := child
      obtain ⟨rfl, _⟩ := fit
      exact .inr ⟨s, List.mem_of_find?_eq_some found, entity, rfl, rfl, by simp [AnyEntity.as?]⟩

theorem members_adoptOrKeep (e : Entity k) (child : Child) {s : Slot} (many : s.arity = .many) :
    (e.adoptOrKeep child).members s =
      (child.routed? k s).toList.foldl (keepNew Entity.same) (e.members s) := by
  rw [Child.routed?]
  rcases e.adopt?_eq_none_or child with ⟨unfit, kept⟩ | ⟨t, known, other, found, shape, adopted⟩
  · rw [unfit, kept]
    rfl
  · rw [found, adopted]
    by_cases same : t = s
    · subst same
      rw [if_pos rfl, AnyEntity.as?_eq_some_iff.mpr shape]
      have updated := Links.get_update_same e.links known fun members =>
        members.accept Entity.same other
      exact (congrArg Members.toList updated).trans (Members.toList_accept_of_many many _ other)
    · rw [members_accept_of_ne e same, if_neg (by simpa using same)]
      rfl

private theorem members_foldl_adoptOrKeep (e : Entity k) (children : List Child) {s : Slot}
    (many : s.arity = .many) :
    (children.foldl adoptOrKeep e).members s =
      (children.filterMap (·.routed? k s)).foldl (keepNew Entity.same) (e.members s) := by
  induction children generalizing e with
  | nil => rfl
  | cons child rest ih =>
      rw [List.foldl_cons, ih, members_adoptOrKeep e child many, List.filterMap_cons]
      cases child.routed? k s <;> rfl

private theorem forall_members_foldl_adoptOrKeep {P : (k : Kind) → Entity k → Prop} {e : Entity k}
    {children : List Child} (before : ∀ t, ∀ x ∈ e.members t, P t.target x)
    (new : ∀ child ∈ children, P child.entity.kind child.entity.entity) :
    ∀ t, ∀ x ∈ (children.foldl adoptOrKeep e).members t, P t.target x := by
  induction children generalizing e with
  | nil => exact before
  | cons child rest ih =>
      rw [List.forall_mem_cons] at new
      refine ih ?_ new.2
      rcases e.adopt?_eq_none_or child with ⟨_, kept⟩ | ⟨t, _, other, _, shape, adopted⟩
      · rw [kept]
        exact before
      · rw [adopted]
        rw [shape] at new
        exact forall_members_accept before new.1

end Entity

/-- An entity is built from an element of a tree, or an attribute names it; with the children of
the element. -/
inductive ComesFrom (config : Config) (tree : Element) :
    (k : Kind) → Entity k → List Element → Prop
  | element {k : Kind} {e : Entity k} {x : Element} (occurs : x.Occurs tree)
      (role : Role.ofTag? x.name = some (.entity k))
      (built : (buildElement config x).result = .ok (some ⟨k, e⟩)) :
      ComesFrom config tree k e x.children
  | attribute (k : Kind) (name : String) : ComesFrom config tree k (.named k name) []

/-- Every list of an entity holds the firsts of what the children of its element bring. -/
def Entity.ListsHoldFirsts (config : Config) (tree : Element) (k : Kind) (e : Entity k) : Prop :=
  ∃ children, ComesFrom config tree k e children ∧ ∀ s ∈ k.slots, s.arity = .many →
    HoldsFirsts Entity.same (routed config k s children) (e.members s)

private theorem Entity.listsHoldFirsts_named (config : Config) (tree : Element) (k : Kind)
    (name : String) : (named k name).Everywhere (ListsHoldFirsts config tree) := by
  have none : ∀ s, (named k name).members s = [] := fun s =>
    (members_set _ _ _ s).trans (members_empty s)
  refine .intro ⟨[], .attribute k name, fun s _ _ => ?_⟩ fun s child member => ?_
  · rw [none]
    exact holdsFirsts_foldl_keepNew (fun _ _ => Entity.same_symm) []
  · rw [none] at member
    cases member

/-- An entity is that of its tag, with what the attributes tell, into which the children go. -/
theorem exists_reading_of_built {config : Config} {x : Element} {k : Kind} {r : Option AnyEntity}
    (role : Role.ofTag? x.name = some (.entity k)) (built : (buildElement config x).result = .ok r) :
    ∃ e, Entity.NamesOnly (Entity.ofTag k x.name) e ∧
      r = some ⟨k, (builtChildren config x.children).foldl Entity.adoptOrKeep e⟩ := by
  obtain ⟨name, attributes, children, text, position⟩ := x
  simp only at role
  simp only [buildElement, role] at built
  obtain ⟨e, read, built⟩ := Recorded.result_bind_eq_ok.mp built
  obtain ⟨offspring, inside, built⟩ := Recorded.result_bind_eq_ok.mp built
  obtain ⟨last, adopted, ended⟩ := Recorded.result_bind_eq_ok.mp built
  cases ended
  have names := Entity.namesOnly_readAttributes read
  have described : Entity.NamesOnly e (e.describe offspring.description) :=
    .of_members (funext (Entity.members_describe e _))
  refine ⟨e.describe offspring.description, names.trans described, ?_⟩
  rw [Entity.adoptAll_eq_foldl config _ _ _ last adopted,
    buildChildren_built config children offspring inside]

private theorem buildElement_listsHoldFirsts (config : Config) {tree : Element} (x : Element)
    (occurs : x.Occurs tree) :
    Yields (fun r => ∀ e ∈ r, e.entity.Everywhere (Entity.ListsHoldFirsts config tree))
      (buildElement config x) := by
  induction x using Element.induction with
  | step x ih =>
      have inside := fun child member =>
        ih child member (Element.Occurs.trans (.inside member .here) occurs)
      intro r built
      cases role : Role.ofTag? x.name with
      | none =>
          obtain ⟨name, attributes, children, text, position⟩ := x
          simp only at role
          simp only [buildElement, role, unknownElement] at built
          split at built
          · cases built
          · cases built
            exact fun e none => by cases none
      | some found =>
          cases found with
          | entity k =>
              obtain ⟨e, names, rfl⟩ := exists_reading_of_built role built
              intro _ same
              cases same
              -- Beside the children there are only entities that attributes name.
              refine .intro ⟨x.children, .element occurs role built, fun s _ many => ?_⟩ ?_
              · rw [Entity.members_foldl_adoptOrKeep _ _ many, names.lists s many,
                  Entity.members_ofTag]
                exact holdsFirsts_foldl_keepNew (fun _ _ => Entity.same_symm) _
              · refine Entity.forall_members_foldl_adoptOrKeep (fun t y member => ?_)
                  fun child member => ?_
                · rcases names.inside t y member with earlier | ⟨label, rfl⟩
                  · rw [Entity.members_ofTag] at earlier
                    cases earlier
                  · exact Entity.listsHoldFirsts_named config tree _ label
                · obtain ⟨origin, held, mapped⟩ := List.mem_filterMap.mp member
                  obtain ⟨e', builtChild, rfl⟩ := Option.map_eq_some_iff.mp mapped
                  exact inside origin held (some e') (result_of_built? builtChild) e' rfl
          | wrapper w =>
              obtain ⟨name, attributes, children, text, position⟩ := x
              simp only at role
              simp only [buildElement, role, buildContent_eq] at built
              split at built
              · rename_i content selected
                exact inside content (List.mem_of_find?_eq_some selected) r built
              · cases built
                exact fun e none => by cases none
          | description =>
              have nothing := (built?_of_result built).symm.trans (built?_of_description config role)
              subst nothing
              exact fun e none => by cases none

/-- In a document that was read, the buckets hold the firsts of the entities that the top level is
built into, and the lists of every entity at any depth hold the firsts of those that its children
are built into. A document to which entities are added holds their firsts, and adding tells
whether it changed anything. -/
theorem readDocument_insertAll_firsts :
    (∀ (config : Config) (text : String) (d : Document),
      (readDocument config text).result = .ok d → ∃ root, Xml.read text = .ok root ∧
        d.Deduplicated ((Inversion.invert root).children.filterMap (built? config)) ∧
        ∀ e ∈ d.toList,
          e.entity.Everywhere (Entity.ListsHoldFirsts config (Inversion.invert root))) ∧
      ∀ entities, (Document.empty.insertAll entities).Deduplicated entities ∧
        ∀ e, ((Document.empty.insertAll entities).insert e).2 = false ↔
          ((Document.empty.insertAll entities).insert e).1 = Document.empty.insertAll entities := by
  refine ⟨fun config text d accepted => ?_, fun entities =>
    ⟨Document.deduplicated_insertAll entities, Document.insert_eq_false_iff _⟩⟩
  obtain ⟨root, read, built⟩ := exists_root_of_accepted accepted
  obtain rfl := buildDocument_built config .empty _ d built
  refine ⟨root, read, Document.deduplicated_insertAll _, fun e member => ?_⟩
  have kept := (Document.holdsFirsts_insertAll _ e.kind).sublist.subset
    (Document.mem_toList.mp member)
  have arrived := AnyEntity.mem_filterMap_as?.mp kept
  obtain ⟨x, held, builtHere⟩ := List.mem_filterMap.mp arrived
  exact buildElement_listsHoldFirsts config x (.inside held .here) _ (result_of_built? builtHere)
    e rfl

theorem readDocument_insertAll_firsts_keywords :
    let text := "<Metadata><Keyword name='k'/><Keyword name='k' id='1'/><DataProducer name='p'>" ++
      "<Keyword name='k'/><Keyword name='K'/><Keyword name='k'/></DataProducer></Metadata>"
    ∃ d, (readDocument {} text).result = .ok d ∧ d.size = 2 ∧ ∃ root, Xml.read text = .ok root ∧
      d.Deduplicated ((Inversion.invert root).children.filterMap (built? {})) ∧
      ∀ e ∈ d.toList, e.entity.Everywhere (Entity.ListsHoldFirsts {} (Inversion.invert root)) := by
  intro text
  obtain ⟨d, accepted, small⟩ := Recorded.exists_of_any
    (show (readDocument {} text).result.toOption.any (fun d => decide (d.size = 2)) = true by
      decide +kernel)
  exact ⟨d, accepted, small, readDocument_insertAll_firsts.1 {} text d accepted⟩

end ShoreMetadata
