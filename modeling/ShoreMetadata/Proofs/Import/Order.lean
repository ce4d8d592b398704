import ShoreMetadata.Proofs.Document.Representatives
import ShoreMetadata.Proofs.Import.Alike
import ShoreMetadata.Proofs.Import.Exchange
import ShoreMetadata.Proofs.Import.Membership

/-! The order of attributes does not matter if each is for something else, and of children only
that of those that bring the same. -/

namespace ShoreMetadata

open Recorded (Acts Agree)
open Xml (Element)

namespace Entity

variable {k : Kind} {config : Config}

inductive Tells : Option AttributeUse → (Entity k → Entity k) → Prop
  | unused : Tells none id
  | version (value : String) (version : Version) :
    Tells (some .version) fun e => e.numbered value version
  | field (f : Field) (v : f.Value) : Tells (some (.field f)) fun e => e.set f (some v)
  | shorthand (s : Slot) (f : Members s.arity s.target → Members s.arity s.target) :
    Tells (some (.shorthand s)) fun e => e.updateLinks fun links => links.update s f

private theorem acts_readAttribute (place : Place) (name value : String) :
    Acts (Tells (k.attributeUse? name)) fun e : Entity k =>
      .ofExcept (e.readAttribute config place name value) := by
  unfold readAttribute
  match k.attributeUse? name with
  | none =>
      cases config.isStrict with
      | true => exact .fail _
      | false => exact .ok .unused
  | some .version =>
      simp only [readVersion_eq]
      cases Version.read config value with
      | error error => exact .fail _
      | ok version => exact .ok (.version value version)
  | some (.field f) =>
      dsimp only
      cases f.type.read name value with
      | error error => exact .fail _
      | ok v => exact .ok (.field f v)
  | some (.shorthand s) => exact .ok (.shorthand s _)

private theorem numbered_set_some (e : Entity k) (f : Field) (v : f.Value) (value : String)
    (version : Version) :
    (e.set f (some v)).numbered value version = (e.numbered value version).set f (some v) := by
  by_cases plain : f = .softwareVersion
  · subst plain
    have moved : (e.set .softwareVersion (some v)).setVersion version =
        (e.setVersion version).set .softwareVersion (some v) := rfl
    rw [numbered, numbered, moved]
    by_cases software : k = .software
    · subst software
      rw [get?_set_same _ (by decide)]
      split
      · rename_i released
        cases released.2.2
      · split
        · exact (set_set_same _ _ _ _).symm
        · rfl
    · simp [software]
  · exact numbered_set (some v) plain value version

private theorem updateLinks_numbered (e : Entity k) (f : Links k.slots → Links k.slots)
    (value : String) (version : Version) :
    (e.numbered value version).updateLinks f = (e.updateLinks f).numbered value version :=
  apply_ite (updateLinks · f) _ _ _

theorem Tells.commute {use use' : Option AttributeUse} {g h : Entity k → Entity k}
    (first : Tells use g) (second : Tells use' h) (apart : ∀ c, use = some c → use' ≠ some c) :
    Function.Commute g h := by
  intro e
  cases first with
  | unused => rfl
  | version value version =>
      cases second with
      | unused => rfl
      | version => exact absurd rfl (apart _ rfl)
      | field f v => exact numbered_set_some e f v value version
      | shorthand s f => exact (updateLinks_numbered e (·.update s f) value version).symm
  | field f v =>
      cases second with
      | unused => rfl
      | version value version => exact (numbered_set_some e f v value version).symm
      | field f' v' =>
          have other : f' ≠ f := fun same => apart _ rfl (by rw [same])
          exact e.set_set_of_ne other (some v') (some v)
      | shorthand => rfl
  | shorthand s f =>
      cases second with
      | unused => rfl
      | version value version => exact updateLinks_numbered e (·.update s f) value version
      | field => rfl
      | shorthand s' f' =>
          have other : s' ≠ s := fun same => apart _ rfl (by rw [same])
          exact congrArg (mk e.values e.version) (e.links.update_update_of_ne other f' f)

private theorem ofExcept_readAttributes (place : Place) (e : Entity k)
    (attributes : List (String × String)) :
    Recorded.ofExcept (e.readAttributes config place attributes) =
      attributes.foldlM (fun e a => .ofExcept (e.readAttribute config place a.1 a.2)) e := by
  induction attributes generalizing e with
  | nil => rfl
  | cons a rest ih =>
      obtain ⟨name, value⟩ := a
      rw [readAttributes, List.foldlM_cons, Recorded.ofExcept_bind]
      exact congrArg _ (funext ih)

theorem toOption_readAttributes_perm (place : Place) (e : Entity k)
    {first second : List (String × String)}
    (distinct : (first.filterMap fun a => k.attributeUse? a.1).Nodup) (perm : first.Perm second) :
    (e.readAttributes config place first).toOption =
      (e.readAttributes config place second).toOption := by
  apply Agree.toOption_eq
  rw [ofExcept_readAttributes, ofExcept_readAttributes]
  have order : Rearranged (fun a : String × String => k.attributeUse? a.1) first second :=
    .of_perm distinct perm
  refine Recorded.foldlM_rearranged (P := fun a => Tells (k.attributeUse? a.1)) (fun a => ?_)
    (fun a b apart g h tells tells' => ?_) order e
  · exact acts_readAttribute place a.1 a.2
  · exact tells.commute tells' apart

end Entity

namespace Entity

variable {k : Kind} {config : Config}

inductive Takes (j : Kind) : (Entity k → Entity k) → Prop
  | nothing : Takes j id
  | into (s : Slot) (target : s.target = j)
    (f : Members s.arity s.target → Members s.arity s.target) :
    Takes j fun e => e.updateLinks fun links => links.update s f

theorem Takes.commute {i j : Kind} {g h : Entity k → Entity k} (first : Takes i g)
    (second : Takes j h) (different : i ≠ j) : Function.Commute g h := by
  intro e
  cases first with
  | nothing => rfl
  | into s target f =>
      cases second with
      | nothing => rfl
      | into s' target' f' =>
          have other : s' ≠ s := fun same => different (by rw [← target, ← target', same])
          exact congrArg (mk e.values e.version) (e.links.update_update_of_ne other f' f)

private theorem acts_adopt (place : Place) (child : Child) :
    Acts (Takes child.entity.kind) fun e : Entity k => e.adopt config place child := by
  unfold adopt adopt?
  cases found : k.slots.find? (fits child) with
  | none =>
      cases config.isStrict with
      | true => exact .fail _
      | false => exact ⟨⟨_, .ok id⟩, fun g ended => by cases ended; exact .nothing, fun _ => rfl⟩
  | some s =>
      have fit := List.find?_some found
      rw [fits, Bool.and_eq_true, decide_eq_true_eq] at fit
      obtain ⟨tag, kind, entity⟩ := child
      obtain ⟨rfl, _⟩ := fit
      simp only [AnyEntity.as?, dite_true, Option.bind_eq_bind, Option.bind_some]
      exact .ok (.into s rfl _)

private theorem adoptAll_eq_foldlM (place : Place) (e : Entity k) (children : List Child) :
    e.adoptAll config place children =
      children.foldlM (fun e child => e.adopt config place child) e := by
  induction children generalizing e with
  | nil => rfl
  | cons child rest ih =>
      rw [adoptAll, List.foldlM_cons]
      exact congrArg _ (funext ih)

theorem adoptAll_rearranged (place : Place) (e : Entity k) {cs ds : List Child}
    (order : Rearranged (fun c : Child => some c.entity.kind) cs ds) :
    Agree Eq (e.adoptAll config place cs) (e.adoptAll config place ds) := by
  rw [adoptAll_eq_foldlM, adoptAll_eq_foldlM]
  refine Recorded.foldlM_rearranged (P := fun c => Takes c.entity.kind) (fun c => ?_)
    (fun a b apart g h takes takes' => ?_) order e
  · exact acts_adopt place c
  · exact takes.commute takes' fun same => apart _ rfl (by rw [same])

end Entity

/-- The role of what an element brings to the one it stands in, if it brings anything. -/
def Xml.Element.offers? (x : Element) : Option Role :=
  match Role.ofTag? x.name with
  | some (.wrapper w) =>
    if x.children.any (·.hasTagIn w.contentTags) then some (.entity w.contentKind) else none
  | role => role

theorem Xml.Element.offers?_of_role (x : Element) (role : Role)
    (own : Role.ofTag? x.name = some role) (plain : role.wrapper? = none) :
    x.offers? = some role := by
  rw [offers?, own]
  cases role with
  | wrapper w => cases plain
  | entity k => rfl
  | description => rfl

variable {config : Config}

private theorem kind_of_built {x : Element} {k : Kind} {e : AnyEntity}
    (role : Role.ofTag? x.name = some (.entity k))
    (built : (buildElement config x).result = .ok (some e)) : e.kind = k := by
  obtain ⟨start, _, shape⟩ := exists_reading_of_built role built
  cases shape
  rfl

private theorem offers?_of_built {x : Element} {e : AnyEntity}
    (built : (buildElement config x).result = .ok (some e)) :
    x.offers? = some (.entity e.kind) := by
  unfold Element.offers?
  cases role : Role.ofTag? x.name with
  | none =>
      rw [buildElement_of_none role] at built
      exact absurd built (result_unknownElement_ne _ e)
  | some known =>
      cases known with
      | entity k => rw [kind_of_built role built]
      | description =>
          rw [buildElement_of_description role] at built
          cases built
      | wrapper w =>
          rw [buildElement_of_wrapper role, buildContent_eq] at built
          cases found : x.children.find? (·.hasTagIn w.contentTags) with
          | none =>
              rw [found] at built
              cases built
          | some content =>
              rw [found] at built
              have tagged := List.find?_some found
              have held : x.children.any (·.hasTagIn w.contentTags) = true :=
                List.any_eq_true.mpr ⟨content, List.mem_of_find?_eq_some found, tagged⟩
              simp only [held, if_true, kind_of_built (Element.hasTagIn_tags_iff.mp tagged) built]

/-- Offspring in another order, but for that of entities of one kind. -/
structure Offspring.Rearranged (a b : Offspring) : Prop where
  description : a.description = b.description
  children : ShoreMetadata.Rearranged (fun c : Child => some c.entity.kind) a.children b.children

namespace Offspring

def prepend (x : Element) (built : Option AnyEntity) (o : Offspring) : Offspring :=
  if x.hasTag descriptionTag then { o with description := o.description.or x.textContent }
  else
    match built with
    | some entity => { o with children := ⟨x.name, entity⟩ :: o.children }
    | none => o

variable {a b c : Offspring}

theorem Rearranged.refl (a : Offspring) : a.Rearranged a :=
  ⟨rfl, .refl _⟩

theorem Rearranged.trans (first : a.Rearranged b) (second : b.Rearranged c) : a.Rearranged c :=
  ⟨first.description.trans second.description, first.children.trans second.children⟩

private theorem Rearranged.prepend (order : a.Rearranged b) (x : Element)
    (built : Option AnyEntity) : (a.prepend x built).Rearranged (b.prepend x built) := by
  unfold Offspring.prepend
  split
  · exact ⟨by rw [order.description], order.children⟩
  · cases built with
    | none => exact order
    | some e => exact ⟨order.description, order.children.cons _⟩

private theorem prepend_prepend (o : Offspring) {x y : Element} (apart : Apart Element.offers? x y)
    {r s : Option AnyEntity} (offered : ∀ e, r = some e → x.offers? = some (.entity e.kind))
    (offered' : ∀ e, s = some e → y.offers? = some (.entity e.kind)) :
    ((o.prepend y s).prepend x r).Rearranged ((o.prepend x r).prepend y s) := by
  by_cases described : x.hasTag descriptionTag = true
  · have other : ¬y.hasTag descriptionTag = true := fun described' =>
      apart _ (x.offers?_of_role _ (Element.hasTag_description_iff.mp described) rfl)
        (y.offers?_of_role _ (Element.hasTag_description_iff.mp described') rfl)
    cases s <;> simp [prepend, described, other, Rearranged.refl]
  · by_cases described' : y.hasTag descriptionTag = true
    · cases r <;> simp [prepend, described, described', Rearranged.refl]
    · cases r with
      | none => simp [prepend, described, Rearranged.refl]
      | some e =>
          cases s with
          | none => simp [prepend, described', Rearranged.refl]
          | some e' =>
              simp only [prepend, described, described', Bool.false_eq_true, if_false]
              refine ⟨rfl, .swap (fun j own own' => apart _ (offered e rfl) ?_) o.children⟩
              rw [offered' e' rfl, Option.some.inj own, Option.some.inj own']

end Offspring

private theorem buildChildren_cons (x : Element) (rest : List Element) :
    buildChildren config (x :: rest) = do
      let built ← buildElement config x
      let offspring ← buildChildren config rest
      return offspring.prepend x built := by
  rw [buildChildren]
  unfold Offspring.prepend
  split
  · rename_i described
    rw [buildElement_of_description (Element.hasTag_description_iff.mp described)]
    rfl
  · refine congrArg _ (funext fun built => congrArg _ (funext fun offspring => ?_))
    cases built <;> rfl

variable {xs ys : List Element}

theorem buildChildren_rearranged (order : Rearranged Element.offers? xs ys) :
    Agree Offspring.Rearranged (buildChildren config xs) (buildChildren config ys) := by
  have exchanges : Exchanges Element.offers? fun xs ys =>
      Agree Offspring.Rearranged (buildChildren config xs) (buildChildren config ys) := by
    refine ⟨?_, fun x alike => ?_, fun {x y} rest apart => ?_, fun first second => ?_⟩
    · exact .refl .refl _
    · rw [buildChildren_cons, buildChildren_cons]
      refine (Agree.refl (fun _ => rfl) _).bind_eq fun built => ?_
      exact alike.bind fun a b order => .ok (order.prepend x built)
    · simp only [buildChildren_cons, Recorded.bind_assoc, Recorded.pure_eq_ok, Recorded.bind_ok]
      refine Agree.exchange fun r s built built' => ?_
      refine (Agree.refl (fun _ => rfl) _).bind_eq fun o => .ok (o.prepend_prepend apart ?_ ?_)
      · rintro e rfl
        exact offers?_of_built built
      · rintro e rfl
        exact offers?_of_built built'
    · exact first.trans second fun _ _ _ => Offspring.Rearranged.trans
  exact exchanges.of_rearranged order

theorem buildContent_rearranged (w : Wrapper) (order : Rearranged Element.offers? xs ys) :
    buildContent config w.contentTags xs = buildContent config w.contentTags ys := by
  have same : xs.filter (·.hasTagIn w.contentTags) = ys.filter (·.hasTagIn w.contentTags) :=
    order.filter_eq fun x tagged =>
      x.offers?_of_role (.entity w.contentKind) (Element.hasTagIn_tags_iff.mp tagged) rfl
  rw [buildContent_eq, buildContent_eq, ← List.head?_filter, ← List.head?_filter, same]

def Document.take (d : Document) : Option AnyEntity → Document
  | some e => (d.insert e).1
  | none => d

private theorem Document.insert_insert_of_ne (d : Document) {e e' : AnyEntity}
    (different : e.kind ≠ e'.kind) :
    ((d.insert e).1.insert e').1 = ((d.insert e').1.insert e).1 := by
  refine ext_get fun k => ?_
  have first := d.get_insertAll_eq_keepNew [e, e'] k
  have second := d.get_insertAll_eq_keepNew [e', e] k
  refine first.trans (Eq.trans ?_ second.symm)
  have alone : e.as? k = none ∨ e'.as? k = none := by
    by_cases own : e.kind = k
    · exact .inr (by simp [AnyEntity.as?, ← own, different.symm])
    · exact .inl (by simp [AnyEntity.as?, own])
  rcases alone with none | none
  · simp [List.filterMap_cons, none]
  · simp [List.filterMap_cons, none]

inductive Document.Adds (x : Element) : (Document → Document) → Prop
  | built (r : Option AnyEntity) (offered : ∀ e, r = some e → x.offers? = some (.entity e.kind)) :
    Adds x fun d => d.take r

theorem Document.Adds.commute {x y : Element} {g h : Document → Document} (first : Adds x g)
    (second : Adds y h) (apart : Apart Element.offers? x y) : Function.Commute g h := by
  intro d
  cases first with
  | built r offered =>
      cases second with
      | built s offered' =>
          cases r with
          | none => rfl
          | some e =>
              cases s with
              | none => rfl
              | some e' =>
                  have different : e'.kind ≠ e.kind := fun same =>
                    apart _ (offered e rfl) (by rw [offered' e' rfl, same])
                  exact d.insert_insert_of_ne different

private theorem buildDocument_eq_foldlM (d : Document) (children : List Element) :
    buildDocument config d children =
      children.foldlM (fun d child => do return d.take (← buildElement config child)) d := by
  induction children generalizing d with
  | nil => rfl
  | cons child rest ih =>
      rw [buildDocument, List.foldlM_cons, Recorded.bind_assoc]
      refine congrArg _ (funext fun built => ?_)
      cases built with
      | none => exact ih d
      | some e => exact ih (d.insert e).1

theorem buildDocument_rearranged (d : Document) (order : Rearranged Element.offers? xs ys) :
    Agree Eq (buildDocument config d xs) (buildDocument config d ys) := by
  rw [buildDocument_eq_foldlM, buildDocument_eq_foldlM]
  refine Recorded.foldlM_rearranged (P := Document.Adds) (fun x => ?_)
    (fun x y apart g h adds adds' => adds.commute adds' apart) order d
  refine ⟨buildElement config x >>= fun r => .ok (·.take r), fun g ended => ?_, fun d => ?_⟩
  · obtain ⟨r, built, ended⟩ := Recorded.result_bind_eq_ok.mp ended
    cases ended
    refine .built r fun e found => offers?_of_built (built.trans ?_)
    rw [found]
  · rw [Recorded.bind_assoc]
    rfl

end ShoreMetadata
