import ShoreMetadata.Proofs.Document.Basic
import ShoreMetadata.Proofs.Entity.Tree
import ShoreMetadata.Proofs.Import.Build
import ShoreMetadata.Proofs.Scalar
import ShoreMetadata.Proofs.Xml.Tree

/-! Every value in a document that was read, at any depth, is what some text stands for. -/

namespace ShoreMetadata

open Xml (Element)

private theorem Members.mem_of_mem_accept {same : {k : Kind} → Entity k → Entity k → Bool} :
    {a : Arity} → {k : Kind} → (m : Members a k) → {e x : Entity k} →
      x ∈ (m.accept same e).toList → x ∈ m.toList ∨ x = e
  | _, _, .absent, _, _, member => .inr (List.mem_singleton.mp member)
  | _, _, .present _, _, _, member => .inr (List.mem_singleton.mp member)
  | _, _, .nil, _, _, member => .inr (List.mem_singleton.mp member)
  | _, _, .cons first rest, e, x, member => by
      rw [accept] at member
      split at member
      · exact .inl member
      · rw [toList, List.mem_cons] at member ⊢
        rcases member with here | later
        · exact .inl (.inl here)
        · exact (mem_of_mem_accept rest later).imp_left .inr

namespace Entity

variable {k : Kind}

theorem forall_members_accept {same : {k : Kind} → Entity k → Entity k → Bool}
    {P : (t : Slot) → Entity t.target → Prop} {e : Entity k} {s : Slot} {other : Entity s.target}
    (before : ∀ t, ∀ child ∈ e.members t, P t child) (new : P s other) :
    ∀ t, ∀ child ∈ (e.updateLinks fun links =>
      links.update s fun members => members.accept same other).members t, P t child := by
  intro t child member
  change child ∈ ((e.links.update s _).get t).toList at member
  by_cases alike : s = t
  · subst alike
    by_cases known : s ∈ k.slots
    · rw [Links.get_update_same _ known] at member
      rcases Members.mem_of_mem_accept _ member with held | rfl
      · exact before s child held
      · exact new
    · rw [Links.get_of_not_mem _ known, Members.toList_empty] at member
      cases member
  · rw [Links.get_update_of_ne _ alike] at member
    exact before t child member

def FromText (e : Entity k) : Prop :=
  ∀ f v, e.get? f = some v → ∃ s, f.type.parse? s = some v

abbrev AllFromText (e : Entity k) : Prop :=
  e.Everywhere fun _ x => x.FromText

private theorem allFromText_empty (k : Kind) : (empty k).AllFromText := by
  refine .intro (fun f v stored => ?_) fun s child member => ?_
  · rw [get?_empty] at stored
    cases stored
  · rw [members_empty] at member
    cases member

section

variable {e : Entity k} (fromText : e.AllFromText)

include fromText

theorem AllFromText.set {f : Field} {value : Option f.Value}
    (parsed : ∀ v, value = some v → ∃ s, f.type.parse? s = some v) :
    (e.set f value).AllFromText := by
  refine .intro (fun g v stored => ?_) fromText.inside
  by_cases same : f = g
  · subst same
    by_cases known : f ∈ k.fields
    · rw [get?_set_same e known] at stored
      exact parsed v stored
    · rw [get?_of_not_mem _ known] at stored
      cases stored
  · rw [get?_set_of_ne e same] at stored
    exact fromText.here g v stored

private theorem AllFromText.setText {f : Field} (text : f.type = .text) {value : Option f.Value} :
    (e.set f value).AllFromText :=
  fromText.set fun v _ => FieldType.exists_parse?_of_text text v

theorem AllFromText.setVersion (version : Version) : (e.setVersion version).AllFromText :=
  .intro fromText.here fromText.inside

theorem AllFromText.accept {same : {k : Kind} → Entity k → Entity k → Bool} {s : Slot}
    {other : Entity s.target} (otherFromText : other.AllFromText) :
    (e.updateLinks fun links =>
      links.update s fun members => members.accept same other).AllFromText :=
  .intro fromText.here (forall_members_accept fromText.inside otherFromText)

theorem AllFromText.describe (text : Option String) : (e.describe text).AllFromText := by
  cases text with
  | none => exact fromText
  | some text => exact fromText.setText rfl

end

private theorem allFromText_ofTag (k : Kind) (tag : String) : (ofTag k tag).AllFromText := by
  refine ((allFromText_empty k).set fun type _ => ?_).set fun type _ => ?_
  · change ∃ s, ContainerType.parse? s = some type
    exact ⟨_, ContainerType.parse?_name type⟩
  · change ∃ s, ProducerType.parse? s = some type
    exact ⟨_, ProducerType.parse?_name type⟩

theorem exists_version_of_readVersion {config : Config} {e next : Entity k} {value : String}
    (read : e.readVersion config value = .ok next) :
    ∃ version, next = e.setVersion version ∨
      next = (e.setVersion version).set .softwareVersion (some value) := by
  have stored : ∀ version : Version,
      (if k = .software ∧ version = .unknown ∧
          ((e.setVersion version).get? .softwareVersion).isNone then
        pure ((e.setVersion version).set .softwareVersion (some value))
      else pure (e.setVersion version) : Except Error (Entity k)) = .ok next →
        next = e.setVersion version ∨
          next = (e.setVersion version).set .softwareVersion (some value) := by
    intro version read
    split at read
    · cases read
      exact .inr rfl
    · cases read
      exact .inl rfl
  unfold Entity.readVersion at read
  cases parsed : Version.parse? value with
  | some version =>
      rw [parsed] at read
      exact ⟨version, stored version read⟩
  | none =>
      rw [parsed] at read
      cases strict : config.isStrict with
      | true =>
          rw [strict] at read
          cases read
      | false =>
          rw [strict] at read
          exact ⟨.unknown, stored .unknown read⟩

theorem AllFromText.readVersion {config : Config} {e next : Entity k} {value : String}
    (fromText : e.AllFromText) (read : e.readVersion config value = .ok next) :
    next.AllFromText := by
  obtain ⟨version, rfl | rfl⟩ := exists_version_of_readVersion read
  · exact fromText.setVersion version
  · exact (fromText.setVersion version).setText rfl

theorem AllFromText.readAttribute {config : Config} {place : Place} {e next : Entity k}
    {name value : String} (fromText : e.AllFromText)
    (read : e.readAttribute config place name value = .ok next) : next.AllFromText := by
  unfold Entity.readAttribute at read
  split at read
  · exact fromText.readVersion read
  · rename_i f _
    cases parsed : f.type.read name value with
    | error error =>
        rw [parsed] at read
        cases read
    | ok v =>
        rw [parsed] at read
        cases read
        refine fromText.set fun w same => ?_
        cases same
        exact ⟨value, FieldType.parse?_of_read parsed⟩
  · cases read
    exact fromText.accept ((allFromText_empty _).setText rfl)
  · split at read
    · cases read
    · cases read
      exact fromText

theorem AllFromText.readAttributes {config : Config} {place : Place} {e last : Entity k}
    {attributes : List (String × String)} (fromText : e.AllFromText)
    (read : e.readAttributes config place attributes = .ok last) : last.AllFromText := by
  induction attributes generalizing e with
  | nil =>
      cases read
      exact fromText
  | cons a rest ih =>
      obtain ⟨name, value⟩ := a
      rw [Entity.readAttributes] at read
      cases first : e.readAttribute config place name value with
      | error error =>
          rw [first] at read
          cases read
      | ok next =>
          rw [first] at read
          exact ih (fromText.readAttribute first) read

end Entity

namespace AnyEntity

abbrev AllFromText (e : AnyEntity) : Prop :=
  e.entity.AllFromText

end AnyEntity

open Recorded (Yields)

namespace Entity

variable {k : Kind} {config : Config} {place : Place}

theorem AllFromText.adopt {e : Entity k} (fromText : e.AllFromText) {child : Child}
    (childFromText : child.entity.AllFromText) :
    Yields AllFromText (e.adopt config place child) := by
  unfold Entity.adopt
  cases adopted : e.adopt? child with
  | some next =>
      refine .ok ?_
      simp only [adopt?, Option.bind_eq_bind, Option.bind_eq_some_iff] at adopted
      obtain ⟨s, _, other, cast, shape⟩ := adopted
      cases shape
      rw [AnyEntity.as?_eq_some_iff] at cast
      rw [cast] at childFromText
      exact fromText.accept childFromText
  | none =>
      dsimp only
      split
      · exact .fail _
      · rintro next ⟨⟩
        exact fromText

theorem AllFromText.adoptAll {e : Entity k} (fromText : e.AllFromText) {children : List Child}
    (childrenFromText : ∀ child ∈ children, child.entity.AllFromText) :
    Yields AllFromText (e.adoptAll config place children) := by
  induction children generalizing e with
  | nil => exact .ok fromText
  | cons child rest ih =>
      rw [List.forall_mem_cons] at childrenFromText
      rw [Entity.adoptAll]
      exact (fromText.adopt childrenFromText.1).bind fun next nextFromText =>
        ih nextFromText childrenFromText.2

end Entity

variable {config : Config}

private theorem buildChildren_fromText {children : List Element}
    (built : ∀ child ∈ children,
      Yields (fun r => ∀ e ∈ r, AnyEntity.AllFromText e) (buildElement config child)) :
    Yields (fun offspring => ∀ child ∈ offspring.children, child.entity.AllFromText)
      (buildChildren config children) := by
  induction children with
  | nil => exact .ok fun child none => by cases none
  | cons first rest ih =>
      rw [List.forall_mem_cons] at built
      rw [buildChildren]
      split
      · exact (ih built.2).bind fun offspring inside => .ok inside
      · refine built.1.bind fun r fromText => (ih built.2).bind fun offspring inside => ?_
        cases r with
        | none => exact .ok inside
        | some e =>
            refine .ok ?_
            rw [List.forall_mem_cons]
            exact ⟨fromText e rfl, inside⟩

private theorem buildElement_fromText (x : Element) :
    Yields (fun r => ∀ e ∈ r, AnyEntity.AllFromText e) (buildElement config x) := by
  induction x using Element.induction with
  | step x ih =>
      obtain ⟨name, attributes, children, text, position⟩ := x
      rw [buildElement]
      split
      · rename_i k _
        have read : Yields Entity.AllFromText (Recorded.ofExcept
            ((Entity.ofTag k name).readAttributes config ⟨name, position.line⟩ attributes)) :=
          fun e read => (Entity.allFromText_ofTag k name).readAttributes read
        refine read.bind fun e fromText => ?_
        refine (buildChildren_fromText ih).bind fun offspring inside => ?_
        refine ((fromText.describe offspring.description).adoptAll inside).bind fun e complete => ?_
        refine .ok fun other same => ?_
        cases same
        exact complete
      · rw [buildContent_eq]
        split
        · rename_i content found
          exact ih content (List.mem_of_find?_eq_some found)
        · exact .ok fun e none => by cases none
      · exact .ok fun e none => by cases none
      · unfold unknownElement
        split
        · exact .fail _
        · rintro r ⟨⟩ e none
          cases none

private theorem buildDocument_fromText {d : Document} {children : List Element}
    (before : ∀ e ∈ d.toList, AnyEntity.AllFromText e) :
    Yields (fun d => ∀ e ∈ Document.toList d, AnyEntity.AllFromText e)
      (buildDocument config d children) := by
  induction children generalizing d with
  | nil => exact .ok before
  | cons child rest ih =>
      rw [buildDocument]
      refine (buildElement_fromText child).bind fun r fromText => ?_
      cases r with
      | none => exact ih before
      | some e =>
          refine ih fun x member => ?_
          rcases Document.mem_toList_of_mem_insert member with held | rfl
          · exact before x held
          · exact fromText x rfl

theorem readDocument_fromText (text : String) :
    Yields (fun d => ∀ e ∈ Document.toList d, AnyEntity.AllFromText e)
      (readDocument config text) := by
  have nothing : ∀ e ∈ Document.empty.toList, AnyEntity.AllFromText e := by
    intro e member
    rw [Document.mem_toList, Document.get_empty] at member
    cases member
  intro d accepted
  obtain ⟨root, _, built⟩ := exists_root_of_accepted accepted
  exact buildDocument_fromText nothing d built

end ShoreMetadata
