import ShoreMetadata.Proofs.Import.Build
import ShoreMetadata.Proofs.Schema.Tag

/-! Documents of later schemas. A lenient reading passes over attributes and elements that are
unknown: wherever they are added to a tree, the entity is the same, and each added element that is
come across is noted. -/

namespace ShoreMetadata

open Xml (Element)

/-- A list that consists of two others, each in its order. -/
inductive Interleaves {α : Type} : List α → List α → List α → Prop
  | nil : Interleaves [] [] []
  | left {a : α} {xs ys zs : List α} (rest : Interleaves xs ys zs) :
      Interleaves (a :: xs) ys (a :: zs)
  | right {a : α} {xs ys zs : List α} (rest : Interleaves xs ys zs) :
      Interleaves xs (a :: ys) (a :: zs)

namespace Interleaves

variable {α : Type} {xs ys zs xs' ys' zs' : List α}

private theorem self (xs : List α) : Interleaves xs [] xs := by
  induction xs with
  | nil => exact .nil
  | cons a xs ih => exact .left ih

theorem append (first : Interleaves xs ys zs) (second : Interleaves xs' ys' zs') :
    Interleaves (xs ++ xs') (ys ++ ys') (zs ++ zs') := by
  induction first with
  | nil => exact second
  | left _ ih => exact .left ih
  | right _ ih => exact .right ih

end Interleaves

namespace Recorded

private theorem bind_pure (x : Recorded α) : x >>= pure = x := by
  obtain ⟨problems, result⟩ := x
  cases result with
  | error e => rfl
  | ok a => exact congrArg (Recorded.mk · _) (List.append_nil problems)

/-- A computation ends like another and, if it succeeds, notes more problems among those of the
other. -/
structure Grows (more : List Problem) (x y : Recorded α) : Prop where
  result : y.result = x.result
  problems : ∀ a, x.result = .ok a → Interleaves x.problems more y.problems

namespace Grows

variable {more others : List Problem} {x y : Recorded α} {next next' : α → Recorded β}

theorem refl (x : Recorded α) : Grows [] x x :=
  ⟨rfl, fun _ _ => .self x.problems⟩

theorem bind (first : Grows more x y) (then_ : ∀ a, Grows others (next a) (next' a)) :
    Grows (more ++ others) (x >>= next) (y >>= next') := by
  obtain ⟨problems, result⟩ := x
  obtain ⟨problems', result'⟩ := y
  obtain ⟨same, noted⟩ := first
  change result' = result at same
  subst same
  cases result' with
  | error e => exact ⟨rfl, fun _ ended => by cases ended⟩
  | ok a =>
      exact ⟨(then_ a).result, fun b ended => (noted a rfl).append ((then_ a).problems b ended)⟩

theorem noted (problem : Problem) (a : α) : Grows [problem] (.ok a) ⟨[problem], .ok a⟩ :=
  ⟨rfl, fun _ _ => .right .nil⟩

theorem behind (x : Recorded α) (then_ : ∀ a, Grows more (next a) (next' a)) :
    Grows more (x >>= next) (x >>= next') :=
  (refl x).bind then_

theorem before (first : Grows more x y) (next : α → Recorded β) :
    Grows more (x >>= next) (y >>= next) := by
  have both := first.bind fun a => refl (next a)
  rwa [List.append_nil] at both

end Grows

end Recorded

open Recorded (Grows)

structure MarkedAttribute where
  added : Bool
  name : String
  value : String

def MarkedAttribute.entry (a : MarkedAttribute) : String × String :=
  (a.name, a.value)

mutual
/-- An element to which attributes were added that its kind does not know, and elements of unknown
tags, here and in its children. -/
inductive Drift
  | mk (name : String) (attributes : List MarkedAttribute)
      (unknown : ∀ a ∈ attributes, a.added = true → ∀ k, Role.ofTag? name = some (.entity k) →
        k.attributeUse? a.name = none)
      (children : Drifts) (text : String) (position : Xml.Position)

inductive Drifts
  | nil
  | kept (child : Drift) (rest : Drifts)
  | added (e : Element) (unknown : Role.ofTag? e.name = none) (rest : Drifts)
end

def Drift.name : Drift → String
  | .mk name _ _ _ _ _ => name

mutual
def Drift.before : Drift → Element
  | .mk name attributes _ children text position =>
    ⟨name, (attributes.filter (!·.added)).map (·.entry), children.before, text, position⟩

def Drifts.before : Drifts → List Element
  | .nil => []
  | .kept child rest => child.before :: rest.before
  | .added _ _ rest => rest.before
end

mutual
def Drift.after : Drift → Element
  | .mk name attributes _ children text position =>
    ⟨name, attributes.map (·.entry), children.after, text, position⟩

def Drifts.after : Drifts → List Element
  | .nil => []
  | .kept child rest => child.after :: rest.after
  | .added e _ rest => e :: rest.after
end

mutual
/-- The added elements that are come across: those under entities, but none in descriptions, in
unknown elements or in what a wrapper does not stand for. -/
def Drift.met : Drift → List Element
  | .mk name _ _ children _ _ =>
    match Role.ofTag? name with
    | some (.entity _) => children.met
    | some (.wrapper w) => children.metIn w.contentTags
    | some .description => []
    | none => []

def Drifts.met : Drifts → List Element
  | .nil => []
  | .kept child rest => child.met ++ rest.met
  | .added e _ rest => e :: rest.met

def Drifts.metIn (tags : List String) : Drifts → List Element
  | .nil => []
  | .kept child rest => if tags.any (Text.sameName child.name) then child.met else rest.metIn tags
  | .added _ _ rest => rest.metIn tags
end

def unknownProblem (e : Element) : Problem :=
  .unknownElement e.name e.position.line

private theorem Drift.name_before (d : Drift) : d.before.name = d.name := by
  cases d
  rfl

private theorem Drift.name_after (d : Drift) : d.after.name = d.name := by
  cases d
  rfl

private theorem Drift.text_after (d : Drift) : d.after.text = d.before.text := by
  cases d
  rfl

private theorem Drift.met_of_description {d : Drift}
    (role : Role.ofTag? d.name = some .description) : d.met = [] := by
  obtain ⟨name, attributes, unknown, children, text, position⟩ := d
  change Role.ofTag? name = _ at role
  rw [met, role]

/-! Building does not see what is unknown. -/

section

variable {config : Config} (isLenient : config.isStrict = false)

include isLenient

private theorem readAttributes_added {k : Kind} (place : Place) (e : Entity k)
    {attributes : List MarkedAttribute}
    (unknown : ∀ a ∈ attributes, a.added = true → k.attributeUse? a.name = none) :
    e.readAttributes config place (attributes.map (·.entry)) =
      e.readAttributes config place ((attributes.filter (!·.added)).map (·.entry)) := by
  induction attributes generalizing e with
  | nil => rfl
  | cons a rest ih =>
      rw [List.forall_mem_cons] at unknown
      cases added : a.added with
      | true =>
          have skipped : e.readAttribute config place a.name a.value = .ok e := by
            rw [Entity.readAttribute, unknown.1 added, isLenient]
            rfl
          have dropped : (a :: rest).filter (!·.added) = rest.filter (!·.added) := by
            simp [added]
          rw [dropped, ← ih e unknown.2, List.map_cons, MarkedAttribute.entry,
            Entity.readAttributes, skipped]
          rfl
      | false =>
          have kept : (a :: rest).filter (!·.added) = a :: rest.filter (!·.added) := by
            simp [added]
          rw [kept, List.map_cons, List.map_cons, MarkedAttribute.entry, Entity.readAttributes,
            Entity.readAttributes]
          exact congrArg _ (funext fun next => ih next unknown.2)

private theorem unknownElement_eq {e : Element} (unknown : Role.ofTag? e.name = none) :
    buildElement config e = ⟨[unknownProblem e], .ok none⟩ := by
  rw [buildElement_of_none unknown, unknownElement, isLenient]
  rfl

end

variable {config : Config}

mutual
private theorem grows_buildElement (isLenient : config.isStrict = false) : ∀ d : Drift,
    Grows (d.met.map unknownProblem) (buildElement config d.before) (buildElement config d.after)
  | .mk name attributes unknown children text position => by
      rw [Drift.before, Drift.after, Drift.met, buildElement, buildElement]
      cases role : Role.ofTag? name with
      | none => exact .refl _
      | some found =>
          cases found with
          | description => exact .refl _
          | wrapper w => exact grows_buildContent isLenient w children
          | entity k =>
              dsimp only
              rw [readAttributes_added isLenient _ _ fun a member added =>
                unknown a member added k role]
              exact .behind _ fun e => (grows_buildChildren isLenient children).before _

private theorem grows_buildChildren (isLenient : config.isStrict = false) : ∀ ds : Drifts,
    Grows (ds.met.map unknownProblem) (buildChildren config ds.before)
      (buildChildren config ds.after)
  | .nil => .refl _
  | .kept child rest => by
      have described := Element.hasTag_description_congr (x := child.after) (y := child.before)
        (by rw [child.name_after, child.name_before])
      rw [Drifts.before, Drifts.after, Drifts.met, buildChildren, buildChildren, described,
        List.map_append]
      split
      · rename_i isDescription
        rw [Element.hasTag_description_iff, child.name_before] at isDescription
        have texts : child.after.textContent = child.before.textContent := by
          rw [Element.textContent, Element.textContent, child.text_after]
        rw [child.met_of_description isDescription, texts]
        exact (grows_buildChildren isLenient rest).before _
      · have names : child.after.name = child.before.name := by
          rw [child.name_after, child.name_before]
        rw [names]
        exact (grows_buildElement isLenient child).bind fun built =>
          (grows_buildChildren isLenient rest).before _
  | .added e unknown rest => by
      have noDescription : ¬e.hasTag descriptionTag = true := by
        rw [Element.hasTag_description_iff, unknown]
        nofun
      rw [Drifts.before, Drifts.after, Drifts.met, buildChildren, if_neg noDescription,
        unknownElement_eq isLenient unknown]
      have both := (Grows.noted (unknownProblem e) (none : Option AnyEntity)).bind fun _ =>
        (grows_buildChildren isLenient rest).before pure
      rwa [Recorded.bind_ok, Recorded.bind_pure] at both

private theorem grows_buildContent (isLenient : config.isStrict = false) (w : Wrapper) :
    ∀ ds : Drifts,
    Grows ((ds.metIn w.contentTags).map unknownProblem)
      (buildContent config w.contentTags ds.before) (buildContent config w.contentTags ds.after)
  | .nil => .refl _
  | .kept child rest => by
      have fit : child.after.hasTagIn w.contentTags = child.before.hasTagIn w.contentTags := by
        refine Element.hasTagIn_tags_congr ?_ (.entity w.contentKind)
        rw [child.name_after, child.name_before]
      have same : w.contentTags.any (Text.sameName child.name) =
          child.before.hasTagIn w.contentTags := by
        rw [← child.name_before]
        rfl
      rw [Drifts.before, Drifts.after, Drifts.metIn, buildContent, buildContent, fit, same]
      split
      · exact grows_buildElement isLenient child
      · exact grows_buildContent isLenient w rest
  | .added e unknown rest => by
      have unfit : ¬e.hasTagIn w.contentTags = true := by
        rw [show w.contentTags = (Role.entity w.contentKind).tags from rfl,
          Element.hasTagIn_tags_iff, unknown]
        nofun
      rw [Drifts.before, Drifts.after, Drifts.metIn, buildContent, if_neg unfit]
      exact grows_buildContent isLenient w rest
end

/-- To a lenient session attributes and elements that are unknown make no difference but one: of
those that are added anywhere to a tree, each element that is come across is noted once. -/
theorem buildElement_drift (session : Session) (isLenient : session.config.isStrict = false)
    (d : Drift) :
    (session.buildElement d.after).2 = (session.buildElement d.before).2 ∧
      ∀ r, (session.buildElement d.before).2 = .ok r → ∃ noted grown,
        (session.buildElement d.before).1.problems = session.problems ++ noted ∧
        (session.buildElement d.after).1.problems = session.problems ++ grown ∧
        Interleaves noted (d.met.map unknownProblem) grown := by
  have grows := grows_buildElement isLenient d
  exact ⟨grows.result, fun r built => ⟨_, _, rfl, rfl, grows.problems r built⟩⟩

private theorem unknown_of_role {name : String} {k : Kind} {attributes : List MarkedAttribute}
    (role : Role.ofTag? name = some (.entity k))
    (unknown : ∀ a ∈ attributes, a.added = true → k.attributeUse? a.name = none) :
    ∀ a ∈ attributes, a.added = true → ∀ k, Role.ofTag? name = some (.entity k) →
      k.attributeUse? a.name = none := by
  intro a member added other told
  cases role.symm.trans told
  exact unknown a member added

def laterElement : Element :=
  (Element.ofName "Mooring").pushChild ⟨"Event", [("startDate", "noon")], [], "", ⟨3, 9⟩⟩

def driftedFile : Drift :=
  .mk "DataFile" [⟨true, "checksum", "0"⟩]
    (unknown_of_role (k := .dataContainer) (by decide +kernel) (by decide +kernel))
    (.added (.ofName "Licence") (by decide +kernel) .nil) "" .none

def driftedProducer : Drift :=
  .mk "Deployment" [⟨true, "vessel", "a"⟩, ⟨false, "name", "p"⟩]
    (unknown_of_role (k := .dataProducer) (by decide +kernel) (by decide +kernel))
    (.kept (.mk "output" [] (by simp) (.kept driftedFile .nil) "" .none)
      (.added laterElement (by decide +kernel) .nil)) "" .none

theorem buildElement_drift_producer :
    (Session.start {}).config.isStrict = false ∧
      driftedProducer.met = [.ofName "Licence", laterElement] ∧
      ∃ r, ((Session.start {}).buildElement driftedProducer.before).2 = .ok r ∧
        ((Session.start {}).buildElement driftedProducer.after).2 = .ok r ∧
        ∃ noted grown,
          ((Session.start {}).buildElement driftedProducer.before).1.problems = [] ++ noted ∧
          ((Session.start {}).buildElement driftedProducer.after).1.problems = [] ++ grown ∧
          Interleaves noted (driftedProducer.met.map unknownProblem) grown := by
  obtain ⟨r, built⟩ := Recorded.exists_of_isOk
    (show ((Session.start {}).buildElement driftedProducer.before).2.isOk = true by
      decide +kernel)
  have isLenient : (Session.start {}).config.isStrict = false := rfl
  obtain ⟨same, noted⟩ := buildElement_drift (.start {}) isLenient driftedProducer
  exact ⟨isLenient, rfl, r, built, same.trans built, noted r built⟩

end ShoreMetadata
