import ShoreMetadata.Proofs.Import.Order
import ShoreMetadata.Proofs.Validation.Structure

/-! Documents in another order: at any depth, the attributes of an element in any order, and its
children in one in which those that bring the same still follow each other as before. -/

namespace ShoreMetadata

open Recorded (Agree)
open Structure
open Xml (Element)

namespace Xml.Element

/-- A relation that holds between two elements and between their children, one by one, after those
of the first have been put in another order. -/
inductive Shuffled (R : Element → Element → Prop) : Element → Element → Prop
  | intro {x y : Element} {between : List Element} (here : R x y)
      (order : Rearranged offers? x.children between)
      (inside : List.Forall₂ (Shuffled R) between y.children) : Shuffled R x y

def ChildrenShuffled (R : Element → Element → Prop) (xs ys : List Element) : Prop :=
  ∃ between, Rearranged offers? xs between ∧ List.Forall₂ (Shuffled R) between ys

namespace ChildrenShuffled

variable {R : Element → Element → Prop} {xs ys : List Element} {x y : Element}

theorem isEmpty_eq (shuffled : ChildrenShuffled R xs ys) : xs.isEmpty = ys.isEmpty := by
  obtain ⟨between, order, inside⟩ := shuffled
  exact order.isEmpty_eq.trans (isEmpty_eq_of_forall₂ inside)

private theorem of_singleton (shuffled : ChildrenShuffled R [x] ys) :
    ∃ y, ys = [y] ∧ x.Shuffled R y := by
  obtain ⟨between, order, inside⟩ := shuffled
  rw [order.eq_singleton] at inside
  cases inside with
  | cons pair rest =>
      cases rest
      exact ⟨_, rfl, pair⟩

private theorem to_singleton (shuffled : ChildrenShuffled R xs [y]) :
    ∃ x, xs = [x] ∧ x.Shuffled R y := by
  obtain ⟨between, order, inside⟩ := shuffled
  cases inside with
  | cons pair rest =>
      cases rest
      exact ⟨_, order.symm.eq_singleton, pair⟩

end ChildrenShuffled

namespace Shuffled

variable {P : Element → Prop} {R S : Element → Element → Prop} {x y : Element}

theorem here (shuffled : x.Shuffled R y) : R x y := by
  cases shuffled
  assumption

theorem inside (shuffled : x.Shuffled R y) : ChildrenShuffled R x.children y.children := by
  cases shuffled with
  | intro _ order inside => exact ⟨_, order, inside⟩

@[elab_as_elim]
theorem induction {motive : Element → Element → Prop}
    (step : ∀ {x y} between, R x y → Rearranged offers? x.children between →
      List.Forall₂ (fun c d => Shuffled R c d ∧ motive c d) between y.children → motive x y)
    (shuffled : x.Shuffled R y) : motive x y := by
  induction x using Element.induction generalizing y with
  | step x ih =>
      obtain ⟨between, order, inside⟩ := shuffled.inside
      refine step between shuffled.here order ?_
      have known : ∀ c ∈ between, ∀ {d}, Shuffled R c d → motive c d :=
        fun c member => ih c (order.perm.mem_iff.mpr member)
      have pairs := (List.forall₂_and_left _ _).mpr ⟨known, inside⟩
      exact pairs.imp fun _ _ pair => ⟨pair.2, pair.1 pair.2⟩

theorem mono (imp : ∀ x y, P x → R x y → S x y) (everywhere : x.Everywhere P)
    (shuffled : x.Shuffled R y) : x.Shuffled S y := by
  induction everywhere generalizing y with
  | @intro x here _ ih =>
      obtain ⟨between, order, inside⟩ := shuffled.inside
      refine .intro (imp x y here shuffled.here) order ?_
      have known : ∀ c ∈ between, ∀ {d}, Shuffled R c d → Shuffled S c d :=
        fun c member => ih c (order.perm.mem_iff.mpr member)
      have pairs := (List.forall₂_and_left _ _).mpr ⟨known, inside⟩
      exact pairs.imp fun _ _ pair => pair.1 pair.2

end Shuffled

end Xml.Element

variable {config : Config} {x y : Element}

def Offspring.Shuffled (a c : Offspring) : Prop :=
  ∃ b : Offspring, a.Rearranged b ∧ b.Alike c

private theorem buildChildren_shuffled {xs between ys : List Element}
    (order : Rearranged Element.offers? xs between)
    (alike : List.Forall₂ (BuiltAlike config) between ys) :
    Agree Offspring.Shuffled (buildChildren config xs) (buildChildren config ys) :=
  (buildChildren_rearranged order).trans (buildChildren_alike alike)
    fun _ b _ rearranged related => ⟨b, rearranged, related⟩

private theorem Entity.adoptAll_shuffled {k : Kind} (e : Entity k) {a c : Offspring}
    (shuffled : a.Shuffled c) (place place' : Place) :
    Agree Eq ((e.describe a.description).adoptAll config place a.children)
      ((e.describe c.description).adoptAll config place' c.children) := by
  obtain ⟨b, rearranged, related⟩ := shuffled
  rw [rearranged.description, related.description]
  refine (adoptAll_rearranged place _ rearranged.children).trans ?_ fun _ _ _ => Eq.trans
  exact adoptAll_alike place place' _ related.children

private theorem buildElement_shuffled (shuffled : x.Shuffled Element.ReadsAlike y) :
    Agree Eq (buildElement config x) (buildElement config y) := by
  refine shuffled.induction fun {x y} between alike order inside => ?_
  have built : List.Forall₂ (BuiltAlike config) between y.children :=
    inside.imp fun _ _ pair => ⟨pair.1.here, pair.2⟩
  obtain ⟨name, attributes, children, text, position⟩ := x
  obtain ⟨name', attributes', children', text', position'⟩ := y
  rw [buildElement, buildElement, ← alike.role]
  cases known : Role.ofTag? name with
  | none => exact unknownElement_alike _ _
  | some role =>
      cases role with
      | entity k =>
          have read := alike.attributes k known config
          refine (Agree.ofExcept read).bind_eq fun e => ?_
          refine (buildChildren_shuffled order built).bind fun a c offspring => ?_
          exact (e.adoptAll_shuffled offspring _ _).bind_eq fun e => .ok rfl
      | wrapper w =>
          change Agree Eq (buildContent config w.contentTags children) _
          rw [buildContent_rearranged w order]
          exact buildContent_alike w built
      | description => exact .ok rfl

private theorem buildDocument_shuffled (d : Document) {xs ys : List Element}
    (shuffled : Element.ChildrenShuffled Element.ReadsAlike xs ys) :
    Agree Eq (buildDocument config d xs) (buildDocument config d ys) := by
  obtain ⟨between, order, inside⟩ := shuffled
  refine (buildDocument_rearranged d order).trans ?_ fun _ _ _ => Eq.trans
  clear order
  induction inside generalizing d with
  | nil => exact .ok rfl
  | cons here _ ih =>
      refine (buildElement_shuffled here).bind_eq fun built => ?_
      cases built with
      | none => exact ih d
      | some e => exact ih (d.insert e).1

namespace Inversion

private theorem filter_tags_shuffled {xs ys : List Element}
    (shuffled : Element.ChildrenShuffled Element.ReadsAlike xs ys) (role : Role)
    (plain : role.wrapper? = none) :
    List.Forall₂ (Element.Shuffled Element.ReadsAlike) (xs.filter (·.hasTagIn role.tags))
      (ys.filter (·.hasTagIn role.tags)) := by
  obtain ⟨between, order, inside⟩ := shuffled
  rw [order.filter_eq fun x tagged =>
    x.offers?_of_role role (Element.hasTagIn_tags_iff.mp tagged) plain]
  refine List.rel_filter (fun child child' shuffled => ?_) inside
  exact Bool.eq_iff_iff.mp (Element.hasTagIn_tags_congr shuffled.here.role role)

private theorem emptied_shuffled (shuffled : x.Shuffled Element.ReadsAlike y)
    (group : Role.ofTag? x.name = some (.entity .dataProducerGroup)) :
    (emptied x).Shuffled Element.ReadsAlike (emptied y) := by
  have texts := filter_tags_shuffled shuffled.inside .description rfl
  refine .intro (readsAlike_emptied shuffled.here group ?_) (.refl _) ?_
  · exact texts.imp fun _ _ pair => pair.here.text
  · rw [children_emptied, children_emptied]
    exact .nil

private theorem pushChild_shuffled {copy copy' : Element}
    (shuffled : x.Shuffled Element.ReadsAlike y) (copies : copy.Shuffled Element.ReadsAlike copy') :
    (x.pushChild copy).Shuffled Element.ReadsAlike (y.pushChild copy') := by
  obtain ⟨between, order, inside⟩ := shuffled.inside
  exact .intro (shuffled.here.withChildren _ _) (order.append_right [copy])
    (List.rel_append inside (.cons copies .nil))

private theorem children_invert_of_ne_singleton (several : ∀ group, x.children ≠ [group]) :
    (invert x).children = x.children := by
  rw [children_invert]
  split
  · rename_i group only
    exact absurd only (several group)
  · rfl

private theorem children_invert_shuffled
    (shuffled : Element.ChildrenShuffled Element.ReadsAlike x.children y.children) :
    Element.ChildrenShuffled Element.ReadsAlike (invert x).children (invert y).children := by
  by_cases only : ∃ g, x.children = [g]
  · obtain ⟨g, only⟩ := only
    obtain ⟨h, only', pair⟩ := (only ▸ shuffled).of_singleton
    have tagged : g.hasTag Kind.dataProducerGroup.tag = h.hasTag Kind.dataProducerGroup.tag := by
      simpa [Element.hasTagIn, Role.tags, Kind.acceptedTags] using
        Element.hasTagIn_tags_congr pair.here.role (.entity .dataProducerGroup)
    rw [children_invert, children_invert, only, only']
    dsimp only
    rw [← tagged, ← pair.inside.isEmpty_eq]
    split
    · rename_i sole
      rw [Bool.and_eq_true] at sole
      have group : Role.ofTag? g.name = some (.entity .dataProducerGroup) :=
        Role.ofTag?_eq_some_iff.mpr ⟨_, List.mem_singleton_self _, sole.1⟩
      have members := filter_tags_shuffled pair.inside (.entity .dataProducer) rfl
      refine ⟨_, .refl _, List.rel_map (fun member member' shuffled => ?_) members⟩
      exact pushChild_shuffled shuffled (emptied_shuffled pair group)
    · exact ⟨[g], .refl _, .cons pair .nil⟩
  · have several : ∀ g, x.children ≠ [g] := fun g same => only ⟨g, same⟩
    have several' : ∀ h, y.children ≠ [h] := by
      intro h same
      obtain ⟨g, same, _⟩ := (same ▸ shuffled).to_singleton
      exact several g same
    rwa [children_invert_of_ne_singleton several, children_invert_of_ne_singleton several']

end Inversion

namespace Xml.Element

/-- Elements with the same tag and text and with the same attributes in some order. -/
structure SameButOrder (x y : Element) : Prop where
  name : x.name = y.name
  attributes : x.attributes.Perm y.attributes
  text : x.text = y.text

/-- Trees that differ only in the order of attributes and of children, anywhere. The children of
an element that bring it entities of one kind, and its descriptions, keep theirs. -/
def Reordered : Element → Element → Prop :=
  Shuffled SameButOrder

theorem Reordered.refl (x : Element) : x.Reordered x := by
  induction x using Element.induction with
  | step x ih => exact .intro ⟨rfl, .refl _, rfl⟩ (.refl _) (List.forall₂_same.mpr ih)

def uses (x : Element) (k : Kind) : List AttributeUse :=
  x.attributes.filterMap fun a => k.attributeUse? a.1

/-- No two attributes tell the same, whatever they are named. -/
def UsesDistinct (x : Element) : Prop :=
  ∀ k, Role.ofTag? x.name = some (.entity k) → (x.uses k).Nodup

instance : DecidablePred UsesDistinct := fun x =>
  decidable_of_iff (∀ k ∈ Kind.all, Role.ofTag? x.name = some (.entity k) → (x.uses k).Nodup) <| by
    constructor
    · intro distinct k
      exact distinct k k.mem_all
    · intro distinct k _
      exact distinct k

private theorem SameButOrder.usesDistinct (same : x.SameButOrder y) (distinct : x.UsesDistinct) :
    y.UsesDistinct := by
  intro k role
  rw [← same.name] at role
  exact (same.attributes.filterMap _).nodup_iff.mp (distinct k role)

theorem SameButOrder.readAs? (same : x.SameButOrder y) (distinct : x.UsesDistinct)
    (config : Config) {k : Kind} (role : Role.ofTag? x.name = some (.entity k)) :
    x.readAs? config k = y.readAs? config k := by
  have sameAttributes : List.Forall₂ k.AttributesAlike y.attributes y.attributes :=
    List.forall₂_same.mpr fun _ _ => ⟨rfl, rfl, rfl⟩
  rw [Element.readAs?, Element.readAs?, ← same.name,
    Entity.toOption_readAttributes_perm _ _ (distinct k role) same.attributes]
  exact Entity.toOption_readAttributes _ _ _ sameAttributes

private theorem UsesDistinct.readAs?_setAttribute (distinct : x.UsesDistinct)
    (group : Role.ofTag? x.name = some (.entity .dataProducerGroup)) (text : String)
    (config : Config) :
    (x.setAttribute descriptionTag text).readAs? config .dataProducerGroup =
      (x.readAs? config .dataProducerGroup).map (·.set .description (some text)) := by
  rw [Element.readAs?, Element.readAs?, ← Except.toOption_map]
  refine congrArg Except.toOption
    (Entity.readAttributes_setIn_of_single config _ _ (by decide) ?_ text)
  refine (List.pairwise_filterMap.mp (distinct _ group)).imp fun other first second => ?_
  exact other _ first _ second rfl

theorem SameButOrder.readsAlike (same : x.SameButOrder y) (distinct : x.UsesDistinct) :
    x.ReadsAlike y where
  role := by rw [same.name]
  text := congrArg Text.trim same.text
  attributes := fun _ role config => same.readAs? distinct config role
  described := by
    intro group text config
    rw [distinct.readAs?_setAttribute group,
      (same.usesDistinct distinct).readAs?_setAttribute (same.name ▸ group),
      same.readAs? distinct config group]

end Xml.Element

namespace Structure

private theorem forall_mem_iff_of_shuffled {P : Element → Prop} {xs between ys : List Element}
    (order : Rearranged Element.offers? xs between)
    (same : List.Forall₂ (fun c d => P c ↔ P d) between ys) :
    (∀ c ∈ xs, P c) ↔ ∀ d ∈ ys, P d := by
  have moved : (∀ c ∈ xs, P c) ↔ ∀ c ∈ between, P c := by
    simp only [order.perm.mem_iff]
  rw [moved]
  clear order moved
  induction same with
  | nil => simp
  | cons here _ ih => simp only [List.forall_mem_cons, here, ih]

private theorem check_wrapper_eq_nil_iff_forall {w : Wrapper} :
    check (some (.wrapper w)) x = [] ↔ x.children.length = 1 ∧ ∀ child ∈ x.children,
      child.hasTagIn w.contentTags = true ∧ check (some (.entity w.contentKind)) child = [] := by
  rw [check_wrapper_eq_nil_iff, List.length_eq_one_iff]
  constructor
  · rintro ⟨content, only, valid⟩
    exact ⟨⟨content, only⟩, by simpa [only] using valid⟩
  · rintro ⟨⟨content, only⟩, valid⟩
    exact ⟨content, only, by simpa [only] using valid⟩

private theorem check_reordered (reordered : x.Reordered y) :
    ∀ role, check role x = [] ↔ check role y = [] := by
  refine reordered.induction fun {x y} between same order inside => ?_
  have length := order.perm.length_eq.trans inside.length_eq
  have tagged : ∀ {c d : Element}, c.SameButOrder d →
      ∀ tags, c.hasTagIn tags = d.hasTagIn tags := by
    intro c d same tags
    have each : c.hasTag = d.hasTag := funext fun tag => by
      rw [Element.hasTag, Element.hasTag, same.name]
    rw [Element.hasTagIn, Element.hasTagIn, each]
  intro role
  cases role with
  | none => exact iff_of_false check_none_ne_nil check_none_ne_nil
  | some role =>
      cases role with
      | entity k =>
          rw [check_entity_eq_nil_iff, check_entity_eq_nil_iff, attributeViolations_eq_nil_iff,
            attributeViolations_eq_nil_iff]
          refine and_congr (by simp only [same.attributes.mem_iff]) ?_
          refine forall_mem_iff_of_shuffled order (inside.imp fun c d pair => ?_)
          rw [tagged pair.1.here, pair.1.here.name, pair.2]
      | wrapper w =>
          rw [check_wrapper_eq_nil_iff_forall, check_wrapper_eq_nil_iff_forall, length]
          refine and_congr Iff.rfl ?_
          refine forall_mem_iff_of_shuffled order (inside.imp fun c d pair => ?_)
          rw [tagged pair.1.here, pair.2]
      | description =>
          rw [check_description_eq_nil_iff, check_description_eq_nil_iff,
            ← List.length_eq_zero_iff, ← List.length_eq_zero_iff, length]

private theorem violations_reordered (reordered : x.Reordered y) :
    violations x = [] ↔ violations y = [] := by
  obtain ⟨between, order, inside⟩ := reordered.inside
  rw [violations_eq_nil_iff, violations_eq_nil_iff, Element.hasTag, Element.hasTag,
    reordered.here.name]
  refine and_congr Iff.rfl (forall_mem_iff_of_shuffled order (inside.imp fun c d pair => ?_))
  rw [checkTop_eq_nil_iff, checkTop_eq_nil_iff, pair.here.name]
  simp only [check_reordered pair]

end Structure

/-- Documents that differ only in the order give the same with equally many problems, or both fail,
and one is valid if the other is. -/
theorem readTree_reordered (config : Config) {x y : Element}
    (distinct : x.Everywhere Element.UsesDistinct) (reordered : x.Reordered y) :
    Agree Eq (readTree config x) (readTree config y) ∧ (violations x = [] ↔ violations y = []) := by
  have valid := violations_reordered reordered
  have readAlike : x.Shuffled Element.ReadsAlike y :=
    reordered.mono (fun _ _ distinct same => same.readsAlike distinct) distinct
  refine ⟨readTree_agree ?_ valid ?_, valid⟩
  · rw [Element.hasTag, Element.hasTag, reordered.here.name]
  · exact buildDocument_shuffled .empty (Inversion.children_invert_shuffled readAlike.inside)

theorem readTree_reordered_producer :
    let output : Element := ⟨"output", [], [.ofName "DataFile"], "", .none⟩
    let software : Element :=
      ⟨"Software", [("version", "v2"), ("softwareVersion", "1")], [], "", .none⟩
    let software' : Element :=
      ⟨"Software", [("softwareVersion", "1"), ("version", "v2")], [], "", .none⟩
    let x : Element := ⟨"Metadata", [], [⟨"Deployment", [("name", "M1")],
      [.ofText "description" "a", software, .ofText "description" "b", output], "", .none⟩], "",
      .none⟩
    let y : Element := ⟨"Metadata", [], [⟨"Deployment", [("name", "M1")],
      [output, .ofText "description" "a", .ofText "description" "b", software'], "", .none⟩], "",
      .none⟩
    x.Everywhere Element.UsesDistinct ∧ x.Reordered y ∧ (readTree {} x).result.isOk = true ∧
      Agree Eq (readTree {} x) (readTree {} y) ∧ (violations x = [] ↔ violations y = []) := by
  intro output software software' x y
  have distinct : x.Everywhere Element.UsesDistinct := by decide +kernel
  have order : Rearranged Element.offers?
      [.ofText "description" "a", software, .ofText "description" "b", output]
      [output, .ofText "description" "a", .ofText "description" "b", software] := by
    refine .trans (.cons _ (.swap (.of_ne ?_) _)) ?_
    · decide
    refine .trans (.cons _ (.cons _ (.swap (.of_ne ?_) _))) ?_
    · decide
    refine .trans (.cons _ (.swap (.of_ne ?_) _)) (.swap (.of_ne ?_) _)
    · decide
    · decide
  have moved : software.Reordered software' := .intro ⟨rfl, .swap _ _ [], rfl⟩ (.refl []) .nil
  have reordered : x.Reordered y := by
    refine .intro ⟨rfl, .refl _, rfl⟩ (.refl _) (.cons (.intro ⟨rfl, .refl _, rfl⟩ order ?_) .nil)
    exact .cons (Element.Reordered.refl _) (.cons (Element.Reordered.refl _)
      (.cons (Element.Reordered.refl _) (.cons moved .nil)))
  exact ⟨distinct, reordered, by decide +kernel, readTree_reordered {} distinct reordered⟩

end ShoreMetadata
