import Mathlib.Data.List.Forall2
import ShoreMetadata.Proofs.Text.Trim
import ShoreMetadata.Xml.Element

/-! Element trees as wholes: induction over them, properties of every element in
them, and what is left of them without the places and the blanks around texts. -/

namespace ShoreMetadata.Xml.Element

open Text

mutual
theorem induction {motive : Element → Prop}
    (step : ∀ e, (∀ child ∈ e.children, motive child) → motive e) :
    ∀ e, motive e
  | ⟨name, attributes, children, text, position⟩ =>
      step ⟨name, attributes, children, text, position⟩ (inductionAll step children)

private theorem inductionAll {motive : Element → Prop}
    (step : ∀ e, (∀ child ∈ e.children, motive child) → motive e) :
    ∀ children : List Element, ∀ child ∈ children, motive child
  | [], _, member => by cases member
  | first :: rest, child, member => by
      cases member with
      | head => exact induction step first
      | tail _ member => exact inductionAll step rest child member
end

inductive Everywhere (P : Element → Prop) : Element → Prop
  | intro {e : Element} (here : P e) (inside : ∀ child ∈ e.children, Everywhere P child) :
      Everywhere P e

namespace Everywhere

variable {P Q : Element → Prop} {e : Element}

theorem here (everywhere : Everywhere P e) : P e := by
  cases everywhere
  assumption

theorem inside (everywhere : Everywhere P e) :
    ∀ child ∈ e.children, Everywhere P child := by
  cases everywhere
  assumption

theorem mono (imp : ∀ e, P e → Q e) (everywhere : Everywhere P e) : Everywhere Q e := by
  induction everywhere with
  | intro here _ ih => exact .intro (imp _ here) ih

theorem of_children (top : Q e)
    (everywhere : Everywhere (fun x => ∀ child ∈ x.children, Q child) e) : Everywhere Q e := by
  induction everywhere with
  | intro here _ ih => exact .intro top fun child member => ih child member (here child member)

theorem both (first : Everywhere P e) (second : Everywhere Q e) :
    Everywhere (fun x => P x ∧ Q x) e := by
  induction first with
  | intro here _ ih =>
      exact .intro ⟨here, second.here⟩ fun child member =>
        ih child member (second.inside child member)

mutual
def decide (P : Element → Prop) [DecidablePred P] : (e : Element) → Decidable (Everywhere P e)
  | ⟨name, attributes, children, text, position⟩ =>
      letI := decideAll P children
      decidable_of_iff
        (P ⟨name, attributes, children, text, position⟩ ∧ ∀ child ∈ children, Everywhere P child)
        ⟨fun ⟨here, inside⟩ => .intro here inside, fun all => ⟨all.here, all.inside⟩⟩

def decideAll (P : Element → Prop) [DecidablePred P] :
    (children : List Element) → Decidable (∀ child ∈ children, Everywhere P child)
  | [] => .isTrue fun _ member => by cases member
  | child :: rest =>
      letI := decide P child
      letI := decideAll P rest
      decidable_of_iff (Everywhere P child ∧ ∀ other ∈ rest, Everywhere P other)
        List.forall_mem_cons.symm
end

instance [DecidablePred P] (e : Element) : Decidable (Everywhere P e) :=
  decide P e

end Everywhere

theorem everywhere_of_forall {P : Element → Prop} (all : ∀ e, P e) (e : Element) :
    e.Everywhere P := by
  induction e using Element.induction with
  | step e ih => exact .intro (all e) ih

inductive Occurs (x : Element) : Element → Prop
  | here : Occurs x x
  | inside {e child : Element} (member : child ∈ e.children) (within : Occurs x child) :
      Occurs x e

theorem Occurs.of_everywhere {P : Element → Prop} {x e : Element} (occurs : x.Occurs e)
    (everywhere : e.Everywhere P) : P x := by
  induction occurs with
  | here => exact everywhere.here
  | inside member _ ih => exact ih (everywhere.inside _ member)

theorem Occurs.trans {x y e : Element} (inner : x.Occurs y) (outer : y.Occurs e) : x.Occurs e := by
  induction outer with
  | here => exact inner
  | inside member _ ih => exact .inside member ih

theorem isEmpty_eq_of_forall₂ {R : Element → Element → Prop} {xs ys : List Element}
    (related : List.Forall₂ R xs ys) : xs.isEmpty = ys.isEmpty := by
  cases related <;> rfl

/-- A relation that holds between two elements and between their children, one by one. -/
inductive Along (R : Element → Element → Prop) : Element → Element → Prop
  | intro {x y : Element} (here : R x y) (inside : List.Forall₂ (Along R) x.children y.children) :
      Along R x y

namespace Along

variable {P : Element → Prop} {R S : Element → Element → Prop} {x y : Element}

theorem here (along : Along R x y) : R x y := by
  cases along
  assumption

theorem inside (along : Along R x y) : List.Forall₂ (Along R) x.children y.children := by
  cases along
  assumption

@[elab_as_elim]
theorem induction {motive : Element → Element → Prop}
    (step : ∀ {x y}, R x y → List.Forall₂ (fun c d => R c d ∧ motive c d) x.children y.children →
      motive x y) (along : Along R x y) : motive x y := by
  induction x using Element.induction generalizing y with
  | step x ih =>
      have pairs := (List.forall₂_and_left _ _).mpr ⟨ih, along.inside⟩
      exact step along.here (pairs.imp fun _ _ pair => ⟨pair.2.here, pair.1 pair.2⟩)

theorem mono (imp : ∀ x y, P x → R x y → S x y) (everywhere : x.Everywhere P)
    (along : Along R x y) : Along S x y := by
  induction everywhere generalizing y with
  | @intro x here _ ih =>
      refine .intro (imp x y here along.here) ?_
      have pairs := (List.forall₂_and_left _ _).mpr ⟨ih, along.inside⟩
      exact pairs.imp fun _ _ pair => pair.1 pair.2

end Along

mutual
def withTexts (f : String → String) : Element → Element
  | ⟨name, attributes, children, text, _⟩ =>
      ⟨name, attributes, allWithTexts f children, f text, .none⟩

def allWithTexts (f : String → String) : List Element → List Element
  | [] => []
  | child :: rest => child.withTexts f :: allWithTexts f rest
end

/-- The tree without the places its elements were read from. -/
def unplaced (e : Element) : Element :=
  e.withTexts id

/-- The tree with neither places nor blanks around its texts. -/
def settled (e : Element) : Element :=
  e.withTexts trim

theorem allWithTexts_eq_map (f : String → String) (children : List Element) :
    allWithTexts f children = children.map (withTexts f) := by
  induction children with
  | nil => rfl
  | cons child rest ih => simp only [allWithTexts, ih, List.map_cons]

section

variable (f : String → String) (e : Element)

@[simp] theorem name_withTexts : (e.withTexts f).name = e.name := by
  cases e
  rfl

@[simp] theorem attributes_withTexts : (e.withTexts f).attributes = e.attributes := by
  cases e
  rfl

@[simp] theorem text_withTexts : (e.withTexts f).text = f e.text := by
  cases e
  rfl

@[simp] theorem children_withTexts :
    (e.withTexts f).children = e.children.map (withTexts f) := by
  cases e
  exact allWithTexts_eq_map f _

@[simp] theorem position_withTexts : (e.withTexts f).position = .none := by
  cases e
  rfl

@[simp] theorem hasTag_withTexts (tag : String) : (e.withTexts f).hasTag tag = e.hasTag tag := by
  rw [hasTag, hasTag, name_withTexts]

@[simp] theorem hasTagIn_withTexts (tags : List String) :
    (e.withTexts f).hasTagIn tags = e.hasTagIn tags := by
  rw [hasTagIn, hasTagIn]
  exact congrArg tags.any (funext (hasTag_withTexts f e))

theorem ext_iff {a b : Element} :
    a = b ↔ a.name = b.name ∧ a.attributes = b.attributes ∧ a.children = b.children
      ∧ a.text = b.text ∧ a.position = b.position := by
  cases a
  cases b
  simp

end

namespace Everywhere

variable {P : Element → Prop} {f : String → String} {e : Element}

theorem withTexts (kept : ∀ x, P x → P (x.withTexts f)) (everywhere : Everywhere P e) :
    Everywhere P (e.withTexts f) := by
  induction everywhere with
  | intro here _ ih =>
      refine .intro (kept _ here) ?_
      simpa using ih

theorem of_withTexts (kept : ∀ x, P (x.withTexts f) → P x)
    (everywhere : Everywhere P (e.withTexts f)) : Everywhere P e := by
  induction e using Element.induction with
  | step e ih =>
      have inside := everywhere.inside
      simp only [children_withTexts, List.forall_mem_map] at inside
      exact .intro (kept _ everywhere.here) fun child member =>
        ih child member (inside child member)

end Everywhere

theorem settled_eq_unplaced {e : Element}
    (trimmed : e.Everywhere fun x => trim x.text = x.text) : e.settled = e.unplaced := by
  induction trimmed with
  | intro here inside ih =>
      rw [ext_iff]
      refine ⟨by simp [settled, unplaced], by simp [settled, unplaced], ?_, ?_, ?_⟩
      · simpa [settled, unplaced] using ih
      · simpa [settled, unplaced] using here
      · simp [settled, unplaced]

end ShoreMetadata.Xml.Element
