import Mathlib.Data.List.Infix
import ShoreMetadata.Proofs.Document.Turned
import ShoreMetadata.Proofs.Import.Spelling

/-! Attributes as a map whose keys are names without regard to the case of letters: what setting
and removing an attribute does to it, and which runs of such changes keep it a map. -/

namespace ShoreMetadata.Xml.Element

open Text

variable {e : Element} {attributes before after : List (String × String)} {name value m : String}

def SpeltIn (attributes : List (String × String)) (name : String) : Prop :=
  ∀ entry ∈ attributes, sameName entry.1 name = true → entry.1 = name

instance (attributes : List (String × String)) (name : String) :
    Decidable (SpeltIn attributes name) :=
  inferInstanceAs (Decidable (∀ entry ∈ attributes, sameName entry.1 name = true →
    entry.1 = name))

private theorem sameName_congr_right {a b : String} (same : sameName a b = true) (c : String) :
    sameName c a = sameName c b := by
  rw [sameName, sameName, sameName_iff.mp same]

private theorem find?_eq_none_of_differ
    (differ : ∀ entry ∈ attributes, sameName entry.1 m = false) :
    attributes.find? (fun entry => sameName entry.1 m) = none := by
  apply List.find?_eq_none.mpr
  intro entry member
  simp [differ entry member]

section

variable {front behind : List (String × String)} {entry : String × String}
  (distinct : ((front ++ entry :: behind).map fun a => lower a.1).Nodup)

include distinct

private theorem differs_of_nodup : ∀ other ∈ front ++ behind, sameName other.1 entry.1 = false := by
  rw [List.map_append, List.map_cons, List.nodup_middle, List.nodup_cons,
    ← List.map_append] at distinct
  intro other member
  apply Bool.eq_false_iff.mpr
  intro same
  exact distinct.1 (List.mem_map.mpr ⟨other, member, sameName_iff.mp same⟩)

private theorem speltIn_of_nodup : SpeltIn (front ++ entry :: behind) entry.1 := by
  have differs := differs_of_nodup distinct
  intro other member same
  rcases List.mem_append.mp member with inFront | here
  · rw [differs other (List.mem_append_left _ inFront)] at same
    cases same
  · rcases List.mem_cons.mp here with rfl | inBehind
    · rfl
    · rw [differs other (List.mem_append_right _ inBehind)] at same
      cases same

end

namespace SetsTo

private theorem find?_of_ne (set : SetsTo name value before after)
    (other : sameName name m = false) :
    after.find? (fun entry => sameName entry.1 m) =
      before.find? fun entry => sameName entry.1 m := by
  cases set with
  | replaced first => simp [List.find?_append, other]
  | added missing => simp [List.find?_append, other]

private theorem find?_of_spelt (set : SetsTo name value before after) (spelt : SpeltIn before name)
    (same : sameName name m = true) :
    after.find? (fun entry => sameName entry.1 m) = some (name, value) := by
  have differs : ∀ entry ∈ before, entry.1 ≠ name → sameName entry.1 m = false := by
    intro entry member other
    apply Bool.eq_false_iff.mpr
    intro met
    apply other
    apply spelt entry member
    rw [sameName_congr_right same]
    exact met
  cases set with
  | replaced first =>
      rw [List.find?_append, find?_eq_none_of_differ fun entry member =>
        differs entry (List.mem_append_left _ member) (first entry member)]
      simp [same]
  | added missing =>
      rw [List.find?_append, find?_eq_none_of_differ fun entry member =>
        differs entry member (missing entry member)]
      simp [same]

private theorem find?_of_not_spelt (set : SetsTo name value before after)
    (distinct : (before.map fun a => lower a.1).Nodup) (respelt : ¬SpeltIn before name)
    (same : sameName name m = true) :
    after.find? (fun entry => sameName entry.1 m) =
      before.find? fun entry => sameName entry.1 m := by
  cases set with
  | replaced first => exact absurd (speltIn_of_nodup distinct) respelt
  | added missing =>
      have found : (before.find? fun entry => sameName entry.1 m).isSome = true := by
        simp only [SpeltIn, not_forall] at respelt
        obtain ⟨entry, member, met, -⟩ := respelt
        apply List.find?_isSome.mpr
        refine ⟨entry, member, ?_⟩
        rw [← sameName_congr_right same]
        exact met
      rw [List.find?_append, Option.or_of_isSome found]

theorem nodup_iff (set : SetsTo name value before after)
    (distinct : (before.map fun a => lower a.1).Nodup) :
    (after.map fun a => lower a.1).Nodup ↔ SpeltIn before name := by
  cases set with
  | @replaced front behind old first =>
      refine iff_of_true ?_ (speltIn_of_nodup distinct)
      rw [List.map_append, List.map_cons] at distinct ⊢
      exact distinct
  | added missing =>
      constructor
      · intro distinct' entry member same
        have differs := differs_of_nodup distinct' entry (List.mem_append_left _ member)
        rw [differs] at same
        cases same
      · intro spelt
        rw [List.map_append, List.map_singleton]
        refine List.nodup_append.mpr ⟨distinct, List.nodup_singleton _, ?_⟩
        intro a memberA b memberB same
        obtain ⟨entry, member, rfl⟩ := List.mem_map.mp memberA
        apply missing entry member
        apply spelt entry member
        exact sameName_iff.mpr (same.trans (List.mem_singleton.mp memberB))

end SetsTo

private theorem namesDistinct_setAttribute_iff (distinct : e.NamesDistinct) (name value : String) :
    (e.setAttribute name value).NamesDistinct ↔ SpeltIn e.attributes name :=
  (setsTo_setIn name value e.attributes).nodup_iff distinct

private theorem attribute?_setAttribute (spelt : SpeltIn e.attributes name) (value m : String) :
    (e.setAttribute name value).attribute? m =
      if sameName name m then some value else e.attribute? m := by
  have set := setsTo_setIn name value e.attributes
  cases same : sameName name m with
  | true => exact congrArg (Option.map Prod.snd) (set.find?_of_spelt spelt same)
  | false => exact congrArg (Option.map Prod.snd) (set.find?_of_ne same)

private theorem attribute?_setAttribute_of_not_spelt (distinct : e.NamesDistinct)
    (respelt : ¬SpeltIn e.attributes name) (value m : String) :
    (e.setAttribute name value).attribute? m = e.attribute? m := by
  have set := setsTo_setIn name value e.attributes
  cases same : sameName name m with
  | true => exact congrArg (Option.map Prod.snd) (set.find?_of_not_spelt distinct respelt same)
  | false => exact congrArg (Option.map Prod.snd) (set.find?_of_ne same)

/-- What removing an attribute makes of an element, and the value that it had. -/
inductive Removes (e : Element) (name : String) : Option String → Element → Prop
  | found {front behind : List (String × String)} {entry : String × String}
      (shape : e.attributes = front ++ entry :: behind)
      (first : ∀ other ∈ front, sameName other.1 name = false)
      (same : sameName entry.1 name = true) :
      Removes e name (some entry.2) { e with attributes := front ++ behind }
  | missing (differ : ∀ entry ∈ e.attributes, sameName entry.1 name = false) :
      Removes e name none e

private theorem removes_removeAttribute (e : Element) (name : String) :
    Removes e name (e.attribute? name) (e.removeAttribute name) := by
  obtain ⟨tag, attributes, children, text, position⟩ := e
  rw [attribute?, removeAttribute]
  cases found : attributes.find? fun entry => sameName entry.1 name with
  | none =>
      have differ : ∀ entry ∈ attributes, ¬sameName entry.1 name = true :=
        List.find?_eq_none.mp found
      rw [List.eraseP_of_forall_not differ]
      apply Removes.missing
      intro entry member
      exact Bool.eq_false_iff.mpr (differ entry member)
  | some entry =>
      obtain ⟨same, front, behind, shape, first⟩ := List.find?_eq_some_iff_append.mp found
      have differ : ∀ other ∈ front, ¬sameName other.1 name = true := by
        intro other member
        simpa using first other member
      have erased : attributes.eraseP (fun entry => sameName entry.1 name) = front ++ behind := by
        rw [shape, List.eraseP_append_right _ differ, List.eraseP_cons_of_pos]
        exact same
      rw [erased]
      apply Removes.found shape ?_ same
      intro other member
      exact Bool.eq_false_iff.mpr (differ other member)

private theorem takeAttribute_eq (e : Element) (name : String) :
    e.takeAttribute name = (e.attribute? name, e.removeAttribute name) := by
  obtain ⟨tag, attributes, children, text, position⟩ := e
  rw [takeAttribute, attribute?, removeAttribute, List.find?_eq_bind_findIdx?_getElem?,
    List.eraseP_eq_eraseIdx]
  cases attributes.findIdx? fun entry => sameName entry.1 name with
  | none => rfl
  | some place => rfl

private theorem namesDistinct_removeAttribute (distinct : e.NamesDistinct) (name : String) :
    (e.removeAttribute name).NamesDistinct :=
  List.Nodup.sublist (List.eraseP_sublist.map _) distinct

private theorem attribute?_removeAttribute (distinct : e.NamesDistinct) (name m : String) :
    (e.removeAttribute name).attribute? m =
      if sameName name m then none else e.attribute? m := by
  have removes := removes_removeAttribute e name
  generalize e.attribute? name = told at removes
  generalize e.removeAttribute name = removed at removes
  cases removes with
  | @found front behind entry shape first same =>
      rw [NamesDistinct, shape] at distinct
      rw [attribute?, attribute?, shape]
      cases met : sameName name m with
      | true =>
          rw [find?_eq_none_of_differ]
          · rfl
          · intro other member
            rw [← sameName_congr_right met, ← sameName_congr_right same]
            exact differs_of_nodup distinct other member
      | false =>
          have unmet : sameName entry.1 m = false := by
            rw [sameName_congr same, met]
          simp [List.find?_append, unmet]
  | missing differ =>
      split
      · rename_i met
        rw [attribute?, find?_eq_none_of_differ]
        · rfl
        · intro entry member
          rw [← sameName_congr_right met]
          exact differ entry member
      · rfl

inductive Change where
  | set (name value : String)
  | remove (name : String)

def change (e : Element) : Change → Element
  | .set name value => e.setAttribute name value
  | .remove name => e.removeAttribute name

def changed (tag : String) (changes : List Change) : Element :=
  changes.foldl change (ofName tag)

@[simp] theorem changed_append_singleton (tag : String) (changes : List Change) (c : Change) :
    changed tag (changes ++ [c]) = (changed tag changes).change c := by
  simp [changed]

/-- No attribute is set under a name while there is one under another spelling of it. -/
def KeepsSpelling (tag : String) (changes : List Change) : Prop :=
  ∀ earlier name value, earlier ++ [.set name value] <+: changes →
    SpeltIn (changed tag earlier).attributes name

private theorem namesDistinct_changed_iff (tag : String) (changes : List Change) :
    (∀ earlier, earlier <+: changes → (changed tag earlier).NamesDistinct) ↔
      KeepsSpelling tag changes := by
  constructor
  · intro distinct earlier name value within
    have before := distinct earlier ((List.prefix_append _ _).trans within)
    have after := distinct _ within
    rw [changed_append_singleton] at after
    exact (namesDistinct_setAttribute_iff before name value).mp after
  · intro spelt earlier within
    induction earlier using List.reverseRecOn with
    | nil => exact List.nodup_nil
    | append_singleton earlier c ih =>
        have before := ih ((List.prefix_append _ _).trans within)
        rw [changed_append_singleton]
        cases c with
        | set name value =>
            exact (namesDistinct_setAttribute_iff before name value).mpr
              (spelt earlier name value within)
        | remove name => exact namesDistinct_removeAttribute before name

/-- The names are distinct throughout a run of changes exactly if it keeps to one spelling of each.
Then the attributes are a map without regard to the case of letters: a set value is found under
every spelling of its name, a removed one, which is told, under none, and what is found under other
names stays. A value set under another spelling, though, is not found at all. -/
theorem attributes_map_of_keepsSpelling (tag : String) (changes : List Change) :
    ((∀ earlier, earlier <+: changes → (changed tag earlier).NamesDistinct) ↔
      KeepsSpelling tag changes) ∧
    (KeepsSpelling tag changes →
      let e := changed tag changes
      (∀ name value, SpeltIn e.attributes name → ∀ m,
        (e.setAttribute name value).attribute? m =
          if sameName name m then some value else e.attribute? m) ∧
      (∀ name value, ¬SpeltIn e.attributes name →
        ¬(e.setAttribute name value).NamesDistinct ∧
          ∀ m, (e.setAttribute name value).attribute? m = e.attribute? m) ∧
      ∀ name, e.takeAttribute name = (e.attribute? name, e.removeAttribute name) ∧
        ∀ m, (e.removeAttribute name).attribute? m =
          if sameName name m then none else e.attribute? m) := by
  refine ⟨namesDistinct_changed_iff tag changes, fun spelt => ?_⟩
  have distinct := (namesDistinct_changed_iff tag changes).mpr spelt changes List.prefix_rfl
  refine ⟨fun name value spelt m => attribute?_setAttribute spelt value m,
    fun name value respelt => ⟨?_, attribute?_setAttribute_of_not_spelt distinct respelt value⟩,
    fun name => ⟨takeAttribute_eq _ name, attribute?_removeAttribute distinct name⟩⟩
  rw [namesDistinct_setAttribute_iff distinct]
  exact respelt

def settings : List Change :=
  [.set "name" "a", .set "uriString" "u", .set "name" "b", .remove "URISTRING"]

theorem attributes_map_of_keepsSpelling_settings :
    KeepsSpelling "Resource" settings ∧ SpeltIn (changed "Resource" settings).attributes "Version" ∧
      ((changed "Resource" settings).setAttribute "Version" "3").attribute? "version" = some "3" ∧
      ((changed "Resource" settings).setAttribute "Version" "3").attribute? "NAME" = some "b" ∧
      ((changed "Resource" settings).removeAttribute "Name").attribute? "name" = none := by
  have each : ∀ earlier ∈ settings.inits, (changed "Resource" earlier).NamesDistinct := by
    decide +kernel
  have spelt : SpeltIn (changed "Resource" settings).attributes "Version" := by
    decide +kernel
  obtain ⟨keeps, laws⟩ := attributes_map_of_keepsSpelling "Resource" settings
  have kept := keeps.mp fun earlier within => each earlier ((List.mem_inits _ _).mpr within)
  obtain ⟨sets, -, removes⟩ := laws kept
  refine ⟨kept, spelt, ?_, ?_, ?_⟩
  · rw [sets "Version" "3" spelt "version", if_pos (by decide +kernel)]
  · rw [sets "Version" "3" spelt "NAME", if_neg (by decide +kernel)]
    decide +kernel
  · rw [(removes "Name").2 "name", if_pos (by decide +kernel)]

theorem hidden_attribute :
    let e := changed "Keyword" [.set "name" "a", .set "Name" "b"]
    ¬e.NamesDistinct ∧ e.attribute? "Name" = some "a" ∧
      (e.removeAttribute "Name").attribute? "Name" = some "b" := by
  decide +kernel

end ShoreMetadata.Xml.Element
