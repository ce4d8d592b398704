import ShoreMetadata.Import.Build
import ShoreMetadata.Proofs.Entity.Tree
import ShoreMetadata.Validation.Limits

/-! Which values are held against their limits: those of an entity and of the entities in it, but
for what resources, record variables and standard variables hold. -/

namespace ShoreMetadata.Limits

def indexed : Arity → String → Nat → String
  | .one, path, _ => path
  | .many, path, i => s!"{path}[{i}]"

def stepTo (path : String) (s : Slot) (i : Nat) : String :=
  indexed s.arity (path ++ "." ++ step s) i

/-- At a place in an entity there is another one, with slots of some kind on the way. -/
inductive Reaches (via : Kind → List Slot) (path : String) {k : Kind} (e : Entity k) :
    String → (j : Kind) → Entity j → Prop
  | here : Reaches via path e path k e
  | inside {place : String} {j : Kind} {x : Entity j} {s : Slot} {i : Nat}
      {child : Entity s.target} (outer : Reaches via path e place j x) (known : s ∈ via j)
      (held : (x.members s)[i]? = some child) :
      Reaches via path e (stepTo place s i) s.target child

namespace Reaches

variable {via via' : Kind → List Slot} {path place : String} {k j : Kind} {e : Entity k}
  {x : Entity j}

theorem mono (more : ∀ k, via k ⊆ via' k) (reached : Reaches via path e place j x) :
    Reaches via' path e place j x := by
  induction reached with
  | here => exact .here
  | inside _ known held ih => exact .inside ih (more _ known) held

private theorem from_member {s : Slot} {i : Nat} {child : Entity s.target} (known : s ∈ via k)
    (held : (e.members s)[i]? = some child)
    (reached : Reaches via (stepTo path s i) child place j x) :
    Reaches via path e place j x := by
  -- The way down grows at its end, so the first step is put in front of all others.
  induction reached with
  | here => exact .inside .here known held
  | inside _ knownToo heldToo ih => exact .inside ih knownToo heldToo

end Reaches

private theorem findingsIn_eq (path : String) (s : Slot) : {ss : List Slot} → (links : Links ss) →
    findingsIn path s links = findingsAmong (path ++ "." ++ step s) 0 (links.get s)
  | _, .nil => by
      rw [findingsIn, Links.get]
      cases s.arity <;> rfl
  | t :: _, .cons members rest => by
      rw [findingsIn, Links.get]
      by_cases same : t = s
      · subst same
        rw [if_pos rfl, dif_pos rfl]
      · rw [if_neg same, dif_neg same, findingsIn_eq path s rest]

private theorem mem_findingsAmong_iff {path : String} {finding : Finding} :
    {index : Nat} → {a : Arity} →
    {k : Kind} → {members : Members a k} → (finding ∈ findingsAmong path index members ↔
      ∃ i child, members.toList[i]? = some child ∧
        finding ∈ findingsOf (indexed a path (index + i)) child)
  | _, _, _, .absent => by simp [findingsAmong, Members.toList]
  | _, _, _, .present e => by
      simp only [findingsAmong, Members.toList, indexed]
      constructor
      · intro found
        exact ⟨0, e, rfl, found⟩
      · rintro ⟨i, child, held, found⟩
        obtain ⟨rfl, rfl⟩ : i = 0 ∧ e = child := by
          cases i with
          | zero => exact ⟨rfl, Option.some.inj held⟩
          | succ i => cases held
        exact found
  | _, _, _, .nil => by simp [findingsAmong, Members.toList]
  | index, _, _, .cons e rest => by
      rw [findingsAmong, List.mem_append, mem_findingsAmong_iff, Members.toList]
      constructor
      · rintro (found | ⟨i, child, held, found⟩)
        · exact ⟨0, e, rfl, found⟩
        · refine ⟨i + 1, child, held, ?_⟩
          rwa [Nat.add_right_comm] at found
      · rintro ⟨i, child, held, found⟩
        cases i with
        | zero =>
            cases held
            exact .inl found
        | succ i =>
            refine .inr ⟨i, child, held, ?_⟩
            rwa [Nat.add_right_comm]

variable {path place : String} {k j : Kind} {e : Entity k} {x : Entity j} {finding : Finding}

private theorem mem_findingsOf_iff :
    finding ∈ findingsOf path e ↔ finding ∈ ownFindings path e ∨
      ∃ s ∈ checkedSlots k, ∃ i child, (e.members s)[i]? = some child ∧
        finding ∈ findingsOf (stepTo path s i) child := by
  obtain ⟨values, version, links⟩ := e
  rw [findingsOf, List.mem_append, List.mem_flatMap]
  refine or_congr_right (exists_congr fun s => and_congr_right fun _ => ?_)
  rw [findingsIn_eq, mem_findingsAmong_iff]
  simp only [Nat.zero_add]
  rfl

private theorem exists_reached_of_mem_findingsOf (found : finding ∈ findingsOf path e) :
    ∃ place j x, Reaches checkedSlots path e place j x ∧ finding ∈ ownFindings place x := by
  induction e using Entity.induction generalizing path with
  | step e ih =>
      rcases mem_findingsOf_iff.mp found with own | ⟨s, checked, i, child, held, inside⟩
      · exact ⟨path, _, e, .here, own⟩
      · obtain ⟨place, j, x, reached, own⟩ := ih s child (List.mem_of_getElem? held) inside
        exact ⟨place, j, x, reached.from_member checked held, own⟩

def stopsAt : Kind → Bool
  | .resource | .recordVariable | .standardVariable => true
  | _ => false

def slotsOfChecked (k : Kind) : List Slot :=
  if stopsAt k then [] else k.slots

private theorem findingsOf_of_unlimited (noRules : rules k = []) (noSlots : checkedSlots k = []) :
    findingsOf path e = [] := by
  obtain ⟨values, version, links⟩ := e
  rw [findingsOf, ownFindings, noRules, noSlots]
  rfl

private theorem checked_or_unlimited : ∀ s ∈ slotsOfChecked k,
    s ∈ checkedSlots k ∨ (rules s.target = [] ∧ checkedSlots s.target = []) := by
  cases k <;> decide

private theorem checkedSlots_subset (k : Kind) : checkedSlots k ⊆ slotsOfChecked k := by
  cases k <;> decide

private theorem findingsOf_subset_of_reaches (reached : Reaches slotsOfChecked path e place j x) :
    findingsOf place x ⊆ findingsOf path e := by
  induction reached with
  | here => exact List.Subset.refl _
  | @inside place j x s i child _ known held ih =>
      rcases checked_or_unlimited s known with checked | ⟨noRules, noSlots⟩
      · intro finding found
        exact ih (mem_findingsOf_iff.mpr (.inr ⟨s, checked, i, child, held, found⟩))
      · rw [findingsOf_of_unlimited noRules noSlots]
        exact List.nil_subset _

private theorem prefix_stepTo (place : String) (s : Slot) (i : Nat) :
    place.toList <+: (stepTo place s i).toList := by
  unfold stepTo
  cases s.arity with
  | one => simp [indexed]
  | many => simp [indexed, toString]

private theorem Reaches.prefixed {via : Kind → List Slot} (reached : Reaches via path e place j x) :
    path.toList <+: place.toList := by
  induction reached with
  | here => exact List.prefix_rfl
  | inside _ _ _ ih => exact ih.trans (prefix_stepTo _ _ _)

private theorem ownFindings_eq (path other : String) (e : Entity k) :
    ownFindings path e = (ownFindings other e).map ({ · with path := path }) := by
  rw [ownFindings, ownFindings, List.map_filterMap]
  refine congrArg (List.filterMap · (rules k)) (funext fun rule => ?_)
  cases e.get? rule.field with
  | none => rfl
  | some value => cases excess : rule.limit.excess? value <;> simp [excess]

/-- The findings in an entity are those that any entity in it has of its own, at the place where
it is, unless the way there leads out of a resource, a record variable or a standard variable. -/
theorem findings_of_reached (e : AnyEntity) :
    (∀ place j, ∀ x : Entity j, Reaches slotsOfChecked e.kind.tag e.entity place j x →
      e.kind.tag.toList <+: place.toList ∧
        ∀ own ∈ ownFindings j.tag x, { own with path := place } ∈ findings e) ∧
    ∀ found ∈ findings e, ∃ place j, ∃ x : Entity j,
      Reaches slotsOfChecked e.kind.tag e.entity place j x ∧
        ∃ own ∈ ownFindings j.tag x, found = { own with path := place } := by
  constructor
  · intro place j x reached
    refine ⟨reached.prefixed, fun own member => findingsOf_subset_of_reaches reached ?_⟩
    refine mem_findingsOf_iff.mpr (.inl ?_)
    rw [ownFindings_eq place j.tag x]
    exact List.mem_map_of_mem member
  · intro found member
    obtain ⟨place, j, x, reached, own⟩ := exists_reached_of_mem_findingsOf member
    rw [ownFindings_eq place j.tag x] at own
    obtain ⟨own, ownMember, same⟩ := List.mem_map.mp own
    exact ⟨place, j, x, reached.mono checkedSlots_subset, own, ownMember, same.symm⟩

private theorem ownFindings_keyword {name : String} (long : 255 < name.length) (path : String) :
    ownFindings path (Entity.named .keyword name) =
      [⟨path, .name, .tooLong 255 name.length⟩] := by
  have excess : Limits.name.limit.excess? name = some (.tooLong 255 name.length) := if_pos long
  change List.filterMap _ [Limits.name, description] = _
  rw [List.filterMap_cons_some (b := ⟨path, .name, .tooLong 255 name.length⟩)]
  · rfl
  · change (Limits.name.limit.excess? name).bind
      (fun excess => some (Finding.mk path .name excess)) = _
    rw [excess]
    rfl

private theorem ownFindings_replicate (path : String) :
    ownFindings path (Entity.named .keyword (String.ofList (List.replicate 256 'x'))) =
      [⟨path, .name, .tooLong 255 256⟩] := by
  have length : (String.ofList (List.replicate 256 'x')).length = 256 := by
    rw [String.length_ofList, List.length_replicate]
  rw [ownFindings_keyword (by omega), length]

theorem findings_of_reached_output :
    let keyword := Entity.named .keyword (String.ofList (List.replicate 256 'x'))
    let container := (Entity.empty .dataContainer).accept .keywords keyword
    let producer := (Entity.empty .dataProducer).accept .outputs container
    let place := "DataProducer.output[0].Keyword[0]"
    Reaches slotsOfChecked "DataProducer" producer place .keyword keyword ∧
      ⟨place, .name, .tooLong 255 256⟩ ∈ findings ⟨.dataProducer, producer⟩ := by
  intro keyword container producer place
  have output : Reaches slotsOfChecked "DataProducer" producer "DataProducer.output[0]"
      .dataContainer container :=
    Reaches.here.inside (s := .outputs) (i := 0) (by decide) rfl
  have reached : Reaches slotsOfChecked "DataProducer" producer place .keyword keyword :=
    output.inside (s := .keywords) (i := 0) (by decide) rfl
  refine ⟨reached, ?_⟩
  have own : ⟨"Keyword", .name, .tooLong 255 256⟩ ∈ ownFindings "Keyword" keyword := by
    rw [ownFindings_replicate]
    exact List.mem_singleton_self _
  exact ((findings_of_reached ⟨.dataProducer, producer⟩).1 _ _ _ reached).2 _ own

/-- A value beyond its limit is passed over in what a resource holds. -/
theorem keyword_of_resource_unreported :
    let keyword := Entity.named .keyword (String.ofList (List.replicate 256 'x'))
    let resource := (Entity.empty .resource).accept .keywords keyword
    Reaches Kind.slots "Resource" resource "Resource.Keyword[0]" .keyword keyword ∧
      findings ⟨.keyword, keyword⟩ = [⟨"Keyword", .name, .tooLong 255 256⟩] ∧
      findings ⟨.resource, resource⟩ = [] := by
  intro keyword resource
  refine ⟨Reaches.here.inside (s := .keywords) (i := 0) (by decide) rfl, ?_, rfl⟩
  change ownFindings "Keyword" keyword ++ [] = _
  rw [ownFindings_replicate, List.append_nil]

end ShoreMetadata.Limits
