import ShoreMetadata.Proofs.Export.Element

/-! The variables of a record in the order of their columns, and how they are written. -/

namespace ShoreMetadata

open Xml (Element)

private theorem Slot.flatMap_wrap {α : Type} {s : Slot} (bare : s.wrapper? = none)
    (dialect : Dialect) (items : List α) (f : α → Option Element) :
    items.flatMap (fun item => s.wrap dialect (f item)) =
      (items.filterMap f).filter (!·.isEmpty) := by
  induction items with
  | nil => rfl
  | cons item rest ih =>
      rw [List.flatMap_cons, ih, List.filterMap_cons]
      cases f item with
      | none => rfl
      | some x =>
          cases something : x.isEmpty <;> simp [wrap, bare, something]

namespace Entity

private theorem children_element_record (record : Entity .recordDescription) (dialect : Dialect)
    (direction : Direction) :
    (record.element dialect direction).children =
      (record.orderedVariables.filterMap (·.toElement dialect direction)).filter
        (!·.isEmpty) := by
  have undescribed : (record.get? .description : Option String) = none :=
    get?_of_not_mem record (by decide)
  have noDescription : record.descriptionElement = [] := by
    simp only [descriptionElement, undescribed]
  have written : record.childElements dialect direction .recordVariables =
      (record.orderedVariables.filterMap (·.toElement dialect direction)).filter
        (!·.isEmpty) :=
    Slot.flatMap_wrap rfl dialect record.orderedVariables _
  change record.descriptionElement ++
    (record.childElements dialect direction .recordVariables ++ []) = _
  rw [noDescription, written, List.append_nil, List.nil_append]

private theorem exists_column_of_placed {a b : Entity .recordVariable}
    (placedA : hasColumn column? a = true) (placedB : hasColumn column? b = true)
    (ordered : columnLE column? a b = true) :
    ∃ m n, a.column? = some m ∧ b.column? = some n ∧ m ≤ n := by
  obtain ⟨m, columnA⟩ := exists_of_hasColumn placedA
  obtain ⟨n, columnB⟩ := exists_of_hasColumn placedB
  refine ⟨m, n, columnA, columnB, ?_⟩
  simpa [columnLE, columnA, columnB] using ordered

private theorem hasColumn_column? (v : Entity .recordVariable) :
    hasColumn column? v = v.column?.any (0 ≤ ·) := by
  unfold hasColumn
  cases v.column? <;> rfl

/-- The variables of a record are put in order: first those whose column is told and is not
negative, by their columns, and then the others. Of one column they stay in the order of the
record, and so do the others. What is in order stays as it is. In this order the variables are
written, as far as their elements are not empty, and nothing else is. -/
theorem orderedVariables_in_element (record : Entity .recordDescription) :
    let listed : List (Entity .recordVariable) := record.members .recordVariables
    record.orderedVariables.Perm listed ∧
    (∃ placed, placed.Perm (listed.filter fun v => v.column?.any (0 ≤ ·)) ∧
      (placed.Pairwise fun a b => ∃ m n, a.column? = some m ∧ b.column? = some n ∧ m ≤ n) ∧
      record.orderedVariables = placed ++ listed.filter fun v => !v.column?.any (0 ≤ ·)) ∧
    (∀ c, record.orderedVariables.filter (·.column? = c) =
      listed.filter (·.column? = c)) ∧
    (orderByColumn column? record.orderedVariables = record.orderedVariables ∧
      (record.orderedVariables = listed ↔ listed.Pairwise (Precedes column?))) ∧
    ∀ dialect direction, ∃ x, record.toElement dialect direction = some x ∧
      x.children = (record.orderedVariables.filterMap (·.toElement dialect direction)).filter
        (!·.isEmpty) := by
  intro listed
  simp only [← hasColumn_column?]
  have all : ∀ v ∈ listed.filter (hasColumn column?), hasColumn column? v = true := fun v member =>
    (List.mem_filter.mp member).2
  refine ⟨orderByColumn_perm column? listed, ⟨_, List.mergeSort_perm _ (columnLE column?), ?_,
    rfl⟩, filter_orderByColumn column? listed, ⟨?_, orderByColumn_eq_self_iff⟩, ?_⟩
  · refine (pairwise_mergeSort_columnLE all).imp_of_mem fun {a b} memberA memberB ordered => ?_
    rw [List.mem_mergeSort] at memberA memberB
    exact exists_column_of_placed (all a memberA) (all b memberB) ordered
  · exact orderByColumn_eq_self_iff.mpr (pairwise_orderByColumn column? listed)
  · intro dialect direction
    refine ⟨record.element dialect direction, ?_, children_element_record record dialect direction⟩
    rw [toElement_eq]
    rfl

end Entity

end ShoreMetadata
