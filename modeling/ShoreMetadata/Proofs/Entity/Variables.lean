import ShoreMetadata.Entity.Variables

/-! Items in the order of their columns: a list is in order when an item with a column
follows only such items, and none of a greater column. -/

namespace ShoreMetadata

variable {α β : Type} {column : α → Option Int64} {items : List α}

def Precedes (column : α → Option Int64) (a b : α) : Prop :=
  hasColumn column b = true → hasColumn column a = true ∧ columnLE column a b = true

instance (column : α → Option Int64) : DecidableRel (Precedes column) := fun a b =>
  inferInstanceAs (Decidable (hasColumn column b = true →
    hasColumn column a = true ∧ columnLE column a b = true))

theorem orderByColumn_map (column : β → Option Int64) (f : α → β) (items : List α) :
    (orderByColumn (fun item => column (f item)) items).map f =
      orderByColumn column (items.map f) := by
  have sorted := List.map_mergeSort (r := columnLE fun item => column (f item))
    (s := columnLE column) (f := f)
    (l := items.filter (hasColumn fun item => column (f item))) fun _ _ _ _ => rfl
  simp only [orderByColumn, List.map_append, sorted, List.filter_map]
  rfl

theorem mem_orderByColumn {item : α} : item ∈ orderByColumn column items ↔ item ∈ items := by
  rw [orderByColumn, List.mem_append, List.mem_mergeSort, List.mem_filter, List.mem_filter]
  cases hasColumn column item <;> simp

theorem exists_of_hasColumn {a : α} (has : hasColumn column a = true) : ∃ n, column a = some n := by
  unfold hasColumn at has
  cases found : column a with
  | none => simp [found] at has
  | some n => exact ⟨n, rfl⟩

theorem key_trans (a b c : α) (first : decide ((column a).getD 0 ≤ (column b).getD 0) = true)
    (second : decide ((column b).getD 0 ≤ (column c).getD 0) = true) :
    decide ((column a).getD 0 ≤ (column c).getD 0) = true := by
  rw [decide_eq_true_eq] at first second ⊢
  exact Int64.le_trans first second

private theorem key_total (a b : α) : (decide ((column a).getD 0 ≤ (column b).getD 0) ||
    decide ((column b).getD 0 ≤ (column a).getD 0)) = true := by
  simpa using Int64.le_total _ _

/-- The comparison of columns is an order only among items that have one; there it is the
comparison of a key that all items have. -/
theorem mergeSort_columnLE (all : ∀ a ∈ items, hasColumn column a = true) :
    items.mergeSort (columnLE column) =
      items.mergeSort fun a b => decide ((column a).getD 0 ≤ (column b).getD 0) := by
  have compared := List.map_mergeSort (r := columnLE column)
    (s := fun a b => decide ((column a).getD 0 ≤ (column b).getD 0)) (f := id) (l := items)
    fun a memberA b memberB => by
      obtain ⟨m, columnA⟩ := exists_of_hasColumn (all a memberA)
      obtain ⟨n, columnB⟩ := exists_of_hasColumn (all b memberB)
      simp [columnLE, columnA, columnB]
  simpa using compared

theorem pairwise_mergeSort_columnLE (all : ∀ a ∈ items, hasColumn column a = true) :
    (items.mergeSort (columnLE column)).Pairwise fun a b => columnLE column a b = true := by
  rw [mergeSort_columnLE all]
  have sorted := List.pairwise_mergeSort (@key_trans _ column) key_total items
  refine sorted.imp fun {a b} ordered => ?_
  unfold columnLE
  cases columnA : column a with
  | none => rfl
  | some m =>
      cases columnB : column b with
      | none => rfl
      | some n => simpa [columnA, columnB] using ordered

theorem orderByColumn_perm (column : α → Option Int64) (items : List α) :
    (orderByColumn column items).Perm items := by
  have sorted := List.mergeSort_perm (items.filter (hasColumn column)) (columnLE column)
  exact (sorted.append_right _).trans (List.filter_append_perm (hasColumn column) items)

private theorem sublist_orderByColumn {part : List α} {c : Option Int64}
    (inside : part.Sublist items) (same : ∀ a ∈ part, column a = c) :
    part.Sublist (orderByColumn column items) := by
  have alike : ∀ a ∈ part, hasColumn column a = hasColumn id c := by
    intro a member
    rw [hasColumn, same a member]
    rfl
  cases placed : hasColumn id c with
  | true =>
      have all : ∀ a ∈ part, hasColumn column a = true := by
        simpa [placed] using alike
      have among : part.Sublist (items.filter (hasColumn column)) := by
        rw [← List.filter_eq_self.mpr all]
        exact inside.filter _
      have ascending : part.Pairwise fun a b =>
          decide ((column a).getD 0 ≤ (column b).getD 0) = true := by
        apply List.pairwise_of_forall_mem_list
        intro a memberA b memberB
        rw [same a memberA, same b memberB]
        exact decide_eq_true (Int64.le_refl _)
      have sorted := List.sublist_mergeSort key_trans key_total ascending among
      rw [← mergeSort_columnLE fun a member => (List.mem_filter.mp member).2] at sorted
      exact sorted.trans (List.sublist_append_left ..)
  | false =>
      have none : ∀ a ∈ part, (!hasColumn column a) = true := by
        simpa [placed] using alike
      have among : part.Sublist (items.filter (!hasColumn column ·)) := by
        rw [← List.filter_eq_self.mpr none]
        exact inside.filter _
      exact among.trans (List.sublist_append_right ..)

theorem filter_orderByColumn (column : α → Option Int64) (items : List α) (c : Option Int64) :
    (orderByColumn column items).filter (column · = c) = items.filter (column · = c) := by
  have same : ∀ a ∈ items.filter (column · = c), column a = c := by simp
  have inside := (sublist_orderByColumn List.filter_sublist same).filter (column · = c)
  rw [List.filter_filter] at inside
  simp only [Bool.and_self] at inside
  exact (inside.eq_of_length ((orderByColumn_perm column items).filter _).length_eq.symm).symm

theorem pairwise_orderByColumn (column : α → Option Int64) (items : List α) :
    (orderByColumn column items).Pairwise (Precedes column) := by
  have without : ∀ b ∈ items.filter (!hasColumn column ·), ¬hasColumn column b = true := by simp
  have all : ∀ a ∈ items.filter (hasColumn column), hasColumn column a = true := by simp
  refine List.pairwise_append.mpr ⟨?_, ?_, fun a _ b member has => absurd has (without b member)⟩
  · refine (pairwise_mergeSort_columnLE all).imp_of_mem fun {a b} member _ ordered _ => ?_
    exact ⟨all a (List.mem_mergeSort.mp member), ordered⟩
  · refine List.pairwise_iff_forall_sublist.mpr fun {a b} inside has => absurd has (without b ?_)
    exact inside.subset (List.mem_cons_of_mem a (List.mem_singleton_self b))

private theorem filter_append_filter_of_pairwise (ordered : items.Pairwise (Precedes column)) :
    items.filter (hasColumn column) ++ items.filter (!hasColumn column ·) = items := by
  induction items with
  | nil => rfl
  | cons a rest ih =>
      obtain ⟨first, ordered⟩ := List.pairwise_cons.mp ordered
      by_cases has : hasColumn column a = true
      · simp [has, ih ordered]
      · have none : ∀ b ∈ rest, ¬hasColumn column b = true := fun b member hasB =>
          has (first b member hasB).1
        have empty : rest.filter (hasColumn column) = [] := List.filter_eq_nil_iff.mpr none
        have whole : rest.filter (!hasColumn column ·) = rest := by
          simpa [empty] using ih ordered
        simp [has, empty, whole]

theorem orderByColumn_eq_self_iff :
    orderByColumn column items = items ↔ items.Pairwise (Precedes column) := by
  constructor
  · intro same
    rw [← same]
    exact pairwise_orderByColumn column items
  · intro ordered
    have sorted : (items.filter (hasColumn column)).Pairwise fun a b =>
        columnLE column a b = true := by
      refine (ordered.sublist List.filter_sublist).imp_of_mem fun {a b} _ member precedes => ?_
      exact (precedes (List.mem_filter.mp member).2).2
    rw [orderByColumn, List.mergeSort_of_pairwise sorted, filter_append_filter_of_pairwise ordered]

end ShoreMetadata
