import ShoreMetadata.Entity.Values

/-! What is stored for a field is found under it, and nothing else changes. -/

namespace ShoreMetadata.Values

variable {fs : List Field}

theorem get?_set_same (values : Values fs) {f : Field} (member : f ∈ fs)
    (value : Option f.Value) : (values.set f value).get? f = value := by
  induction values with
  | nil => cases member
  | @cons g fs first rest ih =>
      by_cases same : g = f
      · subst same
        simp [set, get?]
      · have more : f ∈ fs := by
          rcases List.mem_cons.mp member with same' | more
          · exact absurd same'.symm same
          · exact more
        simp [set, get?, same, ih more]

theorem get?_set_of_ne (values : Values fs) {f g : Field} (other : f ≠ g)
    (value : Option f.Value) : (values.set f value).get? g = values.get? g := by
  induction values with
  | nil => rfl
  | @cons h fs first rest ih =>
      by_cases same : h = f
      · subst same
        simp [set, get?, other]
      · simp [set, get?, same, ih]

theorem get?_absent (f : Field) : (absent fs).get? f = none := by
  induction fs with
  | nil => rfl
  | cons g fs ih =>
      by_cases same : g = f
      · subst same
        simp [absent, get?]
      · simp [absent, get?, same, ih]

theorem get?_of_not_mem (values : Values fs) {f : Field} (missing : f ∉ fs) :
    values.get? f = none := by
  induction values with
  | nil => rfl
  | cons first rest ih =>
      rw [List.mem_cons, not_or] at missing
      simp [get?, Ne.symm missing.1, ih missing.2]

theorem get?_cons_same {f : Field} (value : Option f.Value) (rest : Values fs) :
    (cons value rest).get? f = value := by
  simp [get?]

theorem get?_cons_of_mem {f g : Field} (missing : f ∉ fs) (member : g ∈ fs)
    (value : Option f.Value) (rest : Values fs) : (cons value rest).get? g = rest.get? g := by
  have apart : f ≠ g := by
    rintro rfl
    exact missing member
  simp [get?, apart]

theorem ext (distinct : fs.Nodup) {a b : Values fs} (agree : ∀ f ∈ fs, a.get? f = b.get? f) :
    a = b := by
  induction a with
  | nil =>
      cases b
      rfl
  | @cons g fs first rest ih =>
      cases b with
      | cons first' rest' =>
          rw [List.nodup_cons] at distinct
          have firstEq : first = first' := by
            simpa only [get?_cons_same] using agree g (by simp)
          have restEq : rest = rest' := ih distinct.2 fun f member => by
            simpa only [get?_cons_of_mem distinct.1 member] using agree f (by simp [member])
          rw [firstEq, restEq]

theorem set_set_same (values : Values fs) (f : Field) (first second : Option f.Value) :
    (values.set f first).set f second = values.set f second := by
  induction values with
  | nil => rfl
  | @cons g fs head rest ih =>
      by_cases same : g = f
      · subst same
        simp [set]
      · simp [set, same, ih]

theorem set_set_of_ne (values : Values fs) {f g : Field} (other : f ≠ g)
    (first : Option f.Value) (second : Option g.Value) :
    (values.set f first).set g second = (values.set g second).set f first := by
  induction values with
  | nil => rfl
  | @cons h fs head rest ih =>
      by_cases same : h = f
      · subst same
        simp [set, other]
      · by_cases same' : h = g
        · subst same'
          simp [set, same]
        · simp [set, same, same', ih]

theorem set_absent (f : Field) : (absent fs).set f none = absent fs := by
  induction fs with
  | nil => rfl
  | cons g fs ih =>
      by_cases same : g = f
      · subst same
        simp [absent, set]
      · simp [absent, set, same, ih]

def entries (values : Values fs) : List ((f : Field) × f.Value) :=
  values.mapPresent Sigma.mk

theorem mapPresent_eq_map {α : Type} (values : Values fs) (g : (f : Field) → f.Value → α) :
    values.mapPresent g = values.entries.map fun entry => g entry.1 entry.2 := by
  induction values with
  | nil => rfl
  | cons first rest ih =>
      cases first with
      | none => exact ih
      | some value =>
          change g _ value :: rest.mapPresent g = g _ value :: _
          rw [ih]
          rfl

theorem fields_entries_sublist (values : Values fs) :
    (values.entries.map Sigma.fst).Sublist fs := by
  induction values with
  | nil => exact .slnil
  | cons first rest ih =>
      cases first with
      | none => exact .cons _ ih
      | some value => exact .cons_cons _ ih

theorem mem_fields_of_mem_entries {values : Values fs} {f : Field} {v : f.Value}
    (member : ⟨f, v⟩ ∈ values.entries) : f ∈ fs :=
  values.fields_entries_sublist.subset (List.mem_map_of_mem (f := Sigma.fst) member)

theorem mem_entries_iff (distinct : fs.Nodup) (values : Values fs) {f : Field} {v : f.Value} :
    ⟨f, v⟩ ∈ values.entries ↔ values.get? f = some v := by
  induction values with
  | nil => simp [entries, mapPresent, get?]
  | @cons g fs first rest ih =>
      rw [List.nodup_cons] at distinct
      have here : ⟨f, v⟩ ∈ (cons first rest).entries ↔
          (∃ value, first = some value ∧ (⟨f, v⟩ : (f : Field) × f.Value) = ⟨g, value⟩) ∨
            ⟨f, v⟩ ∈ rest.entries := by
        cases first with
        | none => simp [entries, mapPresent]
        | some value => simp [entries, mapPresent]
      rw [here, ih distinct.2]
      by_cases same : g = f
      · subst same
        rw [rest.get?_of_not_mem distinct.1]
        cases first <;> simp [get?, eq_comm]
      · have others : ∀ value : g.Value, (⟨f, v⟩ : (f : Field) × f.Value) ≠ ⟨g, value⟩ := by
          intro value equal
          exact same (congrArg Sigma.fst equal).symm
        simp [get?, same, others]

end ShoreMetadata.Values
