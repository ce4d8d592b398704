import ShoreMetadata.Proofs.Export.Canonical

/-! Reading the attributes of a canonical entity gives the fields that are attributes in
the dialect, and its version. -/

namespace ShoreMetadata

namespace Entity

variable {k : Kind}

def setAll (x : Entity k) : List ((f : Field) × f.Value) → Entity k
  | [] => x
  | entry :: rest => (x.set entry.1 (some entry.2)).setAll rest

@[simp] theorem version_setAll (x : Entity k) (entries : List ((f : Field) × f.Value)) :
    (x.setAll entries).version = x.version := by
  induction entries generalizing x with
  | nil => rfl
  | cons entry rest ih => rw [setAll, ih, version_set]

@[simp] theorem members_setAll (x : Entity k) (entries : List ((f : Field) × f.Value)) (s : Slot) :
    (x.setAll entries).members s = x.members s := by
  induction entries generalizing x with
  | nil => rfl
  | cons entry rest ih => rw [setAll, ih, members_set]

private theorem get?_setAll_of_not_mem (x : Entity k) {entries : List ((f : Field) × f.Value)}
    {f : Field}
    (missing : ∀ entry ∈ entries, entry.1 ≠ f) : (x.setAll entries).get? f = x.get? f := by
  induction entries generalizing x with
  | nil => rfl
  | cons entry rest ih =>
      rw [List.forall_mem_cons] at missing
      rw [setAll, ih _ missing.2, get?_set_of_ne _ missing.1]

private theorem get?_setAll_of_mem (x : Entity k) {entries : List ((f : Field) × f.Value)}
    {f : Field} {v : f.Value} (distinct : (entries.map Sigma.fst).Nodup) (known : f ∈ k.fields)
    (member : ⟨f, v⟩ ∈ entries) : (x.setAll entries).get? f = some v := by
  induction entries generalizing x with
  | nil => cases member
  | cons entry rest ih =>
      rw [List.map_cons, List.nodup_cons] at distinct
      rcases List.mem_cons.mp member with rfl | member
      · have missing : ∀ other ∈ rest, other.1 ≠ f := by
          intro other otherMember same
          exact distinct.1 (List.mem_map.mpr ⟨other, otherMember, same⟩)
        rw [setAll, get?_setAll_of_not_mem _ missing, get?_set_same _ known]
      · exact ih _ distinct.2 member

private theorem get?_setAll_filter (x e : Entity k) (p : Field → Bool) {f : Field}
    (known : f ∈ k.fields) :
    (x.setAll (e.values.entries.filter fun entry => p entry.1)).get? f =
      if p f then (e.get? f).or (x.get? f) else x.get? f := by
  have distinct : ((e.values.entries.filter fun entry => p entry.1).map Sigma.fst).Nodup :=
    (k.nodup_fields.sublist e.values.fields_entries_sublist).sublist
      (List.filter_sublist.map Sigma.fst)
  by_cases kept : p f = true
  · rw [if_pos kept]
    cases stored : e.get? f with
    | none =>
        refine get?_setAll_of_not_mem x ?_
        rintro ⟨g, v⟩ member rfl
        have held :=
          (Values.mem_entries_iff k.nodup_fields e.values).mp (List.mem_filter.mp member).1
        have missing : e.values.get? g = none := stored
        rw [missing] at held
        cases held
    | some v =>
        have member := (Values.mem_entries_iff k.nodup_fields e.values).mpr stored
        exact get?_setAll_of_mem x distinct known (List.mem_filter.mpr ⟨member, kept⟩)
  · rw [if_neg kept]
    refine get?_setAll_of_not_mem x ?_
    rintro ⟨g, v⟩ member rfl
    exact kept (List.mem_filter.mp member).2

variable (config : Config) (place : Place)

variable {config place} in
private theorem readAttributes_append {x y : Entity k} {first : List (String × String)}
    (rest : List (String × String)) (read : x.readAttributes config place first = .ok y) :
    x.readAttributes config place (first ++ rest) = y.readAttributes config place rest := by
  induction first generalizing x with
  | nil =>
      cases read
      rfl
  | cons a more ih =>
      obtain ⟨name, value⟩ := a
      rw [List.cons_append, readAttributes]
      rw [readAttributes] at read
      cases next : x.readAttribute config place name value with
      | error error =>
          rw [next] at read
          cases read
      | ok z =>
          rw [next] at read
          exact ih read

private theorem readAttribute_xmlName (x : Entity k) {f : Field} {v : f.Value} {text : String}
    (known : f ∈ k.fields) (tellable : f.type.Tellable v) (written : f.type.text? v = some text) :
    x.readAttribute config place f.xmlName text = .ok (x.set f (some v)) := by
  obtain ⟨w, parsed, same⟩ := FieldType.parse?_text? tellable.dated written
  rw [same tellable] at parsed
  rw [readAttribute, Kind.attributeUse?_xmlName known]
  simp only [FieldType.read_of_parse? _ parsed]
  rfl

private theorem readAttributes_values {e : Entity k} (canonical : e.Canonical) (p : Field → Bool)
    (x : Entity k) :
    x.readAttributes config place (e.values.toAttributes p) =
      .ok (x.setAll (e.values.entries.filter fun entry => p entry.1)) := by
  have tellable : ∀ entry ∈ e.values.entries,
      entry.1 ∈ k.fields ∧ entry.1.type.Tellable entry.2 := by
    rintro ⟨f, v⟩ member
    have stored := (Values.mem_entries_iff k.nodup_fields e.values).mp member
    exact ⟨Values.mem_fields_of_mem_entries member, canonical.values f v stored⟩
  rw [Values.toAttributes, Values.mapPresent_eq_map]
  generalize e.values.entries = entries at tellable
  induction entries generalizing x with
  | nil => rfl
  | cons entry rest ih =>
      rw [List.forall_mem_cons] at tellable
      by_cases kept : p entry.1 = true
      · obtain ⟨text, written⟩ := FieldType.exists_text?_of_tellable tellable.1.2
        simp only [List.map_cons, kept, if_true, written, Option.map_some, List.filterMap_cons,
          id_eq, List.filter_cons]
        rw [readAttributes, readAttribute_xmlName config place x tellable.1.1 tellable.1.2 written]
        exact ih _ tellable.2
      · simp only [List.map_cons, kept, Bool.false_eq_true, if_false, List.filterMap_cons, id_eq,
          List.filter_cons]
        exact ih x tellable.2

private theorem readAttributes_version (x : Entity k) (version : Version)
    (fresh : x.version = .unknown) :
    x.readAttributes config place (versionAttribute version) = .ok (x.setVersion version) := by
  unfold versionAttribute
  split
  · rename_i unknown
    rw [unknown, readAttributes]
    cases x
    cases fresh
    rfl
  · rename_i known
    rw [readAttributes, readAttribute, k.attributeUse?_version]
    simp only [readVersion_integerText config x known]
    rfl

theorem readAttributes_canonical (dialect : Dialect) {e start : Entity k}
    (canonical : e.Canonical) (fresh : start.version = .unknown)
    (untold : ∀ f, f.isAttribute dialect = true → start.get? f = none) :
    ∃ x, start.readAttributes config place (e.toAttributes dialect) = .ok x ∧
      (∀ f ∈ k.fields, x.get? f = if f.isAttribute dialect then e.get? f else start.get? f) ∧
      x.version = e.version ∧ ∀ s, x.members s = start.members s := by
  let before := fun f => Field.isAttribute dialect f && k.precedesVersion f
  let after := fun f => Field.isAttribute dialect f && !k.precedesVersion f
  let first := start.setAll (e.values.entries.filter fun entry => before entry.1)
  let second := first.setVersion e.version
  refine ⟨second.setAll (e.values.entries.filter fun entry => after entry.1), ?_, ?_, ?_, ?_⟩
  · have version := readAttributes_version config place first e.version
      ((version_setAll _ _).trans fresh)
    rw [toAttributes, List.append_assoc,
      readAttributes_append _ (readAttributes_values config place canonical before start),
      readAttributes_append _ version, readAttributes_values config place canonical after]
  · intro f known
    have atFirst : second.get? f =
        if before f then (e.get? f).or (start.get? f) else start.get? f :=
      get?_setAll_filter start e before known
    rw [get?_setAll_filter second e after known, atFirst]
    simp only [before, after]
    by_cases told : f.isAttribute dialect = true
    · by_cases early : k.precedesVersion f = true
      · simp [told, early, untold f told]
      · simp [told, early, untold f told]
    · simp [told]
  · exact version_setAll second _
  · intro s
    rw [members_setAll]
    exact members_setAll start _ s

end Entity

end ShoreMetadata
