import ShoreMetadata.Proofs.Json.Scalar

/-! A JSON value is read back from its text, whether it is indented or not. -/

namespace ShoreMetadata.Json

inductive WellFormed : Json → Prop
  | null : WellFormed .null
  | bool (b : Bool) : WellFormed (.bool b)
  | number {n : Numeral} (digits : n.WellFormed) : WellFormed (.number n)
  | string (s : String) : WellFormed (.string s)
  | array {items : List Json} (each : ∀ item ∈ items, WellFormed item) : WellFormed (.array items)
  | object {members : List (String × Json)} (each : ∀ m ∈ members, WellFormed m.2) :
    WellFormed (.object members)

private theorem skip_append {blanks : List Char} (all : ∀ c ∈ blanks, isBlank c = true)
    (cs : List Char) :
    skip (blanks ++ cs) = skip cs :=
  List.dropWhile_append_of_pos all

private theorem skip_cons {c : Char} (solid : isBlank c = false) (cs : List Char) :
    skip (c :: cs) = c :: cs :=
  List.dropWhile_cons_of_neg (by simp [solid])

section

variable {blanks : List Char} (all : ∀ c ∈ blanks, isBlank c = true) (fuel : Nat) (cs : List Char)

include all

private theorem readValue?_append : readValue? fuel (blanks ++ cs) = readValue? fuel cs := by
  cases fuel with
  | zero => rfl
  | succ fuel => rw [readValue?, readValue?, skip_append all]

private theorem readItems?_append : readItems? fuel (blanks ++ cs) = readItems? fuel cs := by
  cases fuel with
  | zero => rfl
  | succ fuel => rw [readItems?, readItems?, skip_append all]

private theorem readMember?_append : readMember? fuel (blanks ++ cs) = readMember? fuel cs := by
  cases fuel with
  | zero => rfl
  | succ fuel => rw [readMember?, readMember?, skip_append all]

private theorem readMembers?_append : readMembers? fuel (blanks ++ cs) = readMembers? fuel cs := by
  cases fuel with
  | zero => rfl
  | succ fuel => rw [readMembers?, readMembers?, skip_append all]

end

private theorem isBlank_of_mem_lineBreak {pretty : Bool} {depth : Nat} :
    ∀ c ∈ lineBreak pretty depth, isBlank c = true := by
  intro c member
  cases pretty with
  | false => cases member
  | true =>
      rcases List.mem_cons.mp member with rfl | member
      · decide
      · rw [List.eq_of_mem_replicate member]
        decide

private theorem closes_lineBreak (pretty : Bool) (depth : Nat) {rest : List Char}
    (closed : Closes rest) :
    Closes (lineBreak pretty depth ++ rest) := by
  cases pretty with
  | false => exact closed
  | true =>
      rintro c ⟨⟩
      decide

private theorem readValue?_number {c : Char} (first : c = '-' ∨ c.isDigit = true) (fuel : Nat)
    (cs : List Char) :
    isBlank c = false ∧ c ≠ ']' ∧ readValue? (fuel + 1) (c :: cs) =
      (readNumber? (c :: cs)).map fun (n, rest) => (.number n, rest) := by
  have other : ∀ d : Char, d ≠ '-' → d.isDigit = false → c ≠ d := by
    intro d noMinus noDigit same
    rcases first with rfl | digit
    · exact noMinus same.symm
    · exact Number.ne_of_isDigit digit noDigit same
  have solid : isBlank c = false := by
    simp [isBlank, other ' ' (by decide) (by decide), other '\t' (by decide) (by decide),
      other '\n' (by decide) (by decide), other '\r' (by decide) (by decide)]
  refine ⟨solid, other ']' (by decide) (by decide), ?_⟩
  rw [readValue?, skip_cons solid]
  split
  case h_7 => rfl
  -- The other six begin with a quote, a bracket or a letter.
  all_goals
    rename_i same
    cases same
    exact absurd rfl (other _ (by decide) (by decide))

private theorem exists_cons_charsAt {json : Json} (wellFormed : json.WellFormed) (pretty : Bool)
    (depth : Nat) :
    ∃ c cs, charsAt pretty depth json = c :: cs ∧ isBlank c = false ∧ c ≠ ']' := by
  cases wellFormed with
  | null => exact ⟨_, _, rfl, by decide, by decide⟩
  | bool b => cases b <;> exact ⟨_, _, rfl, by decide, by decide⟩
  | number digits =>
      obtain ⟨c, cs, shape, first⟩ := exists_cons_chars digits
      have known := readValue?_number first 0 cs
      exact ⟨c, cs, shape, known.1, known.2.1⟩
  | string s => exact ⟨_, _, rfl, by decide, by decide⟩
  | @array items each => cases items <;> exact ⟨_, _, rfl, by decide, by decide⟩
  | @object members each => cases members <;> exact ⟨_, _, rfl, by decide, by decide⟩

/-- A value is read from its text, whatever follows that does not go on with a number. -/
def ReadsBack (pretty : Bool) (json : Json) : Prop :=
  ∀ depth fuel rest, (charsAt pretty depth json).length < fuel → Closes rest →
    readValue? fuel (charsAt pretty depth json ++ rest) = some (json, rest)

section

variable (pretty : Bool) (depth outer : Nat) (rest : List Char)

private theorem closes_itemsAt (items : List Json) :
    Closes (itemsAt pretty depth items ++ (lineBreak pretty outer ++ ']' :: rest)) := by
  cases items with
  | nil =>
      refine closes_lineBreak pretty outer ?_
      rintro c ⟨⟩
      decide
  | cons item items =>
      rintro c ⟨⟩
      decide

private theorem closes_membersAt (members : List (String × Json)) :
    Closes (membersAt pretty depth members ++ (lineBreak pretty outer ++ '\x7d' :: rest)) := by
  cases members with
  | nil =>
      refine closes_lineBreak pretty outer ?_
      rintro c ⟨⟩
      decide
  | cons m members =>
      rintro c ⟨⟩
      decide

variable {pretty}

private theorem readItems?_itemsAt {items : List Json}
    (each : ∀ item ∈ items, ReadsBack pretty item)
    {fuel : Nat} (enough : (itemsAt pretty depth items).length < fuel) :
    readItems? fuel (itemsAt pretty depth items ++ (lineBreak pretty outer ++ ']' :: rest)) =
      some (items, rest) := by
  induction items generalizing fuel with
  | nil =>
      obtain ⟨fuel, rfl⟩ := Nat.exists_eq_add_one.mpr (Nat.zero_lt_of_lt enough)
      rw [itemsAt, List.nil_append, readItems?_append isBlank_of_mem_lineBreak]
      rfl
  | cons item items ih =>
      obtain ⟨fuel, rfl⟩ := Nat.exists_eq_add_one.mpr (Nat.zero_lt_of_lt enough)
      rw [List.forall_mem_cons] at each
      simp only [itemsAt, List.length_cons, List.length_append, List.cons_append] at enough
      have first := each.1 depth fuel _ (by omega) (closes_itemsAt pretty depth outer rest items)
      have more := @ih each.2 fuel (by omega)
      simp only [itemsAt, List.cons_append, List.append_assoc, readItems?,
        skip_cons (show isBlank ',' = false by decide)]
      rw [readValue?_append isBlank_of_mem_lineBreak, first]
      simp only [Option.bind_eq_bind, Option.bind_some, more, Option.pure_def]

variable {depth rest}

private theorem readMember?_charsAt {value : Json} (reads : ReadsBack pretty value) (depth : Nat)
    (name : String) {fuel : Nat} (enough : (charsAt pretty depth value).length + 1 < fuel)
    (closed : Closes rest) :
    readMember? fuel (stringChars name ++ (colon pretty ++ (charsAt pretty depth value ++ rest))) =
      some ((name, value), rest) := by
  obtain ⟨fuel, rfl⟩ := Nat.exists_eq_add_one.mpr (Nat.zero_lt_of_lt enough)
  have read := reads depth fuel rest (by omega) closed
  have spaced : ∃ blanks, colon pretty = ':' :: blanks ∧ ∀ c ∈ blanks, isBlank c = true := by
    cases pretty with
    | true => exact ⟨[' '], rfl, by simp [isBlank]⟩
    | false => exact ⟨[], rfl, by simp⟩
  obtain ⟨blanks, shape, all⟩ := spaced
  simp only [stringChars, shape, List.cons_append, List.append_assoc, List.nil_append, readMember?,
    skip_cons (show isBlank '"' = false by decide), skip_cons (show isBlank ':' = false by decide),
    readString?_escaped, Option.bind_eq_bind, Option.bind_some, readValue?_append all, read,
    Option.pure_def]

private theorem readMembers?_membersAt {members : List (String × Json)}
    (each : ∀ m ∈ members, ReadsBack pretty m.2) {fuel : Nat}
    (enough : (membersAt pretty depth members).length < fuel) :
    readMembers? fuel
        (membersAt pretty depth members ++ (lineBreak pretty outer ++ '\x7d' :: rest)) =
      some (members, rest) := by
  induction members generalizing fuel with
  | nil =>
      obtain ⟨fuel, rfl⟩ := Nat.exists_eq_add_one.mpr (Nat.zero_lt_of_lt enough)
      rw [membersAt, List.nil_append, readMembers?_append isBlank_of_mem_lineBreak]
      rfl
  | cons m members ih =>
      obtain ⟨name, value⟩ := m
      obtain ⟨fuel, rfl⟩ := Nat.exists_eq_add_one.mpr (Nat.zero_lt_of_lt enough)
      rw [List.forall_mem_cons] at each
      have here : ReadsBack pretty value := each.1
      have quoted : 0 < (stringChars name).length := Nat.succ_pos _
      simp only [membersAt, List.length_cons, List.length_append, List.cons_append] at enough
      have first := readMember?_charsAt here depth name (by omega : _ < fuel)
        (closes_membersAt pretty depth outer rest members)
      have more := @ih each.2 fuel (by omega)
      simp only [membersAt, List.cons_append, List.append_assoc, readMembers?,
        skip_cons (show isBlank ',' = false by decide)]
      rw [readMember?_append isBlank_of_mem_lineBreak, first]
      simp only [Option.bind_eq_bind, Option.bind_some, more, Option.pure_def]

private theorem readsBack_array {item : Json} {items : List Json} (wellFormed : item.WellFormed)
    (first : ReadsBack pretty item) (more : ∀ other ∈ items, ReadsBack pretty other) :
    ReadsBack pretty (.array (item :: items)) := by
  intro depth fuel rest enough closed
  obtain ⟨fuel, rfl⟩ := Nat.exists_eq_add_one.mpr (Nat.zero_lt_of_lt enough)
  simp only [charsAt, List.length_cons, List.length_append, List.cons_append] at enough
  have readFirst := first (depth + 1) fuel _ (by omega)
    (closes_itemsAt pretty (depth + 1) depth rest items)
  have readMore := @readItems?_itemsAt pretty (depth + 1) depth rest items more fuel (by omega)
  obtain ⟨c, cs, shape, solid, noEnd⟩ := exists_cons_charsAt wellFormed pretty (depth + 1)
  have here : skip (lineBreak pretty (depth + 1) ++ (charsAt pretty (depth + 1) item ++
      (itemsAt pretty (depth + 1) items ++ (lineBreak pretty depth ++ ']' :: rest)))) =
        charsAt pretty (depth + 1) item ++
          (itemsAt pretty (depth + 1) items ++ (lineBreak pretty depth ++ ']' :: rest)) := by
    rw [skip_append isBlank_of_mem_lineBreak, shape, List.cons_append, skip_cons solid]
  simp only [charsAt, List.cons_append, List.append_assoc, List.nil_append, readValue?,
    skip_cons (show isBlank '[' = false by decide), here]
  split
  · rename_i other
    rw [shape] at other
    cases other
    exact absurd rfl noEnd
  · simp only [readFirst, readMore, Option.bind_eq_bind, Option.bind_some, Option.pure_def]

private theorem readsBack_object {name : String} {value : Json} {members : List (String × Json)}
    (first : ReadsBack pretty value) (more : ∀ m ∈ members, ReadsBack pretty m.2) :
    ReadsBack pretty (.object ((name, value) :: members)) := by
  intro depth fuel rest enough closed
  obtain ⟨fuel, rfl⟩ := Nat.exists_eq_add_one.mpr (Nat.zero_lt_of_lt enough)
  have quoted : 0 < (stringChars name).length := Nat.succ_pos _
  simp only [charsAt, List.length_cons, List.length_append, List.cons_append] at enough
  have readFirst := readMember?_charsAt first (depth + 1) name (by omega : _ < fuel)
    (closes_membersAt pretty (depth + 1) depth rest members)
  have readMore := @readMembers?_membersAt pretty (depth + 1) depth rest members more fuel
    (by omega)
  have here : ∀ cs, skip (lineBreak pretty (depth + 1) ++ (stringChars name ++ cs)) =
      stringChars name ++ cs := by
    intro cs
    rw [skip_append isBlank_of_mem_lineBreak]
    exact skip_cons (by decide) _
  simp only [charsAt, List.cons_append, List.append_assoc, List.nil_append, readValue?,
    skip_cons (show isBlank '\x7b' = false by decide), here]
  split
  · rename_i other
    cases other
  · simp only [readFirst, readMore, Option.bind_eq_bind, Option.bind_some, Option.pure_def]

end

theorem readsBack {json : Json} (wellFormed : json.WellFormed) (pretty : Bool) :
    ReadsBack pretty json := by
  induction wellFormed with
  | null =>
      intro depth fuel rest enough closed
      obtain ⟨fuel, rfl⟩ := Nat.exists_eq_add_one.mpr (Nat.zero_lt_of_lt enough)
      rfl
  | bool b =>
      intro depth fuel rest enough closed
      obtain ⟨fuel, rfl⟩ := Nat.exists_eq_add_one.mpr (Nat.zero_lt_of_lt enough)
      cases b <;> rfl
  | @number n digits =>
      intro depth fuel rest enough closed
      obtain ⟨fuel, rfl⟩ := Nat.exists_eq_add_one.mpr (Nat.zero_lt_of_lt enough)
      obtain ⟨c, cs, shape, first⟩ := exists_cons_chars digits
      have read := readNumber?_chars digits closed
      rw [charsAt]
      rw [shape, List.cons_append] at read ⊢
      rw [(readValue?_number first fuel _).2.2, read]
      rfl
  | string s =>
      intro depth fuel rest enough closed
      obtain ⟨fuel, rfl⟩ := Nat.exists_eq_add_one.mpr (Nat.zero_lt_of_lt enough)
      simp only [charsAt, stringChars, List.cons_append, List.append_assoc, List.nil_append,
        readValue?, skip_cons (show isBlank '"' = false by decide), readString?_escaped,
        Option.map_some]
  | @array items each ih =>
      cases items with
      | nil =>
          intro depth fuel rest enough closed
          obtain ⟨fuel, rfl⟩ := Nat.exists_eq_add_one.mpr (Nat.zero_lt_of_lt enough)
          rfl
      | cons item items =>
          rw [List.forall_mem_cons] at each ih
          exact readsBack_array each.1 ih.1 ih.2
  | @object members each ih =>
      cases members with
      | nil =>
          intro depth fuel rest enough closed
          obtain ⟨fuel, rfl⟩ := Nat.exists_eq_add_one.mpr (Nat.zero_lt_of_lt enough)
          rfl
      | cons m members =>
          rw [List.forall_mem_cons] at ih
          exact readsBack_object ih.1 ih.2

theorem read?_write {json : Json} (wellFormed : json.WellFormed) (pretty : Bool) :
    read? (json.write pretty) = some json := by
  have read := readsBack wellFormed pretty 0 (2 * (charsAt pretty 0 json).length + 2) []
    (by omega) closes_nil
  rw [List.append_nil] at read
  simp only [read?, write, String.toList_ofList, read]
  rfl

end ShoreMetadata.Json
