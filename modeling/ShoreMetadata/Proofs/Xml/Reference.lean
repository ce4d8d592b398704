import ShoreMetadata.Proofs.Text.Trim
import ShoreMetadata.Xml.Reference

/-! Escaping is undone by resolving references, and it keeps the ends of a text
free of blanks. -/

namespace ShoreMetadata.Xml

open Text

theorem unescapeFrom_reference (total offset : Nat) (name after : List Char) {c : Char}
    (plain : name.all (!endsName ·) = true)
    (resolved : ∀ start, referenced start name = .ok c) :
    unescapeFrom total offset ('&' :: name ++ ';' :: after) =
      (unescapeFrom total (offset + 1 + byteLength name + 1) after).map (c :: ·) := by
  have taken : (name ++ ';' :: after).takeWhile (!endsName ·) = name := by
    rw [List.takeWhile_append_of_pos (List.all_eq_true.mp plain)]
    simp [endsName]
  have left : (name ++ ';' :: after).dropWhile (!endsName ·) = ';' :: after := by
    rw [List.dropWhile_append_of_pos (List.all_eq_true.mp plain)]
    simp [endsName]
  rw [List.cons_append, unescapeFrom]
  simp only [if_true]
  split
  · rename_i rest found
    rw [left] at found
    cases found
    rw [taken, resolved]
    cases unescapeFrom total (offset + 1 + byteLength name + 1) after <;> rfl
  · rename_i missing
    exact absurd left (missing _)

theorem unescapeFrom_plain {total offset : Nat} {c : Char} (plain : c ≠ '&')
    (after : List Char) :
    unescapeFrom total offset (c :: after) =
      (unescapeFrom total (offset + c.utf8Size) after).map (c :: ·) := by
  rw [unescapeFrom, if_neg plain]
  cases unescapeFrom total (offset + c.utf8Size) after <;> rfl

private theorem unescapeFrom_escapeChar (total offset : Nat) (c : Char) (after : List Char) :
    ∃ next, unescapeFrom total offset (escapeChar c ++ after) =
      (unescapeFrom total next after).map (c :: ·) := by
  unfold escapeChar
  split
  · exact ⟨_, unescapeFrom_reference total offset "lt".toList after (by decide) fun _ => rfl⟩
  · exact ⟨_, unescapeFrom_reference total offset "gt".toList after (by decide) fun _ => rfl⟩
  · exact ⟨_, unescapeFrom_reference total offset "amp".toList after (by decide) fun _ => rfl⟩
  · exact ⟨_, unescapeFrom_reference total offset "apos".toList after (by decide) fun _ => rfl⟩
  · exact ⟨_, unescapeFrom_reference total offset "quot".toList after (by decide) fun _ => rfl⟩
  · rename_i notAmpersand _ _
    exact ⟨_, unescapeFrom_plain notAmpersand after⟩

private theorem unescapeFrom_escape (total offset : Nat) (cs : List Char) :
    unescapeFrom total offset (escape cs) = .ok cs := by
  induction cs generalizing offset with
  | nil => simp [escape, unescapeFrom]
  | cons c rest ih =>
      obtain ⟨next, step⟩ := unescapeFrom_escapeChar total offset c (escape rest)
      rw [escape, List.flatMap_cons]
      change unescapeFrom total offset (escapeChar c ++ escape rest) = _
      rw [step, ih]
      rfl

theorem unescape_escape (cs : List Char) : unescape (escape cs) = .ok cs :=
  unescapeFrom_escape _ _ cs

private theorem not_special_of_mem_escapeChar {c d : Char} (member : d ∈ escapeChar c) :
    d ≠ '<' ∧ d ≠ '>' ∧ d ≠ '"' := by
  unfold escapeChar at member
  split at member
  case h_6 notLess notGreater _ _ notQuote =>
    rw [List.mem_singleton] at member
    subst member
    exact ⟨notLess, notGreater, notQuote⟩
  all_goals
    revert d
    simp

theorem not_special_of_mem_escape {cs : List Char} {d : Char} (member : d ∈ escape cs) :
    d ≠ '<' ∧ d ≠ '>' ∧ d ≠ '"' := by
  obtain ⟨c, _, inside⟩ := List.mem_flatMap.mp member
  exact not_special_of_mem_escapeChar inside

private theorem escapeChar_ne_nil (c : Char) : escapeChar c ≠ [] := by
  unfold escapeChar
  split <;> simp

private theorem isXmlBlank_of_mem_escapeChar {c d : Char} (kept : isBlank c = false)
    (member : d ∈ escapeChar c) : isXmlBlank d = false := by
  unfold escapeChar at member
  split at member
  case h_6 =>
    rw [List.mem_singleton] at member
    subst member
    cases blank : isXmlBlank d with
    | false => rfl
    | true => rw [isBlank_of_isXmlBlank blank] at kept; contradiction
  all_goals
    revert d
    simp [isXmlBlank]

theorem head?_escape {cs : List Char} {d : Char}
    (kept : ∀ c, cs.head? = some c → isBlank c = false)
    (first : (escape cs).head? = some d) : isXmlBlank d = false := by
  cases cs with
  | nil => cases first
  | cons c rest =>
      rw [escape, List.flatMap_cons, List.head?_append_of_ne_nil _ (escapeChar_ne_nil c)] at first
      exact isXmlBlank_of_mem_escapeChar (kept c rfl) (List.mem_of_head? first)

theorem getLast?_escape {cs : List Char} {d : Char}
    (kept : ∀ c, cs.getLast? = some c → isBlank c = false)
    (last : (escape cs).getLast? = some d) : isXmlBlank d = false := by
  cases cs using List.reverseRecOn with
  | nil => cases last
  | append_singleton front c =>
      rw [escape, List.flatMap_append, List.flatMap_singleton,
        List.getLast?_append_of_ne_nil _ (escapeChar_ne_nil c)] at last
      exact isXmlBlank_of_mem_escapeChar (kept c (by simp)) (List.mem_of_getLast? last)

theorem escape_eq_nil_iff {cs : List Char} : escape cs = [] ↔ cs = [] := by
  cases cs with
  | nil => simp [escape]
  | cons c rest => simp [escape, escapeChar_ne_nil]

end ShoreMetadata.Xml
