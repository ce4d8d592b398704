import ShoreMetadata.Json.Reader
import ShoreMetadata.Json.Writer
import ShoreMetadata.Proofs.Number.Decimal

/-! Strings and numbers of JSON are read back from what is written for them. -/

namespace ShoreMetadata.Json

open Number

private theorem hexValue?_control : ∀ n < 32,
    hexValue? ['0', '0', hexDigit (n / 16), hexDigit (n % 16)] = some n := by
  decide

private theorem escapedUnit?_control {n : Nat} (control : n < 32) (rest : List Char) :
    escapedUnit? ('0' :: '0' :: hexDigit (n / 16) :: hexDigit (n % 16) :: rest) =
      some (Char.ofNat n, rest) := by
  have noSurrogate : ¬(0xD800 ≤ n ∧ n < 0xDC00) ∧ ¬(0xDC00 ≤ n ∧ n < 0xE000) := by omega
  simp [escapedUnit?, unit?, hexValue?_control n control, noSurrogate]

section

variable {c : Char} {cs rest : List Char} (fuel : Nat)

private theorem stringTail?_escape (read : escaped? cs = some (c, rest)) :
    stringTail? (fuel + 1) ('\\' :: cs) =
      (stringTail? fuel rest).map fun (more, rest) => (c :: more, rest) := by
  rw [stringTail?, read]
  change (stringTail? fuel rest).bind _ = _
  cases stringTail? fuel rest <;> rfl

private theorem stringTail?_plain (noQuote : c ≠ '"') (noBackslash : c ≠ '\\')
    (noControl : ¬c.toNat < 32) :
    stringTail? (fuel + 1) (c :: rest) =
      (stringTail? fuel rest).map fun (more, rest) => (c :: more, rest) := by
  rw [stringTail?]
  · rw [if_neg noControl]
    cases stringTail? fuel rest <;> rfl
  · exact noQuote
  · exact noBackslash

private theorem stringTail?_escapeChar (c : Char) (rest : List Char) :
    stringTail? (fuel + 1) (escapeChar c ++ rest) =
      (stringTail? fuel rest).map fun (more, rest) => (c :: more, rest) := by
  unfold escapeChar
  split_ifs with quote backslash newline carriage tab back feed control
  · exact stringTail?_escape fuel (by rw [quote]; rfl)
  · exact stringTail?_escape fuel (by rw [backslash]; rfl)
  · exact stringTail?_escape fuel (by rw [newline]; rfl)
  · exact stringTail?_escape fuel (by rw [carriage]; rfl)
  · exact stringTail?_escape fuel (by rw [tab]; rfl)
  · exact stringTail?_escape fuel (by rw [back]; rfl)
  · exact stringTail?_escape fuel (by rw [feed]; rfl)
  · have read := escapedUnit?_control control rest
    rw [Char.ofNat_toNat] at read
    exact stringTail?_escape fuel read
  · exact stringTail?_plain fuel quote backslash control

end

private theorem length_escapeChar_pos (c : Char) : 0 < (escapeChar c).length := by
  unfold escapeChar
  split_ifs <;> simp

private theorem stringTail?_flatMap (cs rest : List Char) (fuel : Nat) (enough : cs.length < fuel) :
    stringTail? fuel (cs.flatMap escapeChar ++ '"' :: rest) = some (cs, rest) := by
  induction cs generalizing fuel with
  | nil =>
      cases fuel with
      | zero => cases enough
      | succ fuel => rfl
  | cons c cs ih =>
      cases fuel with
      | zero => cases enough
      | succ fuel =>
          rw [List.length_cons] at enough
          rw [List.flatMap_cons, List.append_assoc, stringTail?_escapeChar, ih fuel (by omega)]
          rfl

private theorem length_le_flatMap_escapeChar (cs : List Char) :
    cs.length ≤ (cs.flatMap escapeChar).length := by
  induction cs with
  | nil => exact Nat.le_refl 0
  | cons c cs ih =>
      have step := length_escapeChar_pos c
      rw [List.flatMap_cons, List.length_append, List.length_cons]
      omega

theorem readString?_escaped (s : String) (rest : List Char) :
    readString? (s.toList.flatMap escapeChar ++ '"' :: rest) = some (s, rest) := by
  have short := length_le_flatMap_escapeChar s.toList
  rw [readString?, stringTail?_flatMap _ _ _ (by rw [List.length_append]; omega), Option.map_some]
  dsimp only
  rw [String.ofList_toList]

/-- Digits stand where they must, and no zero in front of others. -/
structure Numeral.WellFormed (n : Numeral) : Prop where
  nonempty : n.whole ≠ []
  whole : ∀ c ∈ n.whole, c.isDigit = true
  leading : n.whole.head? = some '0' → n.whole = ['0']
  fraction : ∀ c ∈ n.fraction, c.isDigit = true

/-- A text does not go on with a character that could be part of a number. -/
def Closes (rest : List Char) : Prop :=
  ∀ c, rest.head? = some c → c.isDigit = false ∧ c ≠ '.' ∧ c ≠ 'e' ∧ c ≠ 'E'

theorem closes_nil : Closes [] := by
  rintro c ⟨⟩

section

variable {rest : List Char}

private theorem wholeDigits?_append {n : Numeral} (wellFormed : n.WellFormed)
    (ended : ∀ c, rest.head? = some c → c.isDigit = false) :
    wholeDigits? (n.whole ++ rest) = some (n.whole, rest) := by
  obtain ⟨run, after⟩ := takeWhile_digits wellFormed.whole rest ended
  unfold wholeDigits?
  rw [run, after]
  split
  · rename_i empty
    exact absurd empty wellFormed.nonempty
  · rename_i zero
    rw [zero]
  · rename_i tail several shape
    have alone := wellFormed.leading (by rw [shape]; rfl)
    rw [shape, List.cons.injEq] at alone
    exact absurd alone.2 several
  · rfl

private theorem fraction?_nil (closed : ∀ c, rest.head? = some c → c ≠ '.') :
    fraction? rest = some ([], rest) := by
  unfold fraction?
  split
  · exact absurd rfl (closed '.' rfl)
  · rfl

private theorem fraction?_digits {cs : List Char} (nonempty : cs ≠ [])
    (all : ∀ c ∈ cs, c.isDigit = true) (ended : ∀ c, rest.head? = some c → c.isDigit = false) :
    fraction? ('.' :: cs ++ rest) = some (cs, rest) := by
  obtain ⟨run, after⟩ := takeWhile_digits all rest ended
  rw [List.cons_append, fraction?, run, after]
  cases cs with
  | nil => exact absurd rfl nonempty
  | cons => rfl

private theorem exponentDigits?_digits (negative : Bool) (n : Nat)
    (ended : ∀ c, rest.head? = some c → c.isDigit = false) :
    exponentDigits? negative (digits n ++ rest) =
      some (some (if negative then -(n : Int) else n), rest) := by
  obtain ⟨run, after⟩ := takeWhile_digits (fun c => isDigit_of_mem_digits (n := n)) rest ended
  obtain ⟨c, cs, shape, _⟩ := exists_cons_digits n
  rw [exponentDigits?, run, after]
  rw [shape]
  simp only [← shape, ofDigits_digits]

private theorem exponent?_exponentChars (exponent : Option Int) (closed : Closes rest) :
    exponent? (exponentChars exponent ++ rest) = some (exponent, rest) := by
  cases exponent with
  | none =>
      cases rest with
      | nil => rfl
      | cons c rest =>
          have other := closed c rfl
          simp [exponentChars, exponent?, other.2.2]
  | some e =>
      have read := fun negative =>
        exponentDigits?_digits negative e.natAbs fun c head => (closed c head).1
      by_cases negative : e < 0
      · have size : -(e.natAbs : Int) = e := by omega
        rw [exponentChars, if_pos negative]
        refine (read true).trans ?_
        rw [if_pos rfl, size]
      · have size : (e.natAbs : Int) = e := by omega
        rw [exponentChars, if_neg negative]
        refine (read false).trans ?_
        rw [if_neg Bool.false_ne_true, size]

private theorem head_fraction (n : Numeral) (closed : Closes rest) : ∀ c,
    ((if n.fraction = [] then [] else '.' :: n.fraction) ++
      (exponentChars n.exponent ++ rest)).head? = some c → c.isDigit = false := by
  intro c head
  split at head
  · cases exponent : n.exponent with
    | none =>
        rw [exponent] at head
        exact (closed c head).1
    | some e =>
        rw [exponent] at head
        cases head
        decide
  · cases head
    decide

private theorem head_exponentChars (exponent : Option Int) (closed : Closes rest) : ∀ c,
    (exponentChars exponent ++ rest).head? = some c → c.isDigit = false ∧ c ≠ '.' := by
  intro c head
  cases exponent with
  | none =>
      have other := closed c head
      exact ⟨other.1, other.2.1⟩
  | some e =>
      cases head
      decide

private theorem fraction?_append {n : Numeral} (wellFormed : n.WellFormed) (closed : Closes rest) :
    fraction? ((if n.fraction = [] then [] else '.' :: n.fraction) ++
        (exponentChars n.exponent ++ rest)) =
      some (n.fraction, exponentChars n.exponent ++ rest) := by
  have ended := head_exponentChars n.exponent closed
  split
  · rename_i empty
    rw [empty]
    exact fraction?_nil fun c head => (ended c head).2
  · rename_i nonempty
    exact fraction?_digits nonempty wellFormed.fraction fun c head => (ended c head).1

private theorem readNumber?_sign (negative : Bool) {first : Char} (noMinus : first ≠ '-')
    (cs : List Char) :
    readNumber? ((if negative then ['-'] else []) ++ first :: cs) = do
      let (whole, cs) ← wholeDigits? (first :: cs)
      let (fraction, cs) ← fraction? cs
      let (exponent, cs) ← exponent? cs
      return ({ negative, whole, fraction, exponent }, cs) := by
  cases negative with
  | true => rfl
  | false =>
      rw [if_neg Bool.false_ne_true, List.nil_append, readNumber?]
      intro rest shape
      cases shape
      exact noMinus rfl

theorem exists_cons_chars {n : Numeral} (wellFormed : n.WellFormed) :
    ∃ c cs, n.chars = c :: cs ∧ (c = '-' ∨ c.isDigit = true) := by
  obtain ⟨first, more, shape⟩ := List.exists_cons_of_ne_nil wellFormed.nonempty
  have digit := wellFormed.whole first (by rw [shape]; simp)
  simp only [Numeral.chars, shape]
  cases n.negative with
  | true => exact ⟨_, _, rfl, .inl rfl⟩
  | false => exact ⟨_, _, rfl, .inr digit⟩

theorem readNumber?_chars {n : Numeral} (wellFormed : n.WellFormed) (closed : Closes rest) :
    readNumber? (n.chars ++ rest) = some (n, rest) := by
  have whole := wholeDigits?_append wellFormed (head_fraction n closed)
  obtain ⟨first, more, shape⟩ := List.exists_cons_of_ne_nil wellFormed.nonempty
  have noMinus : first ≠ '-' :=
    ne_of_isDigit (wellFormed.whole first (by rw [shape]; simp)) (by decide)
  simp only [Numeral.chars, List.append_assoc]
  rw [shape, List.cons_append] at whole ⊢
  rw [readNumber?_sign _ noMinus, whole]
  simp only [Option.bind_eq_bind, Option.bind_some, fraction?_append wellFormed closed,
    exponent?_exponentChars n.exponent closed, Option.pure_def, ← shape]

end

end ShoreMetadata.Json
