import ShoreMetadata.Entity.Json
import ShoreMetadata.Proofs.Json.Scalar
import ShoreMetadata.Proofs.Number.Binary

/-! The numerals that are written for numbers: they are well-formed and stand for the same
number. -/

namespace ShoreMetadata

namespace Number

private theorem digitChar_ne_zero : ∀ n < 10, 0 < n → Nat.digitChar n ≠ '0' := by
  decide

private theorem head?_digits_ne_zero {n : Nat} (positive : 0 < n) :
    (digits n).head? ≠ some '0' := by
  induction n using Nat.strongRecOn with
  | ind n ih =>
      by_cases small : n < 10
      · rw [digits, Nat.toDigits_of_lt_base small]
        simpa using digitChar_ne_zero n small positive
      · obtain ⟨c, cs, shape, _⟩ := exists_cons_digits (n / 10)
        have first := ih (n / 10) (by omega) (by omega)
        rw [digits, Nat.toDigits_of_base_le (by decide) (by omega)]
        change (digits (n / 10) ++ _).head? ≠ _
        rw [shape] at first ⊢
        exact first

private theorem ofDigits_append_zero (cs : List Char) :
    ofDigits (cs ++ ['0']) = ofDigits cs * 10 := by
  rw [ofDigits, Nat.ofDigitChars_append, Nat.ofDigitChars_cons, Nat.mul_comm]
  rfl

private theorem Tie.nearest_mul_mul (tie : Tie) (num den : Nat) {m : Nat} (positive : 0 < m) :
    tie.nearest (num * m) (den * m) = tie.nearest num den := by
  have rest : compare (2 * (num * m % (den * m))) (den * m) = compare (2 * (num % den)) den := by
    rw [Nat.mul_mod_mul_right, ← Nat.mul_assoc]
    simp only [Nat.compare_eq_ite_lt, Nat.mul_lt_mul_right positive]
  have quotient := Nat.mul_div_mul_right num den positive
  have preferred : tie.prefersAbove (num * m) (den * m) = tie.prefersAbove num den := by
    unfold prefersAbove
    rw [rest, quotient]
  rw [nearest, nearest, preferred, quotient]

private theorem Format.nearest_mul_mul (F : Format) (num den : Nat) {m : Nat} (positive : 0 < m) :
    F.nearest (num * m) (den * m) = F.nearest num den := by
  have scaled : num * m * F.unitsPerOne = num * F.unitsPerOne * m := Nat.mul_right_comm ..
  have spaced : ∀ k, den * m * k = den * k * m := fun k => Nat.mul_right_comm ..
  simp only [nearest, scaled, spaced, Nat.mul_div_mul_right _ _ positive,
    Tie.nearest_mul_mul _ _ _ positive]

private theorem Decimal.nearest_mul_ten (F : Format) (coefficient : Nat) :
    (⟨coefficient * 10, -1⟩ : Decimal).nearest F = (⟨coefficient, 0⟩ : Decimal).nearest F := by
  by_cases zero : coefficient = 0
  · simp [nearest, zero]
  · have positive : 0 < coefficient := Nat.pos_of_ne_zero zero
    have width : (⟨coefficient * 10, -1⟩ : Decimal).width = (⟨coefficient, 0⟩ : Decimal).width := by
      simp only [Decimal.width, digits_mul_ten positive, List.length_append, List.length_singleton]
      omega
    have quotient : F.nearest (⟨coefficient * 10, -1⟩ : Decimal).num
        (⟨coefficient * 10, -1⟩ : Decimal).den =
          F.nearest (⟨coefficient, 0⟩ : Decimal).num (⟨coefficient, 0⟩ : Decimal).den := by
      simpa [Decimal.num, Decimal.den] using
        F.nearest_mul_mul coefficient 1 (by decide : 0 < 10)
    rw [nearest, nearest, if_neg zero, if_neg (by simpa using zero), width, quotient]

namespace Decimal

variable {d : Decimal}

private theorem leading_wholeDigits (nonzero : d.coefficient ≠ 0)
    (head : d.wholeDigits.head? = some '0') : d.wholeDigits = ['0'] := by
  have first := head?_digits_ne_zero (Nat.pos_of_ne_zero nonzero)
  obtain ⟨c, cs, shape, _⟩ := exists_cons_digits d.coefficient
  unfold wholeDigits at head ⊢
  dsimp only at head ⊢
  rw [shape] at first
  split at head
  · rw [shape] at head
    exact absurd head first
  · split at head
    · rename_i short
      rw [if_pos short]
    · rename_i e _ long
      rw [shape] at head long
      obtain ⟨m, kept⟩ := Nat.exists_eq_succ_of_ne_zero (Nat.sub_ne_zero_of_lt (Nat.not_le.mp long))
      rw [kept, List.take_succ_cons] at head
      exact absurd head first

end Decimal

end Number

namespace Json

open Number

variable (range : PositionalRange) (negative : Bool) (d : Decimal)

theorem numberOfDecimal_wellFormed : (numberOfDecimal range negative d).WellFormed := by
  unfold numberOfDecimal
  dsimp only
  split
  · exact ⟨by simp, by simp, by simp, by simp⟩
  · rename_i nonzero
    split
    · refine ⟨d.wholeDigits_ne_nil, d.isDigit_of_mem_wholeDigits,
        Decimal.leading_wholeDigits nonzero, ?_⟩
      split
      · simp
      · exact d.isDigit_of_mem_fractionDigits
    · have first := head?_digits_ne_zero (Nat.pos_of_ne_zero nonzero)
      obtain ⟨c, cs, shape, digit⟩ := exists_cons_digits d.coefficient
      have all := fun x => isDigit_of_mem_digits (n := d.coefficient) (c := x)
      rw [shape] at first all ⊢
      refine ⟨by simp, by simpa using digit, fun head => absurd head (by simpa using first), ?_⟩
      intro x member
      exact all x (List.mem_cons_of_mem c member)

private theorem nearest_numberOfDecimal (expandable : 0 < d.coefficient ∨ d.exponent.toNat = 0)
    (F : Format) : (numberOfDecimal range negative d).decimal.nearest F = d.nearest F := by
  unfold numberOfDecimal Numeral.decimal
  dsimp only
  split
  · rename_i zero
    simp [Decimal.nearest, zero, show ofDigits ['0', '0'] = 0 from rfl]
  · split
    · have value := d.ofDigits_positional expandable
      have length := d.length_fractionDigits
      rw [← d.nearest_expanded]
      split
      · rename_i whole
        have same : d.expanded = ⟨ofDigits d.wholeDigits, 0⟩ := by
          rw [whole, List.append_nil] at value
          rw [whole, List.length_nil] at length
          rw [value, Decimal.expanded, Decimal.mk.injEq]
          exact ⟨rfl, by omega⟩
        rw [same, ofDigits_append_zero]
        exact Decimal.nearest_mul_ten F _
      · have same : d.expanded = ⟨ofDigits (d.wholeDigits ++ d.fractionDigits),
            0 - d.fractionDigits.length⟩ := by
          rw [value, length, Decimal.expanded, Decimal.mk.injEq]
          exact ⟨rfl, by omega⟩
        rw [same]
        rfl
    · have length : ((digits d.coefficient).drop 1).length + 1 = (digits d.coefficient).length := by
        obtain ⟨c, cs, shape, _⟩ := exists_cons_digits d.coefficient
        simp [shape]
      rw [List.take_append_drop, ofDigits_digits]
      refine congrArg (Decimal.nearest F) ?_
      rw [Decimal.mk.injEq, Option.getD_some, Decimal.width]
      refine ⟨rfl, ?_⟩
      dsimp only
      omega

private theorem integer?_numberOfDecimal : (numberOfDecimal range negative d).integer? = none := by
  refine if_neg fun whole => ?_
  unfold numberOfDecimal at whole
  dsimp only at whole
  split at whole
  · cases whole.1
  · split at whole
    · split at whole
      · cases whole.1
      · rename_i nonempty
        exact nonempty whole.1
    · cases whole.2

theorem isWord_numberOfDecimal : (numberOfDecimal range negative d).isWord = false := by
  rw [Numeral.isWord, integer?_numberOfDecimal]
  rfl

private theorem negative_numberOfDecimal :
    (numberOfDecimal range negative d).negative = negative := by
  unfold numberOfDecimal
  dsimp only
  split
  · rfl
  · split <;> rfl

variable {F : Format}

theorem binary_numberOfDecimal (expandable : 0 < d.coefficient ∨ d.exponent.toNat = 0) :
    ((numberOfDecimal range negative d).binary : Binary F) = .ofDecimal negative d := by
  rw [Numeral.binary, Binary.ofDecimal, negative_numberOfDecimal,
    nearest_numberOfDecimal range negative d expandable]
  rfl

theorem binary_shortest (tie : Tie) {rank : Nat} (finite : rank < F.infinity)
    (bounded : rank ≤ F.infinity) :
    ((numberOfDecimal range negative (F.shortest tie rank)).binary : Binary F) =
      .number negative rank bounded := by
  rw [binary_numberOfDecimal range negative _ (F.shortest_expandable tie rank), Binary.ofDecimal,
    F.nearest_shortest tie finite]
  simp [Binary.ofRank, Nat.min_eq_left bounded]

theorem ofInt_wellFormed (n : Int) :
    Numeral.WellFormed { negative := n < 0, whole := digits n.natAbs } := by
  refine ⟨digits_ne_nil _, fun c => isDigit_of_mem_digits, fun head => ?_, by simp⟩
  by_cases zero : n.natAbs = 0
  · rw [zero]
    rfl
  · exact absurd head (head?_digits_ne_zero (Nat.pos_of_ne_zero zero))

theorem integer?_ofInt (n : Int) :
    Numeral.integer? { negative := n < 0, whole := digits n.natAbs } = some n := by
  simp only [Numeral.integer?, ofDigits_digits, and_self, if_true, decide_eq_true_eq]
  split
  · rw [if_neg (by omega), Option.some.injEq]
    omega
  · rw [Option.some.injEq]
    omega

end Json

end ShoreMetadata
