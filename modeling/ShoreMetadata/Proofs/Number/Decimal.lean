import Mathlib.Algebra.Group.Nat.Defs
import ShoreMetadata.Number.Decimal
import ShoreMetadata.Proofs.Number.Integer

/-! Positional text stands for the number it was written for. -/

namespace ShoreMetadata.Number

theorem takeWhile_digits {cs : List Char} (all : ∀ c ∈ cs, c.isDigit = true) (rest : List Char)
    (ended : ∀ c, rest.head? = some c → c.isDigit = false) :
    (cs ++ rest).takeWhile Char.isDigit = cs ∧ (cs ++ rest).dropWhile Char.isDigit = rest :=
  ⟨Text.takeWhile_append_of_head all ended, Text.dropWhile_append_of_head all ended⟩

theorem digits_mul_ten {n : Nat} (positive : 0 < n) : digits (n * 10) = digits n ++ ['0'] := by
  rw [digits, Nat.toDigits_of_base_le (by decide) (by omega), Nat.mul_div_cancel n (by decide),
    Nat.mul_mod_left]
  rfl

private theorem digits_mul_pow {n : Nat} (positive : 0 < n) (e : Nat) :
    digits (n * 10 ^ e) = digits n ++ List.replicate e '0' := by
  induction e with
  | zero => simp
  | succ e ih =>
      have scaled : 0 < n * 10 ^ e := Nat.mul_pos positive (Nat.pow_pos (by decide))
      rw [Nat.pow_succ, ← Nat.mul_assoc, digits_mul_ten scaled, ih,
        List.append_assoc, List.replicate_succ']

private theorem ofDigits_zeros_append (zeros : Nat) (cs : List Char) :
    ofDigits (List.replicate zeros '0' ++ cs) = ofDigits cs := by
  rw [ofDigits, Nat.ofDigitChars_append, Nat.ofDigitChars_replicate_zero, Nat.mul_zero]
  rfl

namespace Decimal

variable (d : Decimal)

def expanded : Decimal :=
  ⟨d.coefficient * 10 ^ d.exponent.toNat, min d.exponent 0⟩

theorem length_fractionDigits : (d.fractionDigits.length : Int) = -min d.exponent 0 := by
  obtain ⟨coefficient, exponent⟩ := d
  cases exponent with
  | ofNat e =>
      simp only [fractionDigits, List.length_nil, Int.ofNat_eq_natCast]
      omega
  | negSucc e =>
      simp only [fractionDigits, List.length_append, List.length_replicate, List.length_drop]
      omega

theorem ofDigits_positional (positive : 0 < d.coefficient ∨ d.exponent.toNat = 0) :
    ofDigits (d.wholeDigits ++ d.fractionDigits) = d.expanded.coefficient := by
  obtain ⟨coefficient, exponent⟩ := d
  cases exponent with
  | ofNat e =>
      simp only [wholeDigits, fractionDigits, List.append_nil, expanded, Int.ofNat_eq_natCast,
        Int.toNat_natCast] at positive ⊢
      rcases positive with positive | rfl
      · rw [← digits_mul_pow positive, ofDigits_digits]
      · simp
  | negSucc e =>
      simp only [wholeDigits, fractionDigits, expanded, Int.toNat_negSucc, Nat.pow_zero,
        Nat.mul_one]
      split
      · rename_i short
        rw [Nat.sub_eq_zero_of_le short, List.drop_zero, List.singleton_append,
          ← List.cons_append, ← List.replicate_succ, ofDigits_zeros_append, ofDigits_digits]
      · rename_i long
        have noZeros : e + 1 - (digits coefficient).length = 0 := by omega
        rw [noZeros, List.replicate_zero, List.nil_append, List.take_append_drop, ofDigits_digits]

theorem isDigit_of_mem_wholeDigits : ∀ c ∈ d.wholeDigits, c.isDigit = true := by
  intro c member
  unfold wholeDigits at member
  split at member
  · rcases List.mem_append.mp member with member | member
    · exact isDigit_of_mem_digits member
    · rw [List.eq_of_mem_replicate member]
      decide
  · dsimp only at member
    split at member
    · rw [List.mem_singleton.mp member]
      decide
    · exact isDigit_of_mem_digits (List.mem_of_mem_take member)

theorem isDigit_of_mem_fractionDigits : ∀ c ∈ d.fractionDigits, c.isDigit = true := by
  intro c member
  unfold fractionDigits at member
  split at member
  · cases member
  · rcases List.mem_append.mp member with member | member
    · rw [List.eq_of_mem_replicate member]
      decide
    · exact isDigit_of_mem_digits (List.mem_of_mem_drop member)

theorem wholeDigits_ne_nil : d.wholeDigits ≠ [] := by
  unfold wholeDigits
  split
  · simp [digits_ne_nil]
  · dsimp only
    split
    · simp
    · simp only [ne_eq, List.take_eq_nil_iff, digits_ne_nil, or_false]
      omega

theorem parse?_positional (positive : 0 < d.coefficient ∨ d.exponent.toNat = 0) :
    parse? d.positional = some d.expanded := by
  have value := d.ofDigits_positional positive
  have length := d.length_fractionDigits
  have whole := d.isDigit_of_mem_wholeDigits
  unfold positional
  cases fraction : d.fractionDigits with
  | nil =>
      rw [fraction, List.append_nil] at value
      rw [fraction, List.length_nil] at length
      have split := takeWhile_digits whole [] (by simp)
      rw [List.append_nil] at split
      simp only [parse?, split.1, split.2, exponent?, d.wholeDigits_ne_nil, List.append_nil, value,
        false_and, if_false, Option.map_some, List.length_nil]
      simp only [expanded, Option.some.injEq, mk.injEq, true_and]
      omega
  | cons c cs =>
      have split := takeWhile_digits whole ('.' :: c :: cs) (by simp)
      have fractionDigits : ∀ x ∈ c :: cs, x.isDigit = true := by
        rw [← fraction]
        exact d.isDigit_of_mem_fractionDigits
      have splitFraction := takeWhile_digits fractionDigits [] (by simp)
      rw [List.append_nil] at splitFraction
      rw [fraction] at value length
      simp only [parse?, split.1, split.2, splitFraction.1, splitFraction.2, exponent?,
        d.wholeDigits_ne_nil, false_and, if_false, Option.map_some, value]
      simp only [expanded, Option.some.injEq, mk.injEq, true_and]
      omega

private theorem width_expanded (positive : 0 < d.coefficient) : d.expanded.width = d.width := by
  unfold width expanded
  dsimp only
  rw [digits_mul_pow positive, List.length_append, List.length_replicate]
  omega

theorem nearest_expanded (F : Format) : d.expanded.nearest F = d.nearest F := by
  by_cases zero : d.coefficient = 0
  · simp [nearest, expanded, zero]
  · have positive : 0 < d.coefficient := Nat.pos_of_ne_zero zero
    have stillPositive : d.expanded.coefficient ≠ 0 :=
      Nat.ne_of_gt (Nat.mul_pos positive (Nat.pow_pos (by decide)))
    have num : d.expanded.num = d.num := by
      have none : (min d.exponent 0).toNat = 0 := by omega
      simp [Decimal.num, expanded, none]
    have den : d.expanded.den = d.den := by
      have same : (-min d.exponent 0).toNat = (-d.exponent).toNat := by omega
      simp [Decimal.den, expanded, same]
    simp only [nearest, if_neg zero, if_neg stillPositive, d.width_expanded positive, num, den]

end Decimal

end ShoreMetadata.Number
