import Mathlib.Tactic.Ring
import ShoreMetadata.Number.Binary
import ShoreMetadata.Proofs.Number.Decimal

/-! Every number is read back from its text: the shortest digits are digits that
read back, and so are all digits of a number. -/

namespace ShoreMetadata.Number

open Text

private theorem Tie.nearest_mul (tie : Tie) (n : Nat) {den : Nat} (positive : 0 < den) :
    tie.nearest (n * den) den = n := by
  have below : compare (2 * (n * den % den)) den = .lt := by
    rw [Nat.mul_mod_left, Nat.mul_zero]
    exact Nat.compare_eq_lt.mpr positive
  have notAbove : tie.prefersAbove (n * den) den = false := by
    unfold prefersAbove
    rw [below]
  rw [nearest, notAbove, if_neg Bool.false_ne_true, Nat.mul_div_cancel n positive]

namespace Format

variable (F : Format)

def significand (rank : Nat) : Nat :=
  rank - F.doublings rank * F.binade

private theorem binade_pos : 0 < F.binade :=
  Nat.pow_pos (by decide)

private theorem significand_add (rank : Nat) :
    F.doublings rank * F.binade + F.significand rank = rank := by
  have below : F.doublings rank * F.binade ≤ rank :=
    calc F.doublings rank * F.binade
      _ ≤ rank / F.binade * F.binade := Nat.mul_le_mul_right _ (Nat.sub_le _ _)
      _ ≤ rank := Nat.div_mul_le_self _ _
  exact Nat.add_sub_of_le below

private theorem significand_lt (rank : Nat) : F.significand rank < 2 * F.binade := by
  have whole := F.significand_add rank
  have below : rank < (rank / F.binade + 1) * F.binade := by
    rw [Nat.mul_comm]
    exact Nat.lt_mul_div_succ rank F.binade_pos
  have step : rank / F.binade + 1 ≤ F.doublings rank + 2 := by
    unfold doublings
    omega
  have bound := Nat.mul_le_mul_right F.binade step
  rw [Nat.add_mul _ 2] at bound
  omega

private theorem le_significand {rank : Nat} (doubled : 0 < F.doublings rank) :
    F.binade ≤ F.significand rank := by
  have whole := F.significand_add rank
  have above := Nat.div_mul_le_self rank F.binade
  have step : rank / F.binade = F.doublings rank + 1 := by
    unfold doublings at doubled ⊢
    omega
  rw [step, Nat.add_mul] at above
  omega

private theorem units_eq (rank : Nat) :
    F.units rank = F.significand rank * 2 ^ F.doublings rank := rfl

private theorem units_pos {rank : Nat} (positive : 0 < rank) : 0 < F.units rank := by
  rw [units_eq]
  refine Nat.mul_pos ?_ (Nat.pow_pos (by decide))
  cases doublings : F.doublings rank with
  | zero =>
      have whole := F.significand_add rank
      rw [doublings] at whole
      omega
  | succ d =>
      have doubled : 0 < F.doublings rank := by omega
      have leading := F.le_significand doubled
      have positive := F.binade_pos
      omega

private theorem log2_units {rank : Nat} (positive : 0 < rank) :
    (F.units rank).log2 - F.fractionBits = F.doublings rank := by
  have nonzero := Nat.ne_of_gt (F.units_pos positive)
  have bound := F.significand_lt rank
  have below : (F.units rank).log2 < F.fractionBits + 1 + F.doublings rank := by
    rw [Nat.log2_lt nonzero, units_eq, Nat.pow_add]
    refine Nat.mul_lt_mul_of_pos_right ?_ (Nat.pow_pos (by decide))
    rw [Nat.pow_succ, Nat.mul_comm]
    exact bound
  by_cases doubled : 0 < F.doublings rank
  · have leading := F.le_significand doubled
    have above : F.fractionBits + F.doublings rank ≤ (F.units rank).log2 := by
      rw [Nat.le_log2 nonzero, units_eq, Nat.pow_add]
      exact Nat.mul_le_mul_right _ leading
    omega
  · omega

private theorem doublings_lt {rank : Nat} (finite : rank < F.infinity) :
    F.fractionBits + 1 + F.doublings rank ≤ 2 * F.unitPower + 2 := by
  have below : rank / F.binade < 2 ^ F.exponentBits - 1 := Nat.div_lt_of_lt_mul (by
    rw [Nat.mul_comm]
    exact finite)
  unfold doublings unitPower
  simp only [Nat.pow_eq]
  cases bits : F.exponentBits with
  | zero => simp [bits] at below
  | succ e =>
      rw [bits, Nat.pow_succ] at below
      rw [Nat.add_sub_cancel]
      omega

private theorem units_lt {rank : Nat} (finite : rank < F.infinity) :
    F.units rank < 2 ^ (2 * F.unitPower + 2) := by
  have bound := F.significand_lt rank
  calc F.units rank
    _ < 2 * F.binade * 2 ^ F.doublings rank :=
      Nat.mul_lt_mul_of_pos_right bound (Nat.pow_pos (by decide))
    _ = 2 ^ (F.fractionBits + 1 + F.doublings rank) := by
      rw [Nat.pow_add, Nat.pow_succ, Nat.mul_comm 2]
      rfl
    _ ≤ 2 ^ (2 * F.unitPower + 2) := Nat.pow_le_pow_right (by decide) (F.doublings_lt finite)

private theorem width_exact_le {rank : Nat} (finite : rank < F.infinity) :
    (F.exact rank).width ≤ F.unitPower + 1 := by
  have few : (digits (F.units rank * 5 ^ F.unitPower)).length ≤ 2 * F.unitPower + 1 := by
    rw [digits, Nat.length_toDigits_le_iff (by decide) (by omega)]
    calc F.units rank * 5 ^ F.unitPower
      _ < 2 ^ (2 * F.unitPower + 2) * 5 ^ F.unitPower :=
        Nat.mul_lt_mul_of_pos_right (F.units_lt finite) (Nat.pow_pos (by decide))
      _ = 2 ^ (2 * F.unitPower + 1) * (2 * 5 ^ F.unitPower) := by
        rw [Nat.pow_succ]
        ring
      _ ≤ 2 ^ (2 * F.unitPower + 1) * 5 ^ (2 * F.unitPower + 1) := by
        refine Nat.mul_le_mul_left _ ?_
        calc 2 * 5 ^ F.unitPower
          _ ≤ 5 * 5 ^ F.unitPower := Nat.mul_le_mul_right _ (by decide)
          _ = 5 ^ (F.unitPower + 1) := by rw [Nat.pow_succ, Nat.mul_comm]
          _ ≤ 5 ^ (2 * F.unitPower + 1) := Nat.pow_le_pow_right (by decide) (by omega)
      _ = 10 ^ (2 * F.unitPower + 1) := by rw [← Nat.mul_pow]
  simp only [exact, Decimal.width, Nat.pow_eq]
  omega

private theorem le_width_exact (rank : Nat) : -(F.unitPower + 1 : Int) ≤ (F.exact rank).width := by
  simp only [exact, Decimal.width]
  omega

private theorem nearest_exact {rank : Nat} (positive : 0 < rank) (finite : rank < F.infinity) :
    (F.exact rank).nearest F = rank := by
  have unitsPos := F.units_pos positive
  have nonzero : (F.exact rank).coefficient ≠ 0 :=
    Nat.ne_of_gt (Nat.mul_pos unitsPos (Nat.pow_pos (by decide)))
  have den : (F.exact rank).den = 10 ^ F.unitPower := by
    simp [exact, Decimal.den]
  have scaled : (F.exact rank).num * F.unitsPerOne = F.units rank * 10 ^ F.unitPower := by
    simp only [exact, Decimal.num, unitsPerOne, Nat.pow_eq, Int.toNat_neg_natCast, Nat.pow_zero,
      Nat.mul_one]
    rw [Nat.mul_assoc, ← Nat.mul_pow]
  have tenPos : 0 < 10 ^ F.unitPower := Nat.pow_pos (by decide)
  have spread : F.units rank * 10 ^ F.unitPower =
      F.significand rank * (10 ^ F.unitPower * Nat.pow 2 (F.doublings rank)) := by
    rw [units_eq, Nat.pow_eq]
    ring
  have spreadPos : 0 < 10 ^ F.unitPower * Nat.pow 2 (F.doublings rank) :=
    Nat.mul_pos tenPos (Nat.pow_pos (by decide))
  have above := F.width_exact_le finite
  have below := F.le_width_exact rank
  rw [Decimal.nearest, if_neg nonzero, if_neg (by omega), if_neg (by omega), nearest]
  simp only [den, scaled, Nat.mul_div_cancel _ tenPos, F.log2_units positive]
  rw [spread, Tie.nearest_mul _ _ spreadPos, F.significand_add rank]
  exact Nat.min_eq_right (Nat.le_of_lt finite)

theorem nearest_shortest (tie : Tie) {rank : Nat} (finite : rank < F.infinity) :
    (F.shortest tie rank).nearest F = rank := by
  unfold shortest
  split
  · rename_i zero
    rw [zero]
    rfl
  · rename_i nonzero
    cases found : (List.range (F.fractionBits + 2)).findSome? fun (step : Nat) =>
        F.onGrid? tie rank (F.ceilingPower rank - step) with
    | none => exact F.nearest_exact (Nat.pos_of_ne_zero nonzero) finite
    | some d =>
        obtain ⟨step, _, onGrid⟩ := List.exists_of_findSome?_eq_some found
        have reads := List.find?_some onGrid
        simp only [readsBack, Bool.and_eq_true, beq_iff_eq] at reads
        exact reads.2

theorem shortest_expandable (tie : Tie) (rank : Nat) :
    0 < (F.shortest tie rank).coefficient ∨ (F.shortest tie rank).exponent.toNat = 0 := by
  unfold shortest
  split
  · exact .inr rfl
  · rename_i nonzero
    left
    cases found : (List.range (F.fractionBits + 2)).findSome? fun (step : Nat) =>
        F.onGrid? tie rank (F.ceilingPower rank - step) with
    | none =>
        exact Nat.mul_pos (F.units_pos (Nat.pos_of_ne_zero nonzero)) (Nat.pow_pos (by decide))
    | some d =>
        obtain ⟨step, _, onGrid⟩ := List.exists_of_findSome?_eq_some found
        have reads := List.find?_some onGrid
        simp only [readsBack, Bool.and_eq_true, decide_eq_true_eq] at reads
        exact Nat.pos_of_ne_zero reads.1

end Format

namespace Decimal

variable (d : Decimal)

private theorem mem_positional {c : Char} (member : c ∈ d.positional) :
    c.isDigit = true ∨ c = '.' := by
  unfold positional at member
  split at member
  · exact .inl (d.isDigit_of_mem_wholeDigits c member)
  · rename_i cs fraction
    rcases List.mem_append.mp member with member | member
    · exact .inl (d.isDigit_of_mem_wholeDigits c member)
    · rcases List.mem_cons.mp member with rfl | member
      · exact .inr rfl
      · exact .inl (d.isDigit_of_mem_fractionDigits c member)

private theorem exists_cons_positional :
    ∃ c cs, d.positional = c :: cs ∧ c.isDigit = true := by
  obtain ⟨c, cs, whole⟩ := List.exists_cons_of_ne_nil d.wholeDigits_ne_nil
  have digit := d.isDigit_of_mem_wholeDigits c (by rw [whole]; simp)
  unfold positional
  split
  · exact ⟨c, cs, whole, digit⟩
  · exact ⟨c, _, by rw [whole]; rfl, digit⟩

end Decimal

namespace Binary

variable {F : Format}

private theorem unsigned?_infinity (negative : Bool) :
    (unsigned? negative "inf".toList : Option (Binary F)) =
      some (ofRank negative F.infinity) := by
  simp [unsigned?]

private theorem unsigned?_of_isDigit (negative : Bool) {c : Char} {cs : List Char}
    (digit : c.isDigit = true) :
    (unsigned? negative (c :: cs) : Option (Binary F)) =
      (Decimal.parse? (c :: cs)).map (ofDecimal negative) := by
  have lower : c.toLower = c := by
    have bounds : 48 ≤ c.toNat ∧ c.toNat ≤ 57 := by
      simpa [Char.isDigit, UInt32.le_iff_toNat_le] using digit
    unfold Char.toLower
    rw [dif_neg]
    simp only [ge_iff_le, UInt32.le_iff_toNat_le]
    change ¬(65 ≤ c.toNat ∧ c.toNat ≤ 90)
    omega
  have noI : c ≠ 'i' := ne_of_isDigit digit (by decide)
  have noN : c ≠ 'n' := ne_of_isDigit digit (by decide)
  simp [unsigned?, lower, noI, noN]

private theorem unsigned?_shortest (negative : Bool) {rank : Nat} (finite : rank < F.infinity) :
    unsigned? negative (F.shortest .away rank).positional =
      some (ofRank negative rank : Binary F) := by
  obtain ⟨c, cs, shape, digit⟩ := (F.shortest .away rank).exists_cons_positional
  rw [shape, unsigned?_of_isDigit negative digit, ← shape,
    Decimal.parse?_positional _ (F.shortest_expandable .away rank), Option.map_some, ofDecimal,
    Decimal.nearest_expanded, F.nearest_shortest .away finite]

private theorem read?_signDigits (negative : Bool) {c : Char} {cs : List Char} (noMinus : c ≠ '-')
    (noPlus : c ≠ '+') :
    (read? (signDigits negative (c :: cs)) : Option (Binary F)) = unsigned? negative (c :: cs) := by
  cases negative with
  | true => rfl
  | false =>
      unfold signDigits read?
      split <;> simp_all

theorem read?_text? {x : Binary F} {s : String} (written : x.text? = some s) :
    read? s.toList = some x := by
  cases x with
  | nan => cases written
  | number negative rank le_infinity =>
      cases written
      have same : (ofRank negative rank : Binary F) = .number negative rank le_infinity := by
        simp [ofRank, Nat.min_eq_left le_infinity]
      rw [String.toList_ofList]
      split
      · rename_i finite
        obtain ⟨c, cs, shape, digit⟩ := (F.shortest .away rank).exists_cons_positional
        rw [shape, read?_signDigits negative (ne_of_isDigit digit (by decide))
          (ne_of_isDigit digit (by decide)), ← shape, unsigned?_shortest negative finite, same]
      · rename_i infinite
        have infinity : rank = F.infinity := Nat.le_antisymm le_infinity (Nat.not_lt.mp infinite)
        have read : read? (signDigits negative "inf".toList) = unsigned? negative "inf".toList :=
          read?_signDigits (F := F) negative (by decide) (by decide)
        rw [read, unsigned?_infinity, ← infinity, same]

theorem isBlank_of_mem_text? {x : Binary F} {s : String} (written : x.text? = some s) :
    ∀ c ∈ s.toList, isBlank c = false := by
  cases x with
  | nan => cases written
  | number negative rank le_infinity =>
      cases written
      intro c member
      rw [String.toList_ofList, signDigits] at member
      have inside : c = '-' ∨ c ∈ "inf".toList ∨ c ∈ (F.shortest .away rank).positional := by
        split at member <;> split at member <;> grind
      rcases inside with rfl | named | positional
      · decide
      · have letters : c = 'i' ∨ c = 'n' ∨ c = 'f' := by simpa using named
        rcases letters with rfl | rfl | rfl <;> decide
      · rcases (F.shortest .away rank).mem_positional positional with digit | rfl
        · exact isBlank_of_isDigit digit
        · decide

end Binary

end ShoreMetadata.Number
