import Mathlib.Algebra.Group.Nat.Defs
import ShoreMetadata.Number.Integer
import ShoreMetadata.Proofs.Text.Trim
import ShoreMetadata.Text.Digit

/-! Every integer is read back from its text. -/

namespace ShoreMetadata.Number

open Text

theorem isBlank_of_isDigit {c : Char} (digit : c.isDigit = true) : isBlank c = false := by
  have bounds : 48 ≤ c.toNat ∧ c.toNat ≤ 57 := by
    simpa [Char.isDigit, UInt32.le_iff_toNat_le] using digit
  simp only [isBlank, inRanges, blankRanges, List.any_cons, List.any_nil, Bool.or_false,
    Bool.or_eq_false_iff, Bool.and_eq_false_iff, decide_eq_false_iff_not]
  omega

theorem ne_of_isDigit {c d : Char} (digit : c.isDigit = true) (other : d.isDigit = false) :
    c ≠ d := by
  rintro rfl
  simp [digit] at other

theorem digits_ne_nil (n : Nat) : digits n ≠ [] :=
  Nat.toDigits_ne_nil

theorem exists_cons_digits (n : Nat) :
    ∃ c cs, digits n = c :: cs ∧ c.isDigit = true := by
  obtain ⟨c, cs, shape⟩ := List.exists_cons_of_ne_nil (digits_ne_nil n)
  exact ⟨c, cs, shape, isDigit_of_mem_digits (by rw [shape]; simp)⟩

theorem natural?_of_digits {cs : List Char} (nonempty : cs ≠ [])
    (all : ∀ c ∈ cs, c.isDigit = true) : natural? cs = some (ofDigits cs) := by
  rw [natural?, if_pos ⟨nonempty, by simpa using all⟩]

private theorem natural?_digits (n : Nat) : natural? (digits n) = some n := by
  rw [natural?_of_digits (digits_ne_nil n) fun c => isDigit_of_mem_digits, ofDigits_digits]

theorem ofDigits_lt {cs : List Char} (all : ∀ c ∈ cs, c.isDigit = true) :
    ofDigits cs < 10 ^ cs.length := by
  induction cs with
  | nil => decide
  | cons c cs ih =>
      have digit : c.toNat - '0'.toNat ≤ 9 := by
        have bounds : 48 ≤ c.toNat ∧ c.toNat ≤ 57 := by
          simpa [Char.isDigit, UInt32.le_iff_toNat_le] using all c (by simp)
        have zero : '0'.toNat = 48 := rfl
        omega
      have others : Nat.ofDigitChars 10 cs 0 < 10 ^ cs.length :=
        ih fun d member => all d (by simp [member])
      have first : 10 ^ cs.length * (10 * 0 + (c.toNat - '0'.toNat)) ≤ 10 ^ cs.length * 9 :=
        Nat.mul_le_mul_left _ (by omega)
      rw [ofDigits, Nat.ofDigitChars_cons, Nat.ofDigitChars_eq_ofDigitChars_zero,
        List.length_cons, Nat.pow_succ]
      omega

private theorem integer?_of_isDigit {c : Char} {cs : List Char} (digit : c.isDigit = true) :
    integer? (c :: cs) = (natural? (c :: cs)).map Int.ofNat := by
  unfold integer?
  split
  · rename_i shape
    cases shape
    contradiction
  · rename_i shape
    cases shape
    contradiction
  · rfl

private theorem integer?_integerDigits (n : Int) : integer? (integerDigits n) = some n := by
  unfold integerDigits
  split
  · rename_i negative
    rw [integer?, natural?_digits]
    change some (-(n.natAbs : Int)) = some n
    congr 1
    omega
  · rename_i nonnegative
    obtain ⟨c, cs, shape, digit⟩ := exists_cons_digits n.natAbs
    rw [shape, integer?_of_isDigit digit, ← shape, natural?_digits, Option.map_some]
    congr 1
    exact Int.natAbs_of_nonneg (by omega)

theorem trimBy_integerText (n : Int) :
    trimBy isBlank (integerText n).toList = integerDigits n := by
  rw [integerText, String.toList_ofList]
  refine trimBy_of_forall fun c member => ?_
  unfold integerDigits at member
  split at member
  · rcases List.mem_cons.mp member with rfl | member
    · decide
    · exact isBlank_of_isDigit (isDigit_of_mem_digits member)
  · exact isBlank_of_isDigit (isDigit_of_mem_digits member)

theorem int64OfInt?_toInt (n : Int64) : int64OfInt? n.toInt = some n := by
  have bounds : Int64.minValue.toInt ≤ n.toInt ∧ n.toInt ≤ Int64.maxValue.toInt :=
    ⟨Int64.minValue_le_toInt n, Int64.toInt_le n⟩
  rw [int64OfInt?, dif_pos bounds, Int64.ofIntLE_toInt]

theorem int32OfInt?_toInt (n : Int32) : int32OfInt? n.toInt = some n := by
  have bounds : Int32.minValue.toInt ≤ n.toInt ∧ n.toInt ≤ Int32.maxValue.toInt :=
    ⟨Int32.minValue_le_toInt n, Int32.toInt_le n⟩
  rw [int32OfInt?, dif_pos bounds, Int32.ofIntLE_toInt]

theorem int64?_integerDigits (n : Int64) : int64? (integerDigits n.toInt) = some n := by
  rw [int64?, integer?_integerDigits, Option.bind_some, int64OfInt?_toInt]

theorem int32?_integerDigits (n : Int32) : int32? (integerDigits n.toInt) = some n := by
  rw [int32?, integer?_integerDigits, Option.bind_some, int32OfInt?_toInt]

end ShoreMetadata.Number
