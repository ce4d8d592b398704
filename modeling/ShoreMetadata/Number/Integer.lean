/-! Whole numbers in decimal: an optional sign and a run of ASCII digits. -/

namespace ShoreMetadata.Number

def digits (n : Nat) : List Char :=
  Nat.toDigits 10 n

def ofDigits (cs : List Char) : Nat :=
  Nat.ofDigitChars 10 cs 0

@[simp] theorem ofDigits_digits (n : Nat) : ofDigits (digits n) = n :=
  Nat.ofDigitChars_toDigits (by decide) (by decide)

theorem isDigit_of_mem_digits {n : Nat} {c : Char} (h : c ∈ digits n) : c.isDigit = true :=
  Nat.isDigit_of_mem_toDigits (by decide) (by decide) h

def natural? (cs : List Char) : Option Nat :=
  if cs ≠ [] ∧ cs.all Char.isDigit then some (ofDigits cs) else none

def integer? : List Char → Option Int
  | '-' :: cs => (natural? cs).map fun n => -(n : Int)
  | '+' :: cs => (natural? cs).map Int.ofNat
  | cs => (natural? cs).map Int.ofNat

def integerDigits (n : Int) : List Char :=
  if n < 0 then '-' :: digits n.natAbs else digits n.natAbs

def integerText (n : Int) : String :=
  String.ofList (integerDigits n)

/-! Integers that fit a signed word of 64 or 32 bits. -/

def int64OfInt? (n : Int) : Option Int64 :=
  if h : Int64.minValue.toInt ≤ n ∧ n ≤ Int64.maxValue.toInt then
    some (Int64.ofIntLE n h.1 h.2)
  else none

def int32OfInt? (n : Int) : Option Int32 :=
  if h : Int32.minValue.toInt ≤ n ∧ n ≤ Int32.maxValue.toInt then
    some (Int32.ofIntLE n h.1 h.2)
  else none

def int64? (cs : List Char) : Option Int64 :=
  (integer? cs).bind int64OfInt?

def int32? (cs : List Char) : Option Int32 :=
  (integer? cs).bind int32OfInt?

end ShoreMetadata.Number
