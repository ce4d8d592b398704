import ShoreMetadata.Number.Integer
import ShoreMetadata.Number.Format

/-! Non-negative decimal fractions, a whole coefficient times a power of ten,
and the text of them. -/

namespace ShoreMetadata.Number

structure Decimal where
  coefficient : Nat
  exponent : Int
deriving DecidableEq

namespace Decimal

/-- The value lies below ten to this power. -/
def width (d : Decimal) : Int :=
  (digits d.coefficient).length + d.exponent

def num (d : Decimal) : Nat :=
  d.coefficient * Nat.pow 10 d.exponent.toNat

def den (d : Decimal) : Nat :=
  Nat.pow 10 (-d.exponent).toNat

/-- Rank of the nearest number. Widths beyond the reach of the format are told
from the number of digits alone. -/
def nearest (F : Format) (d : Decimal) : Nat :=
  if d.coefficient = 0 then 0
  else if d.width > F.unitPower + 1 then F.infinity
  else if d.width < -(F.unitPower + 1 : Int) then 0
  else F.nearest d.num d.den

/-! Digits, then optionally a point and more digits, then optionally an
exponent; one digit must stand on either side of the point. -/

def exponent? : List Char → Option Int
  | [] => some 0
  | c :: cs => if c == 'e' || c == 'E' then integer? cs else none

def parse? (cs : List Char) : Option Decimal :=
  let whole := cs.takeWhile Char.isDigit
  let rest := cs.dropWhile Char.isDigit
  let (fraction, rest) := match rest with
    | '.' :: more => (more.takeWhile Char.isDigit, more.dropWhile Char.isDigit)
    | _ => ([], rest)
  if whole = [] ∧ fraction = [] then none
  else (exponent? rest).map fun exponent =>
    ⟨ofDigits (whole ++ fraction), exponent - fraction.length⟩

/-! Positional digits on either side of the point. -/

def wholeDigits (d : Decimal) : List Char :=
  let cs := digits d.coefficient
  match d.exponent with
  | .ofNat e => cs ++ List.replicate e '0'
  | .negSucc e => if cs.length ≤ e + 1 then ['0'] else cs.take (cs.length - (e + 1))

def fractionDigits (d : Decimal) : List Char :=
  let cs := digits d.coefficient
  match d.exponent with
  | .ofNat _ => []
  | .negSucc e => List.replicate (e + 1 - cs.length) '0' ++ cs.drop (cs.length - (e + 1))

def positional (d : Decimal) : List Char :=
  match d.fractionDigits with
  | [] => d.wholeDigits
  | cs => d.wholeDigits ++ '.' :: cs

end Decimal

end ShoreMetadata.Number
