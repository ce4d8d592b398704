import ShoreMetadata.Number.Binary

/-! JSON values. A number keeps the digits it is written with, so that integers
stay apart from fractions. -/

namespace ShoreMetadata

namespace Json

structure Numeral where
  negative : Bool
  whole : List Char
  fraction : List Char := []
  exponent : Option Int := none
deriving DecidableEq

end Json

inductive Json where
  | null
  | bool (value : Bool)
  | number (value : Json.Numeral)
  | string (value : String)
  | array (items : List Json)
  | object (members : List (String × Json))
deriving Inhabited

namespace Json

open Number

def ofInt (n : Int) : Json :=
  .number { negative := n < 0, whole := digits n.natAbs }

def ofNat (n : Nat) : Json :=
  ofInt n

namespace Numeral

/-- Minus zero is no integer. -/
def integer? (n : Numeral) : Option Int :=
  if n.fraction = [] ∧ n.exponent = none then
    let size := ofDigits n.whole
    if n.negative then if size = 0 then none else some (-size) else some size
  else none

/-- A whole number of 64 bits, with or without a sign. -/
def isWord (n : Numeral) : Bool :=
  n.integer?.any fun i => -(Nat.pow 2 63 : Int) ≤ i && i < Nat.pow 2 64

def decimal (n : Numeral) : Decimal :=
  ⟨ofDigits (n.whole ++ n.fraction),
    n.exponent.getD 0 - n.fraction.length⟩

def binary {F : Format} (n : Numeral) : Binary F :=
  .ofDecimal n.negative n.decimal

end Numeral

/-! Floating-point numbers are written positionally if the power of ten of their
first digit lies in a range, else with an exponent. -/

structure PositionalRange where
  least : Int
  most : Int

def doubleRange : PositionalRange := ⟨-5, 15⟩

def singleRange : PositionalRange := ⟨-6, 12⟩

def numberOfDecimal (range : PositionalRange) (negative : Bool)
    (d : Decimal) : Numeral :=
  let leading := d.width - 1
  if d.coefficient = 0 then { negative, whole := ['0'], fraction := ['0'] }
  else if range.least ≤ leading ∧ leading ≤ range.most then
    { negative
      whole := d.wholeDigits
      fraction := if d.fractionDigits = [] then ['0'] else d.fractionDigits }
  else
    let cs := digits d.coefficient
    { negative, whole := cs.take 1, fraction := cs.drop 1, exponent := some leading }

/-- Digits are even on a tie. Infinities and NaN have no JSON form. -/
def ofBinary (range : PositionalRange) {F : Format} :
    Binary F → Json
  | .nan => .null
  | .number negative rank _ =>
    if rank < F.infinity then
      .number (numberOfDecimal range negative (F.shortest .toEven rank))
    else .null

/-! Members of an object by name; of a repeated name the last counts. -/

def memberIn? (name : String) (members : List (String × Json)) : Option Json :=
  (members.reverse.find? (·.1 = name)).map Prod.snd

def member? (json : Json) (name : String) : Option Json :=
  match json with
  | .object members => memberIn? name members
  | _ => none

end Json

end ShoreMetadata
