import ShoreMetadata.Number.Decimal

/-! Binary floating-point numbers, their reading from decimal text and their
shortest decimal text. -/

namespace ShoreMetadata.Number

inductive Binary (F : Format) where
  | nan
  | number (negative : Bool) (rank : Nat) (le_infinity : rank ≤ F.infinity)
deriving DecidableEq

abbrev Double := Binary .binary64

abbrev Single := Binary .binary32

namespace Binary

variable {F G : Format}

def ofRank (negative : Bool) (rank : Nat) : Binary F :=
  .number negative (min rank F.infinity) (Nat.min_le_right ..)

def isNaN : Binary F → Bool
  | .nan => true
  | .number .. => false

def isFinite : Binary F → Bool
  | .nan => false
  | .number _ rank _ => rank < F.infinity

/-- Equality of values: the two zeros agree, and nothing equals a NaN. -/
def same : Binary F → Binary F → Bool
  | .number s r _, .number t q _ => r == q && (s == t || r == 0)
  | _, _ => false

/-- Order of values, false when either side is a NaN. -/
def lt : Binary F → Binary F → Bool
  | .number s r _, .number t q _ =>
    match s, t with
    | false, false => r < q
    | true, true => q < r
    | true, false => 0 < r + q
    | false, true => false
  | _, _ => false

def convert : Binary F → Binary G
  | .nan => .nan
  | .number negative rank _ =>
    if rank < F.infinity then ofRank negative (G.nearest (F.units rank) F.unitsPerOne)
    else ofRank negative G.infinity

def ofInt (n : Int) : Binary F :=
  ofRank (n < 0) (F.nearest n.natAbs 1)

def ofDecimal (negative : Bool) (d : Decimal) : Binary F :=
  ofRank negative (d.nearest F)

/-! Reading: an optional sign, then a decimal fraction or the name of a special
value in any case. -/

def unsigned? (negative : Bool) (cs : List Char) : Option (Binary F) :=
  let name := cs.map Char.toLower
  if name = "inf".toList ∨ name = "infinity".toList then some (ofRank negative F.infinity)
  else if name = "nan".toList then some .nan
  else (Decimal.parse? cs).map (ofDecimal negative)

def read? : List Char → Option (Binary F)
  | '-' :: cs => unsigned? true cs
  | '+' :: cs => unsigned? false cs
  | cs => unsigned? false cs

end Binary

/-! Shortest digits. On each power of ten, from coarse to fine, the two
neighbours of a number are its only candidates; the first grid on which one of
them reads back gives the digits, and of two the nearer one is taken. -/

namespace Format

variable (F : Format)

def readsBack (rank : Nat) (d : Decimal) : Bool :=
  d.coefficient ≠ 0 && d.nearest F == rank

def onGrid? (tie : Tie) (rank : Nat) (exponent : Int) : Option Decimal :=
  let num := F.units rank * Nat.pow 10 (-exponent).toNat
  let den := F.unitsPerOne * Nat.pow 10 exponent.toNat
  let below : Decimal := ⟨num / den, exponent⟩
  let above : Decimal := ⟨num / den + 1, exponent⟩
  (if tie.prefersAbove num den then [above, below] else [below, above]).find? (F.readsBack rank)

def ceilingPower (rank : Nat) : Int :=
  let units := F.units rank
  if F.unitsPerOne ≤ units then (digits (units / F.unitsPerOne)).length
  else 1 - ((digits (F.unitsPerOne / units)).length - 1 : Nat)

def exact (rank : Nat) : Decimal :=
  ⟨F.units rank * Nat.pow 5 F.unitPower, -F.unitPower⟩

def shortest (tie : Tie) (rank : Nat) : Decimal :=
  if rank = 0 then ⟨0, 0⟩
  else
    ((List.range (F.fractionBits + 2)).findSome? fun (step : Nat) =>
      F.onGrid? tie rank (F.ceilingPower rank - step)).getD (F.exact rank)

end Format

namespace Binary

variable {F : Format}

def signDigits (negative : Bool) (cs : List Char) : List Char :=
  if negative then '-' :: cs else cs

/-- Positional text without an exponent, away from zero on a tie; a NaN has
none. -/
def text? : Binary F → Option String
  | .nan => none
  | .number negative rank _ =>
    some <| String.ofList <| signDigits negative <|
      if rank < F.infinity then (F.shortest .away rank).positional else "inf".toList

end Binary

end ShoreMetadata.Number
