/-! Digits of a radix up to sixteen, with letters for the digits from ten on. -/

namespace ShoreMetadata.Number

def digitValue? (radix : Nat) (c : Char) : Option Nat :=
  let value? :=
    if c.isDigit then some (c.toNat - '0'.toNat)
    else if 'a' ≤ c ∧ c ≤ 'f' then some (c.toNat - 'a'.toNat + 10)
    else if 'A' ≤ c ∧ c ≤ 'F' then some (c.toNat - 'A'.toNat + 10)
    else none
  value?.filter (· < radix)

def hexDigit (n : Nat) : Char :=
  if n < 10 then Char.ofNat (n + '0'.toNat) else Char.ofNat (n - 10 + 'a'.toNat)

def hexValue? (cs : List Char) : Option Nat :=
  (cs.mapM (digitValue? 16)).map fun digits => digits.foldl (16 * · + ·) 0

end ShoreMetadata.Number
