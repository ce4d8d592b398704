/-! Binary interchange formats. The non-negative finite numbers of a format are
ranked by size: rank zero is zero, rank one the least positive number, and the
first rank past the largest finite number stands for infinity. Every number is
a whole multiple of the least positive one. -/

namespace ShoreMetadata.Number

structure Format where
  fractionBits : Nat
  exponentBits : Nat

namespace Format

def binary64 : Format := ⟨52, 11⟩

def binary32 : Format := ⟨23, 8⟩

def binade (F : Format) : Nat :=
  Nat.pow 2 F.fractionBits

def infinity (F : Format) : Nat :=
  (Nat.pow 2 F.exponentBits - 1) * F.binade

/-- The least positive number is two to the minus this power. -/
def unitPower (F : Format) : Nat :=
  Nat.pow 2 (F.exponentBits - 1) - 2 + F.fractionBits

def doublings (F : Format) (rank : Nat) : Nat :=
  rank / F.binade - 1

/-- A ranked number as a multiple of the least positive one. -/
def units (F : Format) (rank : Nat) : Nat :=
  (rank - F.doublings rank * F.binade) * Nat.pow 2 (F.doublings rank)

def unitsPerOne (F : Format) : Nat :=
  Nat.pow 2 F.unitPower

end Format

/-- Which of two neighbours is taken that are equally near: the even one, or the
one farther from zero. -/
inductive Tie where
  | toEven
  | away
deriving DecidableEq

def Tie.prefersAbove (tie : Tie) (num den : Nat) : Bool :=
  match compare (2 * (num % den)) den, tie with
  | .lt, _ => false
  | .eq, .toEven => num / den % 2 == 1
  | .eq, .away => true
  | .gt, _ => true

def Tie.nearest (tie : Tie) (num den : Nat) : Nat :=
  if tie.prefersAbove num den then num / den + 1 else num / den

namespace Format

/-- Rank of the number nearest to a quotient, ties to even. -/
def nearest (F : Format) (num den : Nat) : Nat :=
  let scaled := num * F.unitsPerOne
  let doublings := (scaled / den).log2 - F.fractionBits
  min F.infinity (doublings * F.binade + Tie.toEven.nearest scaled (den * Nat.pow 2 doublings))

end Format

end ShoreMetadata.Number
