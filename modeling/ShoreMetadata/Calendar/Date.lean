/-! Dates of the proleptic Gregorian calendar and their day numbers. Years are
counted from March, so that a leap day ends the year it belongs to. -/

namespace ShoreMetadata.Calendar

structure Date where
  year : Int
  month : Nat
  day : Nat
deriving DecidableEq

def isLeapYear (year : Int) : Bool :=
  year % 4 == 0 && (year % 100 != 0 || year % 400 == 0)

def daysInMonth (year : Int) (month : Nat) : Nat :=
  match month with
  | 2 => if isLeapYear year then 29 else 28
  | 4 => 30
  | 6 => 30
  | 9 => 30
  | 11 => 30
  | _ => 31

def leastYear : Int := -262143

def mostYear : Int := 262142

namespace Date

def isValid (d : Date) : Bool :=
  1 ≤ d.month && d.month ≤ 12 && 1 ≤ d.day && d.day ≤ daysInMonth d.year d.month

def inRange (d : Date) : Bool :=
  leastYear ≤ d.year && d.year ≤ mostYear

def ofParts? (year : Int) (month day : Nat) : Option Date :=
  let d : Date := ⟨year, month, day⟩
  if d.isValid && d.inRange then some d else none

end Date

/-! Day numbers count from the first of March of the year zero. -/

/-- Days before the March that starts a year. -/
def yearStart (year : Int) : Int :=
  365 * year + year / 4 - year / 100 + year / 400

/-- Days before a month that is counted from March. -/
def monthStart (month : Nat) : Nat :=
  (153 * month + 2) / 5

/-- The year from March that a day lies in, with its day in that year. -/
def yearOfDay (n : Int) : Int × Nat :=
  let cycle := n % 146097
  let century := min (cycle / 36524) 3
  let inCentury := cycle - 36524 * century
  let four := inCentury / 1461
  let inFour := inCentury % 1461
  let one := min (inFour / 365) 3
  (400 * (n / 146097) + 100 * century + 4 * four + one, (inFour - 365 * one).toNat)

def epochDay : Int := 719468

namespace Date

/-- Days since the first of January 1970. -/
def toDays (d : Date) : Int :=
  if d.month ≤ 2 then
    yearStart (d.year - 1) + monthStart (d.month + 9) + (d.day - 1) - epochDay
  else yearStart d.year + monthStart (d.month - 3) + (d.day - 1) - epochDay

def ofDays (n : Int) : Date :=
  let (year, day) := yearOfDay (n + epochDay)
  let month := (5 * day + 2) / 153
  if month < 10 then ⟨year, month + 3, day - monthStart month + 1⟩
  else ⟨year + 1, month - 9, day - monthStart month + 1⟩

end Date

end ShoreMetadata.Calendar
