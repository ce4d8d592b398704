import ShoreMetadata.Calendar.Date
import ShoreMetadata.Number.Integer

/-! Points in time, as seconds since the start of 1970 in UTC and nanoseconds
into the second. A nanosecond count of a whole second or more marks a leap
second, which is two seconds long at most. -/

namespace ShoreMetadata.Calendar

open Number (digits)

structure Instant where
  seconds : Int
  nanos : Nat
  nanos_lt : nanos < 2000000000
deriving DecidableEq

def secondsPerDay : Int := 86400

namespace Instant

def ofSeconds (seconds : Int) : Instant := ⟨seconds, 0, by decide⟩

def midnight (d : Date) : Instant :=
  ofSeconds (d.toDays * secondsPerDay)

def date (t : Instant) : Date :=
  .ofDays (t.seconds / secondsPerDay)

def secondOfDay (t : Instant) : Nat :=
  (t.seconds % secondsPerDay).toNat

def hour (t : Instant) : Nat :=
  t.secondOfDay / 3600

def minute (t : Instant) : Nat :=
  t.secondOfDay / 60 % 60

/-- Sixty in a leap second. -/
def second (t : Instant) : Nat :=
  t.secondOfDay % 60 + t.nanos / 1000000000

def least : Int :=
  (midnight ⟨leastYear, 1, 1⟩).seconds

def most : Int :=
  (midnight ⟨mostYear, 12, 31⟩).seconds + 86399

def inRange (t : Instant) : Bool :=
  least ≤ t.seconds && t.seconds ≤ most

def ofSeconds? (seconds : Int) : Option Instant :=
  if (ofSeconds seconds).inRange then some (ofSeconds seconds) else none

def shift? (t : Instant) (seconds : Int) : Option Instant :=
  let moved : Instant := { t with seconds := t.seconds + seconds }
  if moved.inRange then some moved else none

end Instant

def padded (width n : Nat) : List Char :=
  List.replicate (width - (digits n).length) '0' ++ digits n

/-- Years of more or less than four digits carry a sign. -/
def yearChars (year : Int) : List Char :=
  if 0 ≤ year ∧ year ≤ 9999 then padded 4 year.toNat
  else (if year < 0 then '-' else '+') :: padded 4 year.natAbs

/-- Date and time up to the second, as in `2010-03-04T05:06:07`. -/
def dateTimeChars (t : Instant) : List Char :=
  yearChars t.date.year ++ '-' :: padded 2 t.date.month ++ '-' :: padded 2 t.date.day
    ++ 'T' :: padded 2 t.hour ++ ':' :: padded 2 t.minute ++ ':' :: padded 2 t.second

end ShoreMetadata.Calendar
