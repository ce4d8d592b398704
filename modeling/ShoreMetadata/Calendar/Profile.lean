import ShoreMetadata.Calendar.Instant
import ShoreMetadata.Text.Digit

/-! The date profile of attributes. Instants are written in UTC to the second.
Reading takes four digits of a year, then month and day after runs of `/`, `|`
and `-`, then hour, minute and second with colons, which may exceed their usual
limits, and optionally a zone. -/

namespace ShoreMetadata.Calendar.Profile

open Number Text

def format (t : Instant) : String :=
  String.ofList (dateTimeChars t ++ ['Z'])

structure Fields where
  year : List Char
  month : List Char
  day : List Char
  hour : List Char
  minute : List Char
  second : List Char
  rest : List Char

def isSeparator (c : Char) : Bool :=
  c == '/' || c == '|' || c == '-'

def digitRun (cs : List Char) : List Char :=
  cs.takeWhile isScriptDigit

def afterRun (cs : List Char) : List Char :=
  cs.dropWhile isScriptDigit

def run? (cs : List Char) : Option (List Char × List Char) :=
  match digitRun cs with
  | [] => none
  | run => some (run, afterRun cs)

def separated? (cs : List Char) : Option (List Char × List Char) :=
  match cs with
  | c :: rest => if isSeparator c then run? (rest.dropWhile isSeparator) else none
  | [] => none

def colon? : List Char → Option (List Char)
  | ':' :: cs => some cs
  | _ => none

def clock? (cs : List Char) :
    Option (List Char × List Char × List Char × List Char) := do
  let (hour, cs) ← run? cs
  let (minute, cs) ← run? (← colon? cs)
  let (second, cs) ← run? (← colon? cs)
  return (hour, minute, second, cs)

/-- The ways to divide a text into fields, the preferred one first: the hour is
the number after the day or, where that fails, the last digit of the day. -/
def candidates (cs : List Char) : List Fields :=
  match run? (cs.dropWhile isBlank) with
  | none => []
  | some (year, cs) =>
    if year.length ≠ 4 then []
    else
      match separated? cs with
      | none => []
      | some (month, cs) =>
        match separated? cs with
        | none => []
        | some (day, cs) =>
          let fields (day : List Char) :
              List Char × List Char × List Char × List Char → Fields :=
            fun (hour, minute, second, rest) =>
              { year, month, day, hour, minute, second, rest }
          let apart := (clock? (cs.dropWhile (!isScriptDigit ·))).map (fields day)
          let joined :=
            if 2 ≤ day.length then
              (clock? (day.drop (day.length - 1) ++ cs)).map (fields day.dropLast)
            else none
          apart.toList ++ joined.toList

def Fields.zone? (fields : Fields) : Option (List Char) :=
  match fields.rest.dropWhile isBlank with
  | [] => none
  | c :: cs =>
    if isScriptDigit c then none
    else
      let word := cs.takeWhile (!isBlank ·)
      if (cs.dropWhile (!isBlank ·)).all isBlank then some (c :: word) else none

def Fields.endsPlainly (fields : Fields) : Bool :=
  fields.rest.all isBlank

/-- The fields and the zone; a division with a zone is preferred. -/
def divide? (cs : List Char) : Option (Fields × Option (List Char)) :=
  let zoned := (candidates cs).findSome? fun fields =>
    fields.zone?.map fun zone => (fields, some zone)
  let plain := ((candidates cs).find? (·.endsPlainly)).map fun fields => (fields, none)
  zoned.or plain

def Fields.local? (fields : Fields) : Option Instant := do
  let year ← natural? fields.year
  let month ← natural? fields.month
  let day ← natural? fields.day
  let date ← Date.ofParts? year month day
  let hour ← natural? fields.hour
  let minute ← natural? fields.minute
  let second ← natural? fields.second
  (Instant.midnight date).shift? (3600 * hour + 60 * minute + second)

/-! Zones: a sign, two digits of hours and optionally, after a run without
digits, pairs of digits of which the last is the minutes. -/

structure Zone where
  sign : Char
  hours : List Char
  indicator : List Char
  minutes : Option (List Char)

def isSign (c : Char) : Bool :=
  c == '+' || c == '|' || c == '-'

def lastPair? (cs : List Char) : Option (List Char) :=
  if cs = [] then none else some (cs.drop (cs.length - 2))

def Zone.ofWord? (cs : List Char) : Option Zone :=
  match (cs.takeWhile (!isScriptDigit ·)).getLast? with
  | none => none
  | some sign =>
    let rest := cs.dropWhile (!isScriptDigit ·)
    let hours := rest.take 2
    if !isSign sign || (digitRun rest).length < 2 then none
    else
      let rest := rest.drop 2
      let indicator := rest.takeWhile (!isScriptDigit ·)
      let pairs := rest.dropWhile (!isScriptDigit ·)
      if (afterRun pairs) = [] ∧ pairs.length % 2 = 0 then
        some { sign, hours, indicator, minutes := lastPair? pairs }
      else none

/-- Which way the minutes of a zone are counted, `none` if they are not. -/
def Zone.addsMinutes? (zone : Zone) : Option Bool :=
  if zone.indicator = [':'] then some (zone.sign = '-')
  else if zone.indicator = ['+'] then some false
  else if zone.indicator = ['-'] then some true
  else none

/-- Seconds that take local time to UTC. Hours behind UTC are added and hours
ahead of it subtracted. -/
def Zone.correction? (zone : Zone) : Option Int := do
  let hours ← natural? zone.hours
  let base : Int := if zone.sign = '-' then 3600 * hours else -(3600 * hours)
  let minutes := zone.minutes.bind natural?
  return match minutes, zone.addsMinutes? with
    | some m, some true => base + 60 * m
    | some m, some false => base - 60 * m
    | _, _ => base

/-- A zone of another form stands for UTC. -/
def correction? (word : List Char) : Option Int :=
  match Zone.ofWord? word with
  | some zone => zone.correction?
  | none => some 0

def parseChars? (cs : List Char) : Option Instant := do
  let (fields, zone) ← divide? cs
  let time ← fields.local?
  match zone with
  | none => return time
  | some word => time.shift? (← correction? word)

def parse? (s : String) : Option Instant :=
  parseChars? s.toList

end ShoreMetadata.Calendar.Profile
