import ShoreMetadata.Calendar.Instant
import ShoreMetadata.Text.Blank

/-! Dates of JSON documents, after RFC 3339. Writing gives UTC with a fraction of
three, six or nine digits where there is one; reading allows white space between
the parts. -/

namespace ShoreMetadata.Calendar.Rfc3339

open Number Text

def fractionChars (nanos : Nat) : List Char :=
  let n := nanos % 1000000000
  if n = 0 then []
  else if n % 1000000 = 0 then '.' :: padded 3 (n / 1000000)
  else if n % 1000 = 0 then '.' :: padded 6 (n / 1000)
  else '.' :: padded 9 n

def format (t : Instant) : String :=
  String.ofList (dateTimeChars t ++ fractionChars t.nanos ++ ['Z'])

def skip (cs : List Char) : List Char :=
  cs.dropWhile isBlank

/-- At least one and at most `width` digits, after white space. -/
def number? (width : Nat) (cs : List Char) : Option (Nat × List Char) :=
  let cs := skip cs
  match (cs.take width).takeWhile Char.isDigit with
  | [] => none
  | run => some (ofDigits run, cs.drop run.length)

def signedYear? (f : Nat → Int) (cs : List Char) : Option (Int × List Char) :=
  match cs.takeWhile Char.isDigit with
  | [] => none
  | run => some (f (ofDigits run), cs.dropWhile Char.isDigit)

/-- A year of at most four digits, or of any number of them after a sign. -/
def year? (cs : List Char) : Option (Int × List Char) :=
  match skip cs with
  | '-' :: rest => signedYear? (fun n => -(n : Int)) rest
  | '+' :: rest => signedYear? (fun n => (n : Int)) rest
  | cs => (number? 4 cs).map fun (n, rest) => ((n : Int), rest)

def mark? (c : Char) (cs : List Char) : Option (List Char) :=
  match skip cs with
  | d :: rest => if d = c then some rest else none
  | [] => none

def dateTimeMark? : List Char → Option (List Char)
  | c :: rest => if c = 'T' ∨ c = 't' ∨ c = ' ' then some rest else none
  | [] => none

/-- Nanoseconds from a fraction; digits past the ninth do not count. -/
def nanos? : List Char → Option (Fin 1000000000 × List Char)
  | '.' :: cs =>
    match cs.takeWhile Char.isDigit with
    | [] => none
    | run =>
      let nine := run.take 9
      some (Fin.ofNat _ (ofDigits nine * Nat.pow 10 (9 - nine.length)), cs.dropWhile Char.isDigit)
  | cs => some (0, cs)

def pair? : List Char → Option (Nat × List Char)
  | a :: b :: rest =>
    if a.isDigit && b.isDigit then some (ofDigits [a, b], rest) else none
  | _ => none

def offset? (cs : List Char) : Option (Int × List Char) :=
  if (cs.take 3).map Char.toLower = "utc".toList then some (0, cs.drop 3)
  else
    match cs with
    | [] => none
    | c :: rest =>
      if c = 'Z' ∨ c = 'z' then some (0, rest)
      else if c = '+' ∨ c = '-' ∨ c = '\u2212' then do
        let (hours, rest) ← pair? rest
        let (minutes, rest) ← pair? (rest.dropWhile fun d => d == ':' || isBlank d)
        if minutes < 60 ∧ hours < 24 then
          let size : Int := 3600 * hours + 60 * minutes
          return (if c = '+' then size else -size, rest)
        else none
      else none

def parse? (s : String) : Option Instant := do
  let (year, cs) ← year? s.toList
  let (month, cs) ← number? 2 (← mark? '-' cs)
  let (day, cs) ← number? 2 (← mark? '-' cs)
  let (hour, cs) ← number? 2 (← dateTimeMark? cs)
  let (minute, cs) ← number? 2 (← mark? ':' cs)
  let (second, cs) ← number? 2 (← mark? ':' cs)
  let (nanos, cs) ← nanos? cs
  let (offset, cs) ← offset? (skip cs)
  if skip cs ≠ [] ∨ 24 ≤ hour ∨ 60 ≤ minute ∨ 61 ≤ second then none
  else
    let date ← Date.ofParts? year month day
    let leap := second = 60
    let whole := if leap then 59 else second
    let clock : Int := 3600 * hour + 60 * minute + whole
    let start := Instant.midnight date
    let fraction := if leap then nanos.val + 1000000000 else nanos.val
    Instant.shift? ⟨start.seconds, fraction, by grind⟩ (clock - offset)

end ShoreMetadata.Calendar.Rfc3339
