import ShoreMetadata.Calendar.Date
import ShoreMetadata.Number.Radix
import ShoreMetadata.Toml.Table

/-! Numbers, dates and times in TOML texts. -/

namespace ShoreMetadata.Toml

/-! Digits, between which single underscores may stand. -/

def digitsTail (isDigit : Char → Bool) : List Char → List Char × List Char
  | [] => ([], [])
  | '_' :: c :: cs =>
    if isDigit c then
      let (run, rest) := digitsTail isDigit cs
      (c :: run, rest)
    else ([], '_' :: c :: cs)
  | c :: cs =>
    if isDigit c then
      let (run, rest) := digitsTail isDigit cs
      (c :: run, rest)
    else ([], c :: cs)

def readDigits? (isDigit : Char → Bool) : List Char → Option (List Char × List Char)
  | [] => none
  | c :: cs =>
    if isDigit c then
      let (run, rest) := digitsTail isDigit cs
      some (c :: run, rest)
    else none

def readWhole? : List Char → Option (List Char × List Char)
  | '0' :: cs => some (['0'], cs)
  | cs => readDigits? Char.isDigit cs

def readSign : List Char → Bool × List Char
  | '-' :: cs => (true, cs)
  | '+' :: cs => (false, cs)
  | cs => (false, cs)

/-! Integers have 64 bits. Those in another radix have no sign. -/

def integerNode? (n : Int) (rest : List Char) : Option (Node × List Char) :=
  (Number.int64OfInt? n).map fun n => (.integer n, rest)

def readRadix? (radix : Nat) (cs : List Char) : Option (Node × List Char) := do
  let (run, rest) ← readDigits? (fun c => (Number.digitValue? radix c).isSome) cs
  let values ← run.mapM (Number.digitValue? radix)
  integerNode? (values.foldl (radix * · + ·) 0 : Nat) rest

def readInteger? : List Char → Option (Node × List Char)
  | '0' :: 'x' :: cs => readRadix? 16 cs
  | '0' :: 'o' :: cs => readRadix? 8 cs
  | '0' :: 'b' :: cs => readRadix? 2 cs
  | cs => do
    let (negative, cs) := readSign cs
    let (run, rest) ← readWhole? cs
    let size : Int := Number.ofDigits run
    integerNode? (if negative then -size else size) rest

def readFraction? : List Char → Option (List Char × List Char)
  | '.' :: cs => readDigits? Char.isDigit cs
  | _ => none

def readExponent? : List Char → Option (Int × List Char)
  | c :: cs =>
    if c = 'e' ∨ c = 'E' then do
      let (negative, cs) := readSign cs
      let (run, rest) ← readDigits? Char.isDigit cs
      let size : Int := Number.ofDigits run
      return (if negative then -size else size, rest)
    else none
  | [] => none

/-- A number too large for the format is refused, unless it is negative. -/
def floatNode? (negative : Bool) (d : Number.Decimal) (rest : List Char) :
    Option (Node × List Char) :=
  let x : Number.Double := .ofDecimal negative d
  if x.isFinite || negative then some (.float x, rest) else none

def readDecimal? (cs : List Char) : Option (Node × List Char) := do
  let (negative, cs) := readSign cs
  let (whole, cs) ← readWhole? cs
  match readFraction? cs with
  | some (fraction, cs) =>
    let (exponent, rest) := (readExponent? cs).getD (0, cs)
    floatNode? negative ⟨Number.ofDigits (whole ++ fraction), exponent - fraction.length⟩ rest
  | none =>
    let (exponent, rest) ← readExponent? cs
    floatNode? negative ⟨Number.ofDigits whole, exponent⟩ rest

def readSpecial? (cs : List Char) : Option (Node × List Char) :=
  let (negative, cs) := readSign cs
  if cs.take 3 = "inf".toList then
    some (.float (.ofRank negative Number.Format.binary64.infinity), cs.drop 3)
  else if cs.take 3 = "nan".toList then some (.float .nan, cs.drop 3)
  else none

def readFloat? (cs : List Char) : Option (Node × List Char) :=
  readDecimal? cs <|> readSpecial? cs

def readField? (width : Nat) (cs : List Char) : Option (Nat × List Char) :=
  let run := cs.take width
  if run.length = width ∧ run.all Char.isDigit then
    some (Number.ofDigits run, cs.drop width)
  else none

def expect? (c : Char) : List Char → Option (List Char)
  | [] => none
  | other :: cs => if other = c then some cs else none

def skipDate? (cs : List Char) : Option (List Char) := do
  let (year, cs) ← readField? 4 cs
  let cs ← expect? '-' cs
  let (month, cs) ← readField? 2 cs
  let cs ← expect? '-' cs
  let (day, cs) ← readField? 2 cs
  let _ ← Calendar.Date.ofParts? year month day
  return cs

def skipHourMinute? (cs : List Char) : Option (List Char) := do
  let (hour, cs) ← readField? 2 cs
  let cs ← expect? ':' cs
  let (minute, cs) ← readField? 2 cs
  if hour < 24 ∧ minute < 60 then some cs else none

def skipFraction : List Char → List Char
  | '.' :: c :: cs => if c.isDigit then cs.dropWhile Char.isDigit else '.' :: c :: cs
  | cs => cs

def skipTime? (cs : List Char) : Option (List Char) := do
  let cs ← skipHourMinute? cs
  let cs ← expect? ':' cs
  let (second, cs) ← readField? 2 cs
  if second ≤ 60 then some (skipFraction cs) else none

def skipOffset? : List Char → Option (List Char)
  | [] => none
  | c :: cs =>
    if c = 'Z' ∨ c = 'z' then some cs
    else if c = '+' ∨ c = '-' then skipHourMinute? cs
    else none

def skipTimeAfterDate : List Char → List Char
  | [] => []
  | c :: cs =>
    if c = 'T' ∨ c = 't' ∨ c = ' ' then
      match skipTime? cs with
      | none => c :: cs
      | some rest => (skipOffset? rest).getD rest
    else c :: cs

def readMoment? (cs : List Char) : Option (Node × List Char) := do
  let rest ← (skipDate? cs).map skipTimeAfterDate <|> skipTime? cs
  return (.moment (cs.take (cs.length - rest.length)), rest)

/-- A number, or a date or time; of several readings the longest. -/
def readNumeric? (cs : List Char) : Option (Node × List Char) :=
  readMoment? cs <|> readFloat? cs <|> readInteger? cs

end ShoreMetadata.Toml
