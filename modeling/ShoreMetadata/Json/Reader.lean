import ShoreMetadata.Json.Basic
import ShoreMetadata.Number.Radix

/-! Reading JSON. Each reader returns a value with the characters after it; the
number bounds the nesting, and the length of the text always suffices. Values are
thus read however deep they are nested, where other readers stop (often after 128
levels), and a number is the nearest one to its digits, where others may miss it by
the last bit. -/

namespace ShoreMetadata.Json

def isBlank (c : Char) : Bool :=
  c == ' ' || c == '\t' || c == '\n' || c == '\r'

def skip (cs : List Char) : List Char :=
  cs.dropWhile isBlank

def unit? : List Char → Option (Nat × List Char)
  | a :: b :: c :: d :: rest => (Number.hexValue? [a, b, c, d]).map (·, rest)
  | _ => none

def escapedUnit? (cs : List Char) : Option (Char × List Char) := do
  let (unit, rest) ← unit? cs
  if 0xD800 ≤ unit ∧ unit < 0xDC00 then
    match rest with
    | '\\' :: 'u' :: more =>
      let (low, rest) ← unit? more
      if 0xDC00 ≤ low ∧ low < 0xE000 then
        return (Char.ofNat (0x10000 + (unit - 0xD800) * 0x400 + (low - 0xDC00)), rest)
      else none
    | _ => none
  else if 0xDC00 ≤ unit ∧ unit < 0xE000 then none
  else return (Char.ofNat unit, rest)

def escaped? : List Char → Option (Char × List Char)
  | '"' :: cs => some ('"', cs)
  | '\\' :: cs => some ('\\', cs)
  | '/' :: cs => some ('/', cs)
  | 'b' :: cs => some ('\x08', cs)
  | 'f' :: cs => some ('\x0c', cs)
  | 'n' :: cs => some ('\n', cs)
  | 'r' :: cs => some ('\r', cs)
  | 't' :: cs => some ('\t', cs)
  | 'u' :: cs => escapedUnit? cs
  | _ => none

def stringTail? : Nat → List Char → Option (List Char × List Char)
  | 0, _ => none
  | _, [] => none
  | _, '"' :: cs => some ([], cs)
  | fuel + 1, '\\' :: cs => do
    let (c, rest) ← escaped? cs
    let (more, rest) ← stringTail? fuel rest
    return (c :: more, rest)
  | fuel + 1, c :: cs =>
    if c.toNat < 32 then none
    else do
      let (more, rest) ← stringTail? fuel cs
      return (c :: more, rest)

def readString? (cs : List Char) : Option (String × List Char) :=
  (stringTail? (cs.length + 1) cs).map fun (content, rest) => (String.ofList content, rest)

def fraction? : List Char → Option (List Char × List Char)
  | '.' :: cs =>
    match cs.takeWhile Char.isDigit with
    | [] => none
    | run => some (run, cs.dropWhile Char.isDigit)
  | cs => some ([], cs)

def exponentDigits? (negative : Bool) (cs : List Char) : Option (Option Int × List Char) :=
  match cs.takeWhile Char.isDigit with
  | [] => none
  | run =>
    let size : Int := Number.ofDigits run
    some (some (if negative then -size else size), cs.dropWhile Char.isDigit)

def exponent? : List Char → Option (Option Int × List Char)
  | c :: cs =>
    if c = 'e' ∨ c = 'E' then
      match cs with
      | '-' :: cs => exponentDigits? true cs
      | '+' :: cs => exponentDigits? false cs
      | cs => exponentDigits? false cs
    else some (none, c :: cs)
  | [] => some (none, [])

/-- A leading zero stands alone before the point. -/
def wholeDigits? (cs : List Char) : Option (List Char × List Char) :=
  match cs.takeWhile Char.isDigit with
  | [] => none
  | ['0'] => some (['0'], cs.dropWhile Char.isDigit)
  | '0' :: _ => none
  | run => some (run, cs.dropWhile Char.isDigit)

def readNumber? (cs : List Char) : Option (Numeral × List Char) := do
  let (negative, cs) := match cs with
    | '-' :: rest => (true, rest)
    | _ => (false, cs)
  let (whole, cs) ← wholeDigits? cs
  let (fraction, cs) ← fraction? cs
  let (exponent, cs) ← exponent? cs
  return ({ negative, whole, fraction, exponent }, cs)

def readLiteral? (word : List Char) (json : Json) (cs : List Char) : Option (Json × List Char) :=
  if cs.take word.length = word then some (json, cs.drop word.length) else none

mutual
def readValue? : Nat → List Char → Option (Json × List Char)
  | 0, _ => none
  | fuel + 1, cs =>
    match skip cs with
    | '"' :: rest => (readString? rest).map fun (s, rest) => (.string s, rest)
    | '[' :: rest =>
      match skip rest with
      | ']' :: rest => some (.array [], rest)
      | rest => do
        let (first, rest) ← readValue? fuel rest
        let (more, rest) ← readItems? fuel rest
        return (.array (first :: more), rest)
    | '\x7b' :: rest =>
      match skip rest with
      | '\x7d' :: rest => some (.object [], rest)
      | rest => do
        let (first, rest) ← readMember? fuel rest
        let (more, rest) ← readMembers? fuel rest
        return (.object (first :: more), rest)
    | 'n' :: rest => readLiteral? "ull".toList .null rest
    | 't' :: rest => readLiteral? "rue".toList (.bool true) rest
    | 'f' :: rest => readLiteral? "alse".toList (.bool false) rest
    | cs => (readNumber? cs).map fun (n, rest) => (.number n, rest)

def readItems? : Nat → List Char → Option (List Json × List Char)
  | 0, _ => none
  | fuel + 1, cs =>
    match skip cs with
    | ']' :: rest => some ([], rest)
    | ',' :: rest => do
      let (item, rest) ← readValue? fuel rest
      let (more, rest) ← readItems? fuel rest
      return (item :: more, rest)
    | _ => none

def readMember? : Nat → List Char → Option ((String × Json) × List Char)
  | 0, _ => none
  | fuel + 1, cs =>
    match skip cs with
    | '"' :: rest => do
      let (name, rest) ← readString? rest
      match skip rest with
      | ':' :: rest =>
        let (value, rest) ← readValue? fuel rest
        return ((name, value), rest)
      | _ => none
    | _ => none

def readMembers? : Nat → List Char → Option (List (String × Json) × List Char)
  | 0, _ => none
  | fuel + 1, cs =>
    match skip cs with
    | '\x7d' :: rest => some ([], rest)
    | ',' :: rest => do
      let (first, rest) ← readMember? fuel rest
      let (more, rest) ← readMembers? fuel rest
      return (first :: more, rest)
    | _ => none
end

def read? (text : String) : Option Json :=
  let cs := text.toList
  match readValue? (2 * cs.length + 2) cs with
  | some (json, rest) => if skip rest = [] then some json else none
  | none => none

end ShoreMetadata.Json
