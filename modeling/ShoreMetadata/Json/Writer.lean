import ShoreMetadata.Json.Basic
import ShoreMetadata.Number.Radix

/-! Writing JSON, on one line or indented by two columns a level. -/

namespace ShoreMetadata.Json

def escapeChar (c : Char) : List Char :=
  if c = '"' then ['\\', '"']
  else if c = '\\' then ['\\', '\\']
  else if c = '\n' then ['\\', 'n']
  else if c = '\r' then ['\\', 'r']
  else if c = '\t' then ['\\', 't']
  else if c = '\x08' then ['\\', 'b']
  else if c = '\x0c' then ['\\', 'f']
  else if c.toNat < 32 then
    ['\\', 'u', '0', '0', Number.hexDigit (c.toNat / 16), Number.hexDigit (c.toNat % 16)]
  else [c]

def stringChars (s : String) : List Char :=
  '"' :: s.toList.flatMap escapeChar ++ ['"']

def exponentChars : Option Int → List Char
  | none => []
  | some n =>
    'e' :: (if n < 0 then '-' else '+') :: Number.digits n.natAbs

def Numeral.chars (n : Numeral) : List Char :=
  (if n.negative then ['-'] else []) ++ n.whole
    ++ (if n.fraction = [] then [] else '.' :: n.fraction) ++ exponentChars n.exponent

def lineBreak (pretty : Bool) (depth : Nat) : List Char :=
  if pretty then '\n' :: List.replicate (2 * depth) ' ' else []

def colon (pretty : Bool) : List Char :=
  if pretty then [':', ' '] else [':']

mutual
def charsAt (pretty : Bool) (depth : Nat) : Json → List Char
  | .null => "null".toList
  | .bool true => "true".toList
  | .bool false => "false".toList
  | .number n => n.chars
  | .string s => stringChars s
  | .array [] => ['[', ']']
  | .array (item :: rest) =>
    '[' :: lineBreak pretty (depth + 1) ++ charsAt pretty (depth + 1) item
      ++ itemsAt pretty (depth + 1) rest ++ lineBreak pretty depth ++ [']']
  | .object [] => ['\x7b', '\x7d']
  | .object ((name, value) :: rest) =>
    '\x7b' :: lineBreak pretty (depth + 1) ++ stringChars name ++ colon pretty
      ++ charsAt pretty (depth + 1) value ++ membersAt pretty (depth + 1) rest
      ++ lineBreak pretty depth ++ ['\x7d']

def itemsAt (pretty : Bool) (depth : Nat) : List Json → List Char
  | [] => []
  | item :: rest =>
    ',' :: lineBreak pretty depth ++ charsAt pretty depth item ++ itemsAt pretty depth rest

def membersAt (pretty : Bool) (depth : Nat) : List (String × Json) → List Char
  | [] => []
  | (name, value) :: rest =>
    ',' :: lineBreak pretty depth ++ stringChars name ++ colon pretty
      ++ charsAt pretty depth value ++ membersAt pretty depth rest
end

def write (pretty : Bool) (json : Json) : String :=
  String.ofList (charsAt pretty 0 json)

end ShoreMetadata.Json
