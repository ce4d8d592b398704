import ShoreMetadata.Number.Radix
import ShoreMetadata.Text.Utf8
import ShoreMetadata.Xml.Fault

/-! Entity and character references. Writing replaces the five characters that
have a predefined entity, reading resolves these and numeric references. -/

namespace ShoreMetadata.Xml

open Text

def escapeChar : Char → List Char
  | '<' => "&lt;".toList
  | '>' => "&gt;".toList
  | '&' => "&amp;".toList
  | '\'' => "&apos;".toList
  | '"' => "&quot;".toList
  | c => [c]

def escape (cs : List Char) : List Char :=
  cs.flatMap escapeChar

def predefined? (name : List Char) : Option Char :=
  if name = "lt".toList then some '<'
  else if name = "gt".toList then some '>'
  else if name = "amp".toList then some '&'
  else if name = "apos".toList then some '\''
  else if name = "quot".toList then some '"'
  else none

/-! Numeric references. The first digit that is none, or that takes the number
past 32 bits, decides the fault. -/

def readDigits (radix : Nat) : Nat → List Char → Except CharacterFault Nat
  | value, [] => .ok value
  | value, c :: cs =>
    match Number.digitValue? radix c with
    | none => .error .badDigit
    | some digit =>
      if value * radix + digit < 4294967296 then readDigits radix (value * radix + digit) cs
      else .error .tooLarge

def readCode (radix : Nat) : List Char → Except CharacterFault Nat
  | [] => .error .noDigits
  | c :: cs => if c = '+' ∨ c = '-' then .error .sign else readDigits radix 0 (c :: cs)

def characterOfCode (code : Nat) : Except CharacterFault Char :=
  if code = 0 then .error .zero
  else if h : code.isValidChar then .ok (Char.ofNatAux code h)
  else .error (.notScalar code)

def character : List Char → Except CharacterFault Char
  | 'x' :: cs => readCode 16 cs >>= characterOfCode
  | cs => readCode 10 cs >>= characterOfCode

def referenced (start : Nat) (name : List Char) : Except ReferenceFault Char :=
  match name with
  | '#' :: cs => (character cs).mapError .character
  | _ =>
    match predefined? name with
    | some c => .ok c
    | none => .error (.unrecognized start (start + byteLength name) (String.ofList name))

def endsName (c : Char) : Bool :=
  c == '&' || c == ';'

theorem length_dropWhile_le (p : Char → Bool) (cs : List Char) :
    (cs.dropWhile p).length ≤ cs.length :=
  (List.dropWhile_sublist p).length_le

/-- Resolves every reference. Offsets count from the start of the value, of which
`total` bytes exist. -/
def unescapeFrom (total offset : Nat) (cs : List Char) : Except ReferenceFault (List Char) :=
  match cs with
  | [] => .ok []
  | c :: rest =>
    if c = '&' then
      let name := rest.takeWhile (!endsName ·)
      match _split : rest.dropWhile (!endsName ·) with
      | ';' :: after => do
        let resolved ← referenced (offset + 1) name
        let more ← unescapeFrom total (offset + 1 + byteLength name + 1) after
        return resolved :: more
      | _ => .error (.unterminated offset total)
    else do
      let more ← unescapeFrom total (offset + c.utf8Size) rest
      return c :: more
termination_by cs.length
decreasing_by
  · have shorter := length_dropWhile_le (!endsName ·) rest
    rw [_split] at shorter
    simp only [List.length_cons] at shorter ⊢
    omega
  · simp

def unescape (cs : List Char) : Except ReferenceFault (List Char) :=
  unescapeFrom (byteLength cs) 0 cs

end ShoreMetadata.Xml
