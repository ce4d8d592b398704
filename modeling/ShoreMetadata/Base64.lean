/-! Base64 with the standard alphabet. The text of a byte list is unique: the
last group is padded and its spare bits are zero. -/

namespace ShoreMetadata.Base64

inductive Fault where
  | badSymbol (code offset : Nat)
  | badLength (length : Nat)
  | badLastSymbol (code offset : Nat)
  | badPadding
deriving DecidableEq

def Fault.message : Fault → String
  | .badSymbol code offset => s!"Invalid symbol {code}, offset {offset}."
  | .badLength length => s!"Invalid input length: {length}"
  | .badLastSymbol code offset => s!"Invalid last symbol {code}, offset {offset}."
  | .badPadding => "Invalid padding"

def pad : UInt8 := 61

def symbol (n : Nat) : UInt8 :=
  if n < 26 then UInt8.ofNat (n + 65)
  else if n < 52 then UInt8.ofNat (n - 26 + 97)
  else if n < 62 then UInt8.ofNat (n - 52 + 48)
  else if n = 62 then 43
  else 47

def value? (b : UInt8) : Option Nat :=
  let n := b.toNat
  if 65 ≤ n ∧ n ≤ 90 then some (n - 65)
  else if 97 ≤ n ∧ n ≤ 122 then some (n - 97 + 26)
  else if 48 ≤ n ∧ n ≤ 57 then some (n - 48 + 52)
  else if n = 43 then some 62
  else if n = 47 then some 63
  else none

def encodeBytes : List UInt8 → List UInt8
  | [] => []
  | [a] =>
    let n := a.toNat
    [symbol (n / 4), symbol (n % 4 * 16), pad, pad]
  | [a, b] =>
    let n := a.toNat * 256 + b.toNat
    [symbol (n / 1024), symbol (n / 16 % 64), symbol (n % 16 * 4), pad]
  | a :: b :: c :: rest =>
    let n := (a.toNat * 256 + b.toNat) * 256 + c.toNat
    symbol (n / 262144) :: symbol (n / 4096 % 64) :: symbol (n / 64 % 64) :: symbol (n % 64)
      :: encodeBytes rest

def encode (bytes : List UInt8) : String :=
  String.ofList ((encodeBytes bytes).map fun b => Char.ofNat b.toNat)

def values (offset : Nat) : List UInt8 → Except Fault (List Nat)
  | [] => .ok []
  | b :: rest =>
    match value? b with
    | none => .error (.badSymbol b.toNat offset)
    | some v => (values (offset + 1) rest).map (v :: ·)

/-- The symbols of the last group before its padding, which may start at the
third place and is not to be followed by a symbol. -/
def lastSymbols (offset place : Nat) : List UInt8 → Except Fault (List UInt8)
  | [] => .ok []
  | b :: rest =>
    if b = pad then
      if place < 2 ∨ rest.any (· ≠ pad) then .error (.badSymbol pad.toNat (offset + place))
      else .ok []
    else
      match value? b with
      | none => .error (.badSymbol b.toNat (offset + place))
      | some _ => (lastSymbols offset (place + 1) rest).map (b :: ·)

/-- Bytes of one to four six-bit values, and whether the spare bits are zero. -/
def groupBytes : List Nat → List UInt8 × Bool
  | [a, b] => ([UInt8.ofNat (a * 4 + b / 16)], b % 16 == 0)
  | [a, b, c] =>
    ([UInt8.ofNat (a * 4 + b / 16), UInt8.ofNat (b % 16 * 16 + c / 4)], c % 4 == 0)
  | [a, b, c, d] =>
    ([UInt8.ofNat (a * 4 + b / 16), UInt8.ofNat (b % 16 * 16 + c / 4),
      UInt8.ofNat (c % 4 * 64 + d)], true)
  | _ => ([], true)

def decodeLast (offset : Nat) (group : List UInt8) : Except Fault (List UInt8) := do
  let symbols ← lastSymbols offset 0 group
  if symbols.length < 2 then .error (.badLength (offset + symbols.length))
  else if group.length ≠ 4 then .error .badPadding
  else
    let (bytes, exact) := groupBytes (symbols.filterMap value?)
    if exact then .ok bytes
    else
      .error (.badLastSymbol ((symbols.getLast?.map UInt8.toNat).getD 0)
        (offset + symbols.length - 1))

def decodeGroups (offset : Nat) : List UInt8 → Except Fault (List UInt8)
  | a :: b :: c :: d :: e :: rest => do
    let group ← values offset [a, b, c, d]
    let more ← decodeGroups (offset + 4) (e :: rest)
    return (groupBytes group).1 ++ more
  | [] => .ok []
  | group => decodeLast offset group

/-- A symbol left over after whole groups is looked at first. -/
def decode (input : List UInt8) : Except Fault (List UInt8) :=
  match input.getLast? with
  | some last =>
    if input.length % 4 = 1 ∧ last ≠ pad ∧ value? last = none then
      .error (.badSymbol last.toNat (input.length - 1))
    else decodeGroups 0 input
  | none => .ok []

end ShoreMetadata.Base64
