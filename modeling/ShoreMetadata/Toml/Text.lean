import ShoreMetadata.Number.Radix

/-! Names and strings of TOML texts. Each reader returns what it read with the
characters after it. -/

namespace ShoreMetadata.Toml

def isSpace (c : Char) : Bool :=
  c == ' ' || c == '\t'

def skip (cs : List Char) : List Char :=
  cs.dropWhile isSpace

/-- Control characters stand neither in strings nor in comments, the tab apart. -/
def isPlain (c : Char) : Bool :=
  c == '\t' || (32 ≤ c.toNat && c.toNat ≠ 127)

def newline? : List Char → Option (List Char)
  | '\n' :: cs => some cs
  | '\r' :: '\n' :: cs => some cs
  | _ => none

def skipBlank : List Char → List Char
  | [] => []
  | '\r' :: '\n' :: cs => skipBlank cs
  | c :: cs => if isSpace c || c == '\n' then skipBlank cs else c :: cs

def skipGap (comment : Bool) : List Char → List Char
  | [] => []
  | '\r' :: '\n' :: cs => skipGap false cs
  | c :: cs =>
    if c == '\n' then skipGap false cs
    else if comment then (if isPlain c then skipGap true cs else c :: cs)
    else if c == '#' then skipGap true cs
    else if isSpace c then skipGap false cs
    else c :: cs

def endsLine (cs : List Char) : Bool :=
  match skip cs with
  | [] => true
  | '#' :: _ => true
  | rest => (newline? rest).isSome

/-! Strings. The double quote encloses text with escapes, the single quote plain
text; three of either enclose several lines. -/

def code? (count : Nat) (cs : List Char) : Option (Char × List Char) := do
  let code ← Number.hexValue? (cs.take count)
  if (cs.take count).length = count ∧ code.isValidChar then
    return (Char.ofNat code, cs.drop count)
  else none

def escaped? : List Char → Option (Char × List Char)
  | 'b' :: cs => some ('\x08', cs)
  | 't' :: cs => some ('\t', cs)
  | 'n' :: cs => some ('\n', cs)
  | 'f' :: cs => some ('\x0c', cs)
  | 'r' :: cs => some ('\r', cs)
  | '"' :: cs => some ('"', cs)
  | '\\' :: cs => some ('\\', cs)
  | 'u' :: cs => code? 4 cs
  | 'U' :: cs => code? 8 cs
  | _ => none

def lineTail? (quote : Char) : Nat → List Char → Option (List Char × List Char)
  | 0, _ => none
  | _, [] => none
  | fuel + 1, c :: cs =>
    if c = quote then some ([], cs)
    else if c = '\\' ∧ quote = '"' then do
      let (c, rest) ← escaped? cs
      let (more, rest) ← lineTail? quote fuel rest
      return (c :: more, rest)
    else if isPlain c then do
      let (more, rest) ← lineTail? quote fuel cs
      return (c :: more, rest)
    else none

/-- Three quotes close a string of several lines; up to two more in front of them
belong to it. -/
def closing? (quote : Char) (cs : List Char) : Option (List Char × List Char) :=
  let count := (cs.takeWhile (· == quote)).length
  if count < 3 then none
  else
    let extra := min (count - 3) 2
    some (List.replicate extra quote, cs.drop (extra + 3))

def joined? (cs : List Char) : Option (List Char) :=
  (newline? (skip cs)).map skipBlank

def linesTail? (quote : Char) : Nat → List Char → Option (List Char × List Char)
  | 0, _ => none
  | _, [] => none
  | fuel + 1, c :: cs =>
    match closing? quote (c :: cs), newline? (c :: cs) with
    | some close, _ => some close
    | none, some rest => do
      let (more, rest) ← linesTail? quote fuel rest
      return ('\n' :: more, rest)
    | none, none =>
      if c = '\\' ∧ quote = '"' then
        match joined? cs with
        | some rest => linesTail? quote fuel rest
        | none => do
          let (c, rest) ← escaped? cs
          let (more, rest) ← linesTail? quote fuel rest
          return (c :: more, rest)
      else if isPlain c then do
        let (more, rest) ← linesTail? quote fuel cs
        return (c :: more, rest)
      else none

def isQuote (c : Char) : Bool :=
  c == '"' || c == '\''

def readLine? (quote : Char) (cs : List Char) : Option (String × List Char) :=
  (lineTail? quote (cs.length + 1) cs).map fun (content, rest) => (String.ofList content, rest)

/-- A line end right after the opening quotes is dropped. -/
def readLines? (quote : Char) (cs : List Char) : Option (String × List Char) :=
  let cs := (newline? cs).getD cs
  (linesTail? quote (cs.length + 1) cs).map fun (content, rest) => (String.ofList content, rest)

def readString? (quote : Char) (cs : List Char) : Option (String × List Char) :=
  if cs.take 2 = [quote, quote] then readLines? quote (cs.drop 2) else readLine? quote cs

/-! Names are bare words or strings of one line. -/

def isBare (c : Char) : Bool :=
  c.isAlphanum || c == '_' || c == '-'

def readName? : List Char → Option (String × List Char)
  | [] => none
  | c :: cs =>
    if isQuote c then readLine? c cs
    else
      match (c :: cs).takeWhile isBare with
      | [] => none
      | word => some (String.ofList word, (c :: cs).dropWhile isBare)

end ShoreMetadata.Toml
