import ShoreMetadata.Toml.Scalar
import ShoreMetadata.Toml.Text

/-! Reading TOML texts. The first number of each reader bounds its steps, and the
length of the text always suffices. -/

namespace ShoreMetadata.Toml

/-- Values nest less deep than this, and keys have fewer names. -/
def depthLimit : Nat := 80

def readNames? : Nat → List Char → Option (Path × List Char)
  | 0, _ => none
  | fuel + 1, cs => do
    let (name, rest) ← readName? (skip cs)
    match skip rest with
    | '.' :: rest =>
      let (path, rest) ← readNames? fuel rest
      return (path.under name, rest)
    | rest => return (⟨[], name⟩, rest)

def readPath? (cs : List Char) : Option (Path × List Char) :=
  (readNames? (cs.length + 1) cs).filter fun (path, _) => path.length < depthLimit

def readKey? (cs : List Char) : Option (Path × List Char) := do
  let (path, rest) ← readPath? cs
  let rest ← expect? '=' rest
  return (path, skip rest)

def readWord? (word : List Char) (node : Node) (cs : List Char) : Option (Node × List Char) :=
  if cs.take word.length = word then some (node, cs.drop word.length) else none

mutual
def readValue? : Nat → Nat → List Char → Option (Node × List Char)
  | 0, _, _ => none
  | _, _, [] => none
  | fuel + 1, depth, c :: cs =>
    if isQuote c then (readString? c cs).map fun (s, rest) => (.string s, rest)
    else if c = '[' then
      if depth + 1 < depthLimit then
        (readItems? fuel (depth + 1) cs).map fun (items, rest) => (.array items, rest)
      else none
    else if c = '\x7b' then
      if depth + 1 < depthLimit then do
        let (entries, rest) ← readEntries? fuel (depth + 1) cs
        let table ← Table.ofEntries? entries
        return (.table .inline table, rest)
      else none
    else if c = 't' then readWord? "true".toList (.bool true) (c :: cs)
    else if c = 'f' then readWord? "false".toList (.bool false) (c :: cs)
    else readNumeric? (c :: cs)

/-- What follows an opening bracket or a comma; a comma may precede the closing
bracket. -/
def readItems? : Nat → Nat → List Char → Option (List Node × List Char)
  | 0, _, _ => none
  | fuel + 1, depth, cs =>
    match skipGap false cs with
    | ']' :: rest => some ([], rest)
    | cs => do
      let (item, rest) ← readValue? fuel depth cs
      match skipGap false rest with
      | ']' :: rest => return ([item], rest)
      | ',' :: rest =>
        let (more, rest) ← readItems? fuel depth rest
        return (item :: more, rest)
      | _ => none

def readEntries? : Nat → Nat → List Char → Option (List (Path × Node) × List Char)
  | 0, _, _ => none
  | fuel + 1, depth, cs =>
    match skip cs with
    | '\x7d' :: rest => some ([], rest)
    | cs => readMoreEntries? fuel depth cs

def readMoreEntries? : Nat → Nat → List Char → Option (List (Path × Node) × List Char)
  | 0, _, _ => none
  | fuel + 1, depth, cs => do
    let (path, rest) ← readKey? cs
    let (node, rest) ← readValue? fuel depth rest
    match skip rest with
    | '\x7d' :: rest => return ([(path, node)], rest)
    | ',' :: rest =>
      let (more, rest) ← readMoreEntries? fuel depth rest
      return ((path, node) :: more, rest)
    | _ => none
end

def readHeader? : List Char → Option (Statement × List Char)
  | '[' :: cs => do
    let (path, rest) ← readPath? cs
    let rest ← expect? ']' rest
    let rest ← expect? ']' rest
    return (.item path, rest)
  | cs => do
    let (path, rest) ← readPath? cs
    let rest ← expect? ']' rest
    return (.table path, rest)

def readStatement? : List Char → Option (Statement × List Char)
  | '[' :: cs => readHeader? cs
  | cs => do
    let (path, rest) ← readKey? cs
    let (node, rest) ← readValue? (2 * rest.length + 2) 0 rest
    return (.entry path node, rest)

def readStatements? : Nat → List Char → Option (List Statement)
  | 0, _ => none
  | fuel + 1, cs =>
    match skipGap false cs with
    | [] => some []
    | cs => do
      let (statement, rest) ← readStatement? cs
      if endsLine rest then return statement :: (← readStatements? fuel rest) else none

def dropMark : List Char → List Char
  | c :: cs => if c = '\ufeff' then cs else c :: cs
  | [] => []

def read? (text : String) : Option Table := do
  let cs := dropMark text.toList
  Table.ofStatements? (← readStatements? (cs.length + 1) cs)

end ShoreMetadata.Toml
