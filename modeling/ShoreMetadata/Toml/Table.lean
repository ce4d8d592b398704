import ShoreMetadata.Number.Binary

/-! Tables of named values, as TOML texts state them, and the rules by which later
statements may add to earlier ones. -/

namespace ShoreMetadata.Toml

/-- What a table arose from. -/
inductive Origin where
  /-- a header of its own -/
  | header
  /-- a longer header -/
  | implied
  /-- a longer key -/
  | dotted
  /-- a value between braces -/
  | inline
deriving DecidableEq

/-- A value, or an array of tables, of which the last one grows. A moment is a
date, a time of day, or both, as written. -/
inductive Node where
  | string (s : String)
  | bool (b : Bool)
  | integer (n : Int64)
  | float (x : Number.Double)
  | moment (text : List Char)
  | array (items : List Node)
  | table (origin : Origin) (entries : List (String × Node))
  | tables (earlier : List (List (String × Node))) (last : List (String × Node))

abbrev Table := List (String × Node)

structure Path where
  above : List String
  name : String

namespace Path

def under (top : String) (path : Path) : Path :=
  { path with above := top :: path.above }

def length (path : Path) : Nat :=
  path.above.length + 1

end Path

namespace Table

/-- Sets an entry in its place, or after all others if it is new. -/
def put (name : String) (node : Node) : Table → Table
  | [] => [(name, node)]
  | (other, old) :: rest =>
    if other = name then (name, node) :: rest else (other, old) :: put name node rest

/-- Changes the table that a header leads to. Tables missing on the way arise; a
value ends the way. -/
def within? (change : Table → Option Table) : List String → Table → Option Table
  | [], table => change table
  | name :: above, table =>
    match table.lookup name with
    | none =>
      (within? change above []).map fun inner => table.put name (.table .implied inner)
    | some (.table origin inner) =>
      if origin = .inline then none
      else (within? change above inner).map fun inner => table.put name (.table origin inner)
    | some (.tables earlier last) =>
      (within? change above last).map fun last => table.put name (.tables earlier last)
    | some _ => none

/-- A header names a table once, though longer headers may have implied it. -/
def openTable? (name : String) (table : Table) : Option Table :=
  match table.lookup name with
  | none => some (table.put name (.table .header []))
  | some (.table .implied inner) => some (table.put name (.table .header inner))
  | some _ => none

def openItem? (name : String) (table : Table) : Option Table :=
  match table.lookup name with
  | none => some (table.put name (.tables [] []))
  | some (.tables earlier last) => some (table.put name (.tables (earlier ++ [last]) []))
  | some _ => none

/-- A dotted key adds to a table that dotted keys made, and reaches it through such
tables and implied ones. -/
def acceptsDotted (origin : Origin) (isLast : Bool) : Bool :=
  match origin with
  | .dotted => true
  | .implied => !isLast
  | .header | .inline => false

def define? (name : String) (node : Node) : List String → Table → Option Table
  | [], table =>
    match table.lookup name with
    | none => some (table.put name node)
    | some _ => none
  | step :: above, table =>
    match table.lookup step with
    | none =>
      (define? name node above []).map fun inner => table.put step (.table .dotted inner)
    | some (.table origin inner) =>
      if acceptsDotted origin above.isEmpty then
        (define? name node above inner).map fun inner => table.put step (.table origin inner)
      else none
    | some (.tables earlier last) =>
      if above.isEmpty then none
      else (define? name node above last).map fun last => table.put step (.tables earlier last)
    | some _ => none

def ofEntries? (entries : List (Path × Node)) : Option Table :=
  entries.foldlM (fun table (path, node) => define? path.name node path.above table) []

end Table

inductive Statement where
  | entry (path : Path) (node : Node)
  | table (path : Path)
  | item (path : Path)

structure Draft where
  root : Table := []
  here : List String := []

def Draft.add? (draft : Draft) : Statement → Option Draft
  | .entry path node =>
    (draft.root.within? (Table.define? path.name node path.above) draft.here).map
      fun root => { draft with root }
  | .table path =>
    (draft.root.within? (Table.openTable? path.name) path.above).map
      fun root => ⟨root, path.above ++ [path.name]⟩
  | .item path =>
    (draft.root.within? (Table.openItem? path.name) path.above).map
      fun root => ⟨root, path.above ++ [path.name]⟩

def Table.ofStatements? (statements : List Statement) : Option Table :=
  (statements.foldlM Draft.add? {}).map Draft.root

end ShoreMetadata.Toml
