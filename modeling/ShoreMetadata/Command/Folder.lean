import ShoreMetadata.Command.Plan

/-! Commands in a folder of texts that has no folders inside. The folders above it
have no texts to read, and take what is written there. -/

namespace ShoreMetadata

structure Folder where
  files : List (String × String)
  standardInput : String := ""

/-- What a path leads to: a folder, or a name inside this folder or above it. -/
inductive Folder.Target where
  | folder
  | entry (inside : Bool) (name : String)
deriving DecidableEq

namespace Folder

def get? (folder : Folder) (name : String) : Option String :=
  folder.files.lookup name

def put (folder : Folder) (name text : String) : Folder :=
  { folder with files := (name, text) :: folder.files.filter (·.1 != name) }

def longestName : Nat := 255

def longestPath : Nat := 4095

def isTooLong (name : String) : Bool :=
  longestName < name.utf8ByteSize

/-- Follows the steps of a path. Nothing lies below a text, and a name is looked up
before what follows it. -/
def follow (folder : Folder) (inside : Bool) : List String → Except FileFault Target
  | [] => .ok .folder
  | "." :: steps => folder.follow inside steps
  | ".." :: steps => folder.follow false steps
  | [name] => .ok (.entry inside name)
  | name :: _ =>
    if isTooLong name then .error .nameTooLong
    else if inside && (folder.get? name).isSome then .error .notDirectory
    else .error .missing

/-- Slashes separate the steps of a path, one or more, and one at its start leads
to the topmost folder. -/
def locate (folder : Folder) (path : String) : Except FileFault Target :=
  if path = "" then .error .missing
  else if longestPath < path.utf8ByteSize then .error .nameTooLong
  else folder.follow (!path.startsWith "/") ((path.splitOn "/").filter (· != ""))

def asksFolder (path : String) : Bool :=
  path.endsWith "/"

def read (folder : Folder) : Source → Except FileFault String
  | .standardInput => .ok folder.standardInput
  | .file path => do
    match ← folder.locate path with
    | .folder => .error .isDirectory
    | .entry inside name =>
      if isTooLong name then .error .nameTooLong
      else
        match if inside then folder.get? name else none with
        | none => .error .missing
        | some text => if asksFolder path then .error .notDirectory else .ok text

/-- A folder is never made, not even by a name that is too long. -/
def write (folder : Folder) (path text : String) : Except FileFault Folder := do
  match ← folder.locate path with
  | .folder => .error .isDirectory
  | .entry inside name =>
    if asksFolder path then .error .isDirectory
    else if isTooLong name then .error .nameTooLong
    else return if inside then folder.put name text else folder

end Folder

def Plan.runIn : Plan α → Folder → α × Folder
  | .done a, folder => (a, folder)
  | .read source next, folder => (next (folder.read source)).runIn folder
  | .write path text next, folder =>
    match folder.write path text with
    | .ok folder => (next (.ok ())).runIn folder
    | .error fault => (next (.error fault)).runIn folder

end ShoreMetadata
