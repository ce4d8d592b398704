import ShoreMetadata.Config
import ShoreMetadata.Error
import ShoreMetadata.Toml.Reader

/-! Choices read from TOML. Entries that are no choice are passed over. -/

namespace ShoreMetadata.Config

open Toml (Node Table)

def flag (table : Table) (name : String) (otherwise : Bool) : Except Error Bool :=
  match table.lookup name with
  | none => .ok otherwise
  | some (.bool b) => .ok b
  | some _ => .error (.configuration s!"{name} must be true or false")

/-- A mode is named by a string, or by the only entry of a table, which holds
nothing. -/
def modeOf? : Node → Option Mode
  | .string name => Mode.ofName? name
  | .table _ [(name, .table _ [])] => Mode.ofName? name
  | .table _ [(name, .array [])] => Mode.ofName? name
  | _ => none

def modeIn (table : Table) : Except Error Mode :=
  match table.lookup "mode" with
  | none => .ok .lenient
  | some node =>
    match modeOf? node with
    | some mode => .ok mode
    | none => .error (.configuration "mode must be lenient or strict")

def ofTable (table : Table) : Except Error Config := do
  let legacy ← flag table "legacy" false
  let mode ← modeIn table
  let validate ← flag table "validate" false
  let pretty ← flag table "pretty" true
  return (({ mode, validate, pretty } : Config).setLegacy legacy)

def ofToml (text : String) : Except Error Config :=
  match Toml.read? text with
  | some table => ofTable table
  | none => .error (.configuration "the text is not well-formed TOML")

end ShoreMetadata.Config
