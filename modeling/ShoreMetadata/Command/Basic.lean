import ShoreMetadata.Export.Document

/-! Commands on documents. -/

namespace ShoreMetadata

inductive Source where
  | standardInput
  | file (path : String)
deriving DecidableEq

def Source.ofOperand (operand : String) : Source :=
  if operand = "-" then .standardInput else .file operand

structure Conversion where
  input : Source
  format : Format := .xml
  output : Option String := none
  settings : Option String := none
  legacy : Bool := false
  strict : Bool := false
  validate : Bool := false
deriving DecidableEq

def Conversion.configure (c : Conversion) (config : Config) : Config :=
  let config := config.setLegacy (config.isLegacy || c.legacy)
  let config := config.setValidate (config.validate || c.validate)
  if c.strict then config.strict else config

inductive Verb where
  | convert
  | validate
  | summary
deriving DecidableEq

namespace Verb

def name : Verb → String
  | .convert => "convert"
  | .validate => "validate"
  | .summary => "summary"

def all : List Verb := [.convert, .validate, .summary]

def ofName? (name : String) : Option Verb :=
  all.find? fun v => v.name == name

theorem ofName?_name (v : Verb) : ofName? v.name = some v := by
  cases v <;> rfl

end Verb

inductive Command where
  | convert (conversion : Conversion)
  | validate (input : Source)
  | summary (input : Source)
deriving DecidableEq

def Command.verb : Command → Verb
  | .convert _ => .convert
  | .validate _ => .validate
  | .summary _ => .summary

end ShoreMetadata
