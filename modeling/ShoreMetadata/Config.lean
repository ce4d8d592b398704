import ShoreMetadata.Schema.Tag

/-! Choices for reading and writing documents. -/

namespace ShoreMetadata

inductive Mode where
  | lenient
  | strict
deriving DecidableEq

def Mode.name : Mode → String
  | .lenient => "lenient"
  | .strict => "strict"

def Mode.ofName? (name : String) : Option Mode :=
  if name = Mode.lenient.name then some .lenient
  else if name = Mode.strict.name then some .strict
  else none

structure Config where
  dialect : Dialect := .current
  mode : Mode := .lenient
  validate : Bool := false
  pretty : Bool := true
deriving DecidableEq

namespace Config

def isStrict (config : Config) : Bool :=
  config.mode = .strict

def isLegacy (config : Config) : Bool :=
  config.dialect = .legacy

def setLegacy (config : Config) (legacy : Bool) : Config :=
  { config with dialect := if legacy then .legacy else .current }

def setMode (config : Config) (mode : Mode) : Config :=
  { config with mode }

def strict (config : Config) : Config :=
  config.setMode .strict

def setValidate (config : Config) (validate : Bool) : Config :=
  { config with validate }

def setPretty (config : Config) (pretty : Bool) : Config :=
  { config with pretty }

end Config

end ShoreMetadata
