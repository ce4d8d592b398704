import ShoreMetadata.Document.Basic
import ShoreMetadata.Document.Inversion
import ShoreMetadata.Import.Build
import ShoreMetadata.Validation.Structure
import ShoreMetadata.Xml.Reader

/-! Reading documents. A session keeps the problems passed over and the failure
of its last document. -/

namespace ShoreMetadata

open Xml (Element)

def buildDocument (config : Config) (d : Document) : List Element → Recorded Document
  | [] => .ok d
  | child :: rest => do
    match ← buildElement config child with
    | some e => buildDocument config (d.insert e).1 rest
    | none => buildDocument config d rest

def readTree (config : Config) (root : Element) : Recorded Document :=
  if !root.hasTag rootTag then .fail (.schemaMismatch rootTag root.name)
  else
    let violations := if config.validate then Structure.violations root else []
    if violations.isEmpty then
      buildDocument config .empty (Inversion.invert root).children
    else .fail (.validity violations)

def readDocument (config : Config) (text : String) : Recorded Document := do
  let root ← .ofExcept ((Xml.read text).mapError .xml)
  readTree config root

structure Session where
  config : Config
  problems : List Problem
  failure : Option Error

namespace Session

def start (config : Config) : Session :=
  ⟨config, [], none⟩

def read (session : Session) (text : String) : Session × Except Error Document :=
  let outcome := readDocument session.config text
  let failure := match outcome.result with
    | .ok _ => none
    | .error e => some e
  (⟨session.config, outcome.problems, failure⟩, outcome.result)

def record (session : Session) (outcome : Recorded α) : Session × Except Error α :=
  ({ session with problems := session.problems ++ outcome.problems }, outcome.result)

def buildElement (session : Session) (element : Element) :
    Session × Except Error (Option AnyEntity) :=
  session.record (ShoreMetadata.buildElement session.config element)

def buildKind (session : Session) (k : Kind) (element : Element) :
    Session × Except Error AnyEntity :=
  session.record (ShoreMetadata.buildKind session.config k element)

def failed (session : Session) : Bool :=
  session.failure.isSome

def failureReport : Option Error → String
  | none => ""
  | some e =>
    "Unmarshal failed: " ++ e.message ++ "\n"
      ++ String.join (e.violations.map fun v => "  " ++ v.text ++ "\n")

def report (session : Session) : String :=
  failureReport session.failure
    ++ String.join (session.problems.map fun p => "Skipped: " ++ p.message ++ "\n")

end Session

end ShoreMetadata
