import ShoreMetadata.Command.Help
import ShoreMetadata.Config.Toml
import ShoreMetadata.Import.Session
import ShoreMetadata.Summary
import ShoreMetadata.Validation.Limits

/-! What a command does: the texts it asks for, the text it writes, and how it
ends. -/

namespace ShoreMetadata

inductive FileFault where
  | missing
  | notDirectory
  | isDirectory
  | nameTooLong
  | other (reason : String)
deriving DecidableEq

def FileFault.message : FileFault → String
  | .missing => "No such file or directory (os error 2)"
  | .notDirectory => "Not a directory (os error 20)"
  | .isDirectory => "Is a directory (os error 21)"
  | .nameTooLong => "File name too long (os error 36)"
  | .other reason => reason

inductive Plan (α : Type) where
  | done (a : α)
  | read (source : Source) (next : Except FileFault String → Plan α)
  | write (path text : String) (next : Except FileFault Unit → Plan α)

namespace Plan

def andThen (next : α → Plan β) : Plan α → Plan β
  | .done a => next a
  | .read source resume => .read source fun text => (resume text).andThen next
  | .write path text resume => .write path text fun result => (resume result).andThen next

instance : Monad Plan where
  pure := done
  bind plan next := plan.andThen next

end Plan

inductive Failure where
  | standardInput (fault : FileFault)
  | reading (path reason : String)
  | writing (path : String) (fault : FileFault)
  | structural (violations : List Violation)
  | values (findings : List Limits.Finding)
  | document (error : Error)

namespace Failure

def details : Failure → List String
  | .structural violations => violations.map Violation.text
  | .values findings => findings.map Limits.Finding.message
  | _ => []

def causes : Failure → List String
  | .standardInput fault => [s!"Invalid argument: Failed to read stdin: {fault.message}"]
  | .reading path reason => [s!"Failed to read file {path}: {reason}"]
  | .writing path fault => [s!"Failed to write file {path}: {fault.message}"]
  | .structural violations =>
    [s!"Validation failed: {violations.length} structural problem(s)"]
  | .values findings => [s!"Validation failed: {findings.length} value problem(s)"]
  | .document error => [s!"Conversion failed: {error.message}", error.message]

end Failure

namespace Plan

abbrev Attempt (α : Type) := ExceptT Failure Plan α

def load (source : Source) : Attempt String :=
  ExceptT.mk <| .read source fun
    | .ok text => .done (.ok text)
    | .error fault =>
      .done <| .error <|
        match source with
        | .standardInput => .standardInput fault
        | .file path => .reading path fault.message

def save (path text : String) : Attempt Unit :=
  ExceptT.mk <| .write path text fun result =>
    .done (result.mapError (.writing path))

def loadConfig (path : String) : Attempt Config :=
  ExceptT.mk <| .read (.file path) fun text =>
    let config := match text with
      | .ok text => Config.ofToml text
      | .error fault => .error (.configuration s!"Failed to read {path}: {fault.message}")
    .done (config.mapError fun e => .reading path e.message)

def settle (result : Except Error α) : Attempt α :=
  ExceptT.mk (.done (result.mapError .document))

/-- The settings are read before the input. -/
def convert (c : Conversion) : Attempt String := do
  let config ← match c.settings with
    | some path => loadConfig path
    | none => pure {}
  let config := c.configure config
  let text ← load c.input
  let document ← settle (readDocument config text).result
  let content := exportEntities config c.format document.toList
  match c.output with
  | none => return content ++ "\n"
  | some path =>
    save path content
    return ""

/-- Values are looked at only where the structure holds. -/
def validate (input : Source) : Attempt String := do
  let text ← load input
  let root ← settle ((Xml.read text).mapError .xml)
  let violations := Structure.violations root
  if !violations.isEmpty then throw (.structural violations)
  let document ← settle (readDocument {} text).result
  let findings := document.toList.flatMap Limits.findings
  if !findings.isEmpty then throw (.values findings)
  return "Validation successful\n"

def summary (input : Source) : Attempt String := do
  let recorded := readDocument {} (← load input)
  let document ← settle recorded.result
  return Summary.text recorded.problems document

def ofCommand : Command → Attempt String
  | .convert c => convert c
  | .validate input => validate input
  | .summary input => summary input

end Plan

structure Report where
  exitCode : UInt8
  output : String := ""
  errors : String := ""
deriving DecidableEq

namespace Report

def underMark (mark : String) (cause : String) : String :=
  let margin := String.ofList ('\n' :: List.replicate mark.length ' ')
  mark ++ String.intercalate margin (cause.splitOn "\n") ++ "\n"

def causeText : List String → String
  | [cause] => underMark "    " cause
  | causes => String.join (causes.mapIdx fun i cause => underMark s!"    {i}: " cause)

def ofFailure (v : Verb) (failure : Failure) : Report where
  exitCode := 1
  errors := String.join (failure.details.map fun line => s!"  {line}\n")
    ++ s!"Error: {v.name} failed\n\nCaused by:\n" ++ causeText failure.causes

def ofResult (v : Verb) : Except Failure String → Report
  | .ok output => { exitCode := 0, output }
  | .error failure => ofFailure v failure

def ofStop : Stop → Report
  | .help topic => { exitCode := 0, output := topic.page }
  | .misuse misuse => { exitCode := 2, errors := s!"error: {misuse.message}\n" }

end Report

def Plan.ofArguments (arguments : List String) : Plan Report :=
  match Command.parse arguments with
  | .error stop => .done (.ofStop stop)
  | .ok command => do return .ofResult command.verb (← (Plan.ofCommand command).run)

end ShoreMetadata
