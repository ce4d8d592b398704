import ShoreMetadata.Command.Plan

/-! The command line program. -/

namespace ShoreMetadata

/-- Some codes of the system come negated. -/
def FileFault.ofIO : IO.Error → FileFault
  | .noFileOrDirectory .. => .missing
  | .inappropriateType _ code _ =>
    if code = 21 ∨ code = -21 then .isDirectory else .notDirectory
  | e@(.invalidArgument _ code _) =>
    if code = 36 ∨ code = -36 then .nameTooLong else .other (toString e)
  | e => .other (toString e)

def attempt (action : IO α) : IO (Except FileFault α) := do
  try return .ok (← action)
  catch e => return .error (.ofIO e)

def Source.load : Source → IO String
  | .standardInput => do (← IO.getStdin).readToEnd
  | .file path => IO.FS.readFile path

def Plan.perform : Plan α → IO α
  | .done a => return a
  | .read source next => do (next (← attempt source.load)).perform
  | .write path text next => do (next (← attempt (IO.FS.writeFile path text))).perform

end ShoreMetadata

open ShoreMetadata in
def main (arguments : List String) : IO UInt32 := do
  let report ← (Plan.ofArguments arguments).perform
  IO.print report.output
  IO.eprint report.errors
  return report.exitCode.toUInt32
