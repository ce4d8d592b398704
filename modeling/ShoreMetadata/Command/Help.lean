import ShoreMetadata.Command.Arguments

/-! Pages of help. -/

namespace ShoreMetadata

def Verb.purpose : Verb → String
  | .convert => "Parse a document and write it back out"
  | .validate => "Check document structure and entity values"
  | .summary => "Count the entities in a document"

namespace Topic

def programName : String := "ssds-metadata"

def helpPurpose : String :=
  "Print this message or the help of the given subcommand(s)"

def purpose : Topic → String
  | .overview => "SSDS metadata XML tools"
  | .verb v => v.purpose
  | .help => helpPurpose

def usage : Topic → String
  | .overview => s!"{programName} [OPTIONS] <COMMAND>"
  | .verb v => s!"{programName} {v.name} [OPTIONS] <INPUT>"
  | .help => s!"{programName} help [COMMAND]..."

def rows (entries : List (String × String)) : List String :=
  let width := (entries.map (·.1.length)).foldl max 0
  entries.map fun (name, meaning) =>
    "  " ++ name ++ String.ofList (List.replicate (width - name.length + 2) ' ') ++ meaning

def titled (title : String) (entries : List (String × String)) : List String :=
  if entries.isEmpty then [] else "" :: s!"{title}:" :: rows entries

def commands : Topic → List (String × String)
  | .overview => Verb.all.map (fun v => (v.name, v.purpose)) ++ [("help", helpPurpose)]
  | _ => []

def operands : Topic → List (String × String)
  | .overview => []
  | .verb _ => [("<INPUT>", "Input file, or \"-\" for stdin")]
  | .help => [("[COMMAND]...", "Print help for the subcommand(s)")]

def verboseRow : String × String :=
  ("-v, --verbose...", "Log more (-v debug, -vv trace); RUST_LOG overrides")

def helpRow : String × String :=
  ("-h, --help", "Print help")

def options : Topic → List (String × String)
  | .help => []
  | .verb .convert =>
    [("    --legacy", "Write the legacy dialect (DataFile/Deployment/destiny ...)"), verboseRow,
      ("    --to <TO>", "Output format [default: xml] [possible values: xml, json]"),
      ("-o, --output <OUTPUT>", "Output file (stdout when omitted)"),
      ("    --strict", "Fail on unknown elements and bad version values"),
      ("    --validate", "Validate the document structure before building"),
      ("    --config <CONFIG>", "TOML configuration file"), helpRow]
  | _ => [verboseRow, helpRow]

def page (topic : Topic) : String :=
  String.join <| (topic.purpose :: "" :: s!"Usage: {topic.usage}" ::
    titled "Commands" topic.commands ++ titled "Arguments" topic.operands
      ++ titled "Options" topic.options).map (· ++ "\n")

end Topic

end ShoreMetadata
