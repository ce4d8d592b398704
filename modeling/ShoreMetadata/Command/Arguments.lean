import ShoreMetadata.Command.Basic

/-! Command lines. Arguments are read one after another, and the first that asks
for help or breaks the rules decides what becomes of the line. -/

namespace ShoreMetadata

inductive Topic where
  | overview
  | verb (v : Verb)
  | help
deriving DecidableEq

inductive Misuse where
  | noCommand
  | unknownCommand (name : String)
  | unknownOption (argument : String)
  | unexpected (argument : String)
  | unwantedValue (option : String)
  | missingValue (option : String)
  | badValue (option value : String)
  | repeated (option : String)
  | noInput
deriving DecidableEq

def Misuse.message : Misuse → String
  | .noCommand => "a command is required"
  | .unknownCommand name => s!"unrecognized command '{name}'"
  | .unknownOption argument => s!"unexpected option '{argument}'"
  | .unexpected argument => s!"unexpected argument '{argument}'"
  | .unwantedValue option => s!"'{option}' takes no value"
  | .missingValue option => s!"a value is required for '{option}'"
  | .badValue option value => s!"invalid value '{value}' for '{option}'"
  | .repeated option => s!"'{option}' cannot be used multiple times"
  | .noInput => "an input is required"

inductive Stop where
  | help (topic : Topic)
  | misuse (misuse : Misuse)
deriving DecidableEq

inductive Switch where
  | verbose
  | help
  | legacy
  | strict
  | validate
deriving DecidableEq

inductive Setting where
  | format
  | output
  | settings
deriving DecidableEq

inductive Flag where
  | switch (s : Switch)
  | setting (s : Setting)
deriving DecidableEq

namespace Flag

def name : Flag → String
  | .switch .verbose => "--verbose"
  | .switch .help => "--help"
  | .switch .legacy => "--legacy"
  | .switch .strict => "--strict"
  | .switch .validate => "--validate"
  | .setting .format => "--to"
  | .setting .output => "--output"
  | .setting .settings => "--config"

def letter? : Flag → Option Char
  | .switch .verbose => some 'v'
  | .switch .help => some 'h'
  | .setting .output => some 'o'
  | _ => none

def common : List Flag :=
  [.switch .verbose, .switch .help]

def known : Topic → List Flag
  | .verb .convert =>
    common ++ [.switch .legacy, .switch .strict, .switch .validate, .setting .format,
      .setting .output, .setting .settings]
  | _ => common

def ofName? (topic : Topic) (name : String) : Option Flag :=
  (known topic).find? fun f => f.name == name

def ofLetter? (topic : Topic) (letter : Char) : Option Flag :=
  (known topic).find? fun f => f.letter? == some letter

end Flag

structure Spoken where
  input : Option String := none
  format : Option Format := none
  output : Option String := none
  settings : Option String := none
  legacy : Bool := false
  strict : Bool := false
  validate : Bool := false

namespace Spoken

/-- A flag is given once, unless it only makes the program talk. -/
def once (f : Flag) (given : Bool) (spoken : Spoken) : Except Stop Spoken :=
  if given then .error (.misuse (.repeated f.name)) else .ok spoken

def turnOn (topic : Topic) (spoken : Spoken) : Switch → Except Stop Spoken
  | .verbose => .ok spoken
  | .help => .error (.help topic)
  | .legacy => once (.switch .legacy) spoken.legacy { spoken with legacy := true }
  | .strict => once (.switch .strict) spoken.strict { spoken with strict := true }
  | .validate => once (.switch .validate) spoken.validate { spoken with validate := true }

def path (s : Setting) (value : String) : Except Stop (Option String) :=
  if value = "" then .error (.misuse (.badValue (Flag.setting s).name value))
  else .ok (some value)

def set (spoken : Spoken) (value : String) : Setting → Except Stop Spoken
  | .format =>
    match Format.ofName? value with
    | none => .error (.misuse (.badValue (Flag.setting .format).name value))
    | some format =>
      once (.setting .format) spoken.format.isSome { spoken with format := some format }
  | .output => do
    let output ← path .output value
    once (.setting .output) spoken.output.isSome { spoken with output }
  | .settings => do
    let settings ← path .settings value
    once (.setting .settings) spoken.settings.isSome { spoken with settings }

def addOperand (spoken : Spoken) (operand : String) : Except Stop Spoken :=
  if spoken.input.isSome then .error (.misuse (.unexpected operand))
  else .ok { spoken with input := some operand }

/-- The letters of an argument that starts with one dash. A flag that wants a value
takes the rest of the argument, or waits for the next one. -/
def letters (topic : Topic) (argument : String) (spoken : Spoken) :
    List Char → Except Stop (Spoken × Option Setting)
  | [] => .ok (spoken, none)
  | c :: cs =>
    match Flag.ofLetter? topic c with
    | none => .error (.misuse (.unknownOption argument))
    | some (.switch s) => do letters topic argument (← spoken.turnOn topic s) cs
    | some (.setting s) =>
      match cs with
      | [] => .ok (spoken, some s)
      | '=' :: value => (spoken.set (String.ofList value) s).map (·, none)
      | value => (spoken.set (String.ofList value) s).map (·, none)

def word (topic : Topic) (argument : String) (spoken : Spoken) :
    Except Stop (Spoken × Option Setting) :=
  let cs := argument.toList
  let value? := match cs.dropWhile (· != '=') with
    | [] => none
    | _ :: value => some (String.ofList value)
  match Flag.ofName? topic (String.ofList (cs.takeWhile (· != '='))), value? with
  | none, _ => .error (.misuse (.unknownOption argument))
  | some (.switch s), none => (spoken.turnOn topic s).map (·, none)
  | some (.switch s), some _ => .error (.misuse (.unwantedValue (Flag.switch s).name))
  | some (.setting s), none => .ok (spoken, some s)
  | some (.setting s), some value => (spoken.set value s).map (·, none)

/-- A lone dash is an operand. -/
def isOption (argument : String) : Bool :=
  argument.startsWith "-" && argument != "-"

def option (topic : Topic) (argument : String) (spoken : Spoken) :
    Except Stop (Spoken × Option Setting) :=
  if argument.startsWith "--" then word topic argument spoken
  else letters topic argument spoken (argument.toList.drop 1)

/-- The arguments of a command, where a setting may wait for its value. After two
dashes alone all arguments are operands. -/
def read (v : Verb) (waiting : Option Setting) (spoken : Spoken) :
    List String → Except Stop Spoken
  | [] =>
    match waiting with
    | some s => .error (.misuse (.missingValue (Flag.setting s).name))
    | none => .ok spoken
  | argument :: rest =>
    match waiting with
    | some s =>
      if isOption argument then .error (.misuse (.missingValue (Flag.setting s).name))
      else do read v none (← spoken.set argument s) rest
    | none =>
      if argument = "--" then rest.foldlM addOperand spoken
      else if isOption argument then do
        let (spoken, waiting) ← option (.verb v) argument spoken
        read v waiting spoken rest
      else do read v none (← spoken.addOperand argument) rest

def command (spoken : Spoken) (v : Verb) : Except Stop Command :=
  match spoken.input with
  | none => .error (.misuse .noInput)
  | some operand =>
    let input := Source.ofOperand operand
    match v with
    | .validate => .ok (.validate input)
    | .summary => .ok (.summary input)
    | .convert =>
      let format := spoken.format.getD .xml
      .ok (.convert { spoken with input, format })

end Spoken

namespace Command

def helpTopic : List String → Stop
  | [] => .help .overview
  | "help" :: rest =>
    match rest with
    | [] => .help .help
    | extra :: _ => .misuse (.unknownCommand extra)
  | name :: rest =>
    match Verb.ofName? name, rest with
    | none, _ => .misuse (.unknownCommand name)
    | some v, [] => .help (.verb v)
    | some _, extra :: _ => .misuse (.unknownCommand extra)

def parse : List String → Except Stop Command
  | [] => .error (.misuse .noCommand)
  | argument :: rest =>
    match Verb.ofName? argument with
    | some v => do (← Spoken.read v none {} rest).command v
    | none =>
      if argument = "help" then .error (helpTopic rest)
      else if Spoken.isOption argument then do
        let _ ← Spoken.option .overview argument {}
        parse rest
      else .error (.misuse (.unknownCommand argument))

end Command

end ShoreMetadata
