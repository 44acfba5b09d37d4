import Influence.Command.Arguments
import Influence.Json.Definition
import Influence.Report.Document
import Influence.Report.Summary

/-! # The program

`Command.run` is the whole program as a function of its arguments and of the files it can read.  It
reads a definition and perhaps options, compiles the network, and lists its variables or puts the
requested questions to it.  Numbers in files are read in floating-point arithmetic
(`Numeral.scaled?`).

The `Outcome` says what is written and with which code the program ends: 0 if all went well, 1 if a
file, the network or a question is at fault, 2 if the arguments are, and 101 if the program stops at
a fault of its own (`Error.isFault`). -/

namespace Influence

/-- What a run of the program leaves behind. -/
structure Outcome where
  code : Nat
  output : String := ""
  errors : String := ""
deriving DecidableEq, Repr

namespace Command

/-- The answer to a request for the version. -/
def version : String := "decinet 0.1.0"

/-- A run that went well. -/
def success (output : String) : Outcome := ⟨0, output, ""⟩

/-- A run that ended with an error line. -/
def failure (line : String) : Outcome := ⟨1, "", line ++ "\n"⟩

/-- A run that stopped at a fault. -/
def stopped (e : Error) : Outcome := ⟨101, "", e.detail ++ "\n"⟩

/-- The name and the outcome of an observation, which are separated by the first equals sign. -/
def parseObservation (text : String) : Except Error (String × String) :=
  match text.toList.span (· ≠ '=') with
  | (name, _ :: outcome) =>
    .ok (Text.trim (String.ofList name), Text.trim (String.ofList outcome))
  | (_, []) => .error (.malformedEvidence text)

/-- The line of one variable in the list of variables. -/
def variableLine (n : Network Float) (name : String) : String :=
  let kind := ((n.nodes.find? (·.name == name)).map (·.kind.text)).getD ""
  let parents := n.parentNames (Node.indexOf n.nodes name)
  let outcomes := ", ".intercalate (n.outcomesOf name)
  let line := "  - " ++ name ++ " (" ++ kind ++ "): [" ++ outcomes ++ "]"
  if parents.isEmpty then line else line ++ " given " ++ ", ".intercalate parents

/-- The list of variables. -/
def variableList (file : String) (n : Network Float) : String :=
  Report.ended (("Variables in '" ++ file ++ "':") :: n.orderedNames.map (variableLine n))

/-- What is written if nothing was asked for. -/
def compiledNotice : String :=
  "✓ Network compiled successfully\n\nRun with --list to see its variables, -q <name> to query\n"

/-- Whether the options ask a question. -/
def asks (o : Options) : Bool := !o.query.isEmpty || o.utility.isSome || o.policies

/-- The questions that the options ask. -/
def request (o : Options) : Except Error Request := do
  let evidence ← o.evidence.mapM parseObservation
  return { evidence, query := o.query, utility := o.utility, policies := o.policies }

/-- Answers the questions of the options.  The network comes back with what it has learnt. -/
def answer (o : Options) (n : Network Float) : Except Error (Report Float × Network Float) := do
  let request ← request o
  let (result, n) := request.run.run n
  return (← result, n)

/-- A report in the requested format.  An unknown format is a summary. -/
def render (format : Option String) (n : Network Float) (r : Report Float) : String :=
  match format with
  | some "json" => r.json ++ "\n"
  | some "debug" => r.listing ++ "\n"
  | _ => r.summary n

/-- Reads the options for solving. -/
def loadConfig (read : String → Option String) : Option String → Except String (Config Float)
  | none => .ok {}
  | some path =>
    match read path with
    | none => .error ("Error reading config '" ++ path ++ "': cannot be read")
    | some text =>
      match Config.read? Numeral.scaled? text with
      | none => .error ("Error parsing config '" ++ path ++ "': malformed options")
      | some config => .ok config

/-- Reads a definition. -/
def loadDefinition (read : String → Option String) (path : String) :
    Except String (Definition Float) :=
  match read path with
  | none => .error ("Error reading file '" ++ path ++ "': cannot be read")
  | some text =>
    match Definition.read? Numeral.scaled? text with
    | none => .error ("Error parsing '" ++ path ++ "': malformed definition")
    | some definition => .ok definition

/-- Reads and compiles a network. -/
def load (read : String → Option String) (file : String) (config : Option String) :
    Except String (Network Float) := do
  let definition ← loadDefinition read file
  let config ← loadConfig read config
  match Network.compile definition config with
  | .error e => .error ("Compile error: " ++ e.message)
  | .ok n => .ok n

/-- Does what the options ask of a network. -/
def perform (o : Options) (file : String) (n : Network Float) : Outcome :=
  if o.list then success (variableList file n)
  else if !asks o then success compiledNotice
  else match answer o n with
    | .error e =>
      if e.isFault then stopped e
      else failure ("Error solving '" ++ file ++ "': " ++ e.message)
    | .ok (report, n) => success (render o.output n report)

/-- The program as a function of its arguments and of the files that can be read. -/
def run (read : String → Option String) (arguments : List String) : Outcome :=
  match Arguments.read arguments with
  | .error .version => success (version ++ "\n")
  | .error .help => success ""
  | .error .usage => ⟨2, "", "error: malformed arguments\n"⟩
  | .ok o =>
    let file := o.file.getD ""
    match load read file o.config with
    | .error line => failure line
    | .ok n => perform o file n

end Command

end Influence
