/-! # Command-line arguments

`Arguments.read` reads the arguments of the program from left to right into `Options`.

* An option has a long name behind two hyphens, and some have a letter behind one hyphen.  Letters
  may be joined behind one hyphen.
* The value of an option is the text behind an equals sign, or behind its letter, or else the next
  argument, which may not begin with a hyphen unless it is a single one.  The value of `utility`
  can be left out, and stands only behind an equals sign.
* Two hyphens alone end the options.  What is not an option is the file.

Reading stops early (`Stop`) at a request for the version or the help, and at the first error. -/

namespace Influence

/-- What the arguments ask for. -/
structure Options where
  file : Option String := none
  evidence : List String := []
  query : List String := []
  /-- Whether the utility is asked for, and of which term. -/
  utility : Option (Option String) := none
  policies : Bool := false
  list : Bool := false
  config : Option String := none
  output : Option String := none
  verbosity : Nat := 0
deriving DecidableEq, Repr

/-- The options of the program. -/
inductive Flag where
  | evidence
  | query
  | utility
  | policies
  | list
  | config
  | output
  | verbose
  | help
  | version
deriving DecidableEq, Repr

namespace Flag

/-- All options. -/
def all : List Flag :=
  [evidence, query, utility, policies, list, config, output, verbose, help, version]

/-- The long name of an option. -/
def longName : Flag → String
  | evidence => "evidence"
  | query => "query"
  | utility => "utility"
  | policies => "policies"
  | list => "list"
  | config => "config"
  | output => "output"
  | verbose => "verbose"
  | help => "help"
  | version => "version"

/-- The letter of an option. -/
def letter? : Flag → Option Char
  | evidence => some 'e'
  | query => some 'q'
  | list => some 'l'
  | config => some 'c'
  | output => some 'o'
  | verbose => some 'v'
  | help => some 'h'
  | version => some 'V'
  | utility | policies => none

/-- Whether an option needs a value. -/
def needsValue : Flag → Bool
  | evidence | query | config | output => true
  | _ => false

/-- The option with a long name. -/
def ofLongName? (name : String) : Option Flag := all.find? (·.longName == name)

/-- The option with a letter. -/
def ofLetter? (c : Char) : Option Flag := all.find? (·.letter? == some c)

end Flag

/-- Why the arguments give nothing to do. -/
inductive Stop where
  /-- The version was asked for. -/
  | version
  /-- The help was asked for. -/
  | help
  /-- The arguments are malformed. -/
  | usage
deriving DecidableEq, Repr

namespace Options

/-- Sets something that may be given only once. -/
def once {β : Type} (old : Option β) (new : β) : Except Stop (Option β) :=
  match old with
  | none => .ok (some new)
  | some _ => .error .usage

/-- Turns on something that may be turned on only once. -/
def turnOn (old : Bool) : Except Stop Bool := if old then .error .usage else .ok true

/-- Takes an option that needs a value. -/
def withValue (o : Options) (flag : Flag) (value : String) : Except Stop Options :=
  match flag with
  | .evidence => .ok { o with evidence := o.evidence ++ [value] }
  | .query => .ok { o with query := o.query ++ [value] }
  | .config => return { o with config := ← once o.config value }
  | .output => return { o with output := ← once o.output value }
  | .utility => return { o with utility := ← once o.utility (some value) }
  | _ => .error .usage

/-- Takes an option without a value. -/
def withoutValue (o : Options) (flag : Flag) : Except Stop Options :=
  match flag with
  | .utility => return { o with utility := ← once o.utility none }
  | .policies => return { o with policies := ← turnOn o.policies }
  | .list => return { o with list := ← turnOn o.list }
  | .verbose => .ok { o with verbosity := o.verbosity + 1 }
  | .help => .error .help
  | .version => .error .version
  | _ => .error .usage

/-- Takes the file. -/
def withFile (o : Options) (file : String) : Except Stop Options :=
  return { o with file := ← once o.file file }

end Options

namespace Arguments

/-- The name and the value of a long option, which are separated by the first equals sign. -/
def splitLong (text : List Char) : String × Option String :=
  match text.span (· ≠ '=') with
  | (name, _ :: value) => (String.ofList name, some (String.ofList value))
  | (name, []) => (String.ofList name, none)

/-- Takes a long option.  The option that is returned still needs its value. -/
def readLong (text : List Char) (o : Options) : Except Stop (Options × Option Flag) :=
  let (name, value) := splitLong text
  match Flag.ofLongName? name, value with
  | none, _ => .error .usage
  | some flag, some value => return (← o.withValue flag value, none)
  | some flag, none =>
    if flag.needsValue then .ok (o, some flag) else return (← o.withoutValue flag, none)

/-- Takes joined letters.  The option that is returned still needs its value. -/
def readLetters : List Char → Options → Except Stop (Options × Option Flag)
  | [], o => .ok (o, none)
  | c :: rest, o =>
    match Flag.ofLetter? c with
    | none => .error .usage
    | some flag =>
      if flag.needsValue then
        match rest with
        | [] => .ok (o, some flag)
        | '=' :: value => return (← o.withValue flag (String.ofList value), none)
        | value => return (← o.withValue flag (String.ofList value), none)
      else do
        let o ← o.withoutValue flag
        readLetters rest o

/-- The form of one argument. -/
inductive Form where
  | ending
  | long (text : List Char)
  | letters (text : List Char)
  | plain
deriving DecidableEq, Repr

/-- The form of an argument. -/
def form (argument : String) : Form :=
  match argument.toList with
  | ['-', '-'] => .ending
  | '-' :: '-' :: text => .long text
  | ['-'] => .plain
  | '-' :: text => .letters text
  | _ => .plain

/-- Takes all remaining arguments as files. -/
def readFiles (arguments : List String) (o : Options) : Except Stop Options :=
  arguments.foldlM Options.withFile o

/-- Takes the remaining arguments.  An option that still needs its value takes the next one. -/
def readFrom : Option Flag → List String → Options → Except Stop Options
  | none, [], o => .ok o
  | some _, [], _ => .error .usage
  | none, argument :: rest, o =>
    match form argument with
    | .ending => readFiles rest o
    | .plain => do
      let o ← o.withFile argument
      readFrom none rest o
    | .long text => do
      let (o, pending) ← readLong text o
      readFrom pending rest o
    | .letters text => do
      let (o, pending) ← readLetters text o
      readFrom pending rest o
  | some flag, argument :: rest, o =>
    match form argument with
    | .plain => do
      let o ← o.withValue flag argument
      readFrom none rest o
    | _ => .error .usage

/-- Reads all arguments.  There has to be a file. -/
def read (arguments : List String) : Except Stop Options := do
  let o ← readFrom none arguments {}
  if o.file.isNone then throw .usage
  return o

end Arguments

end Influence
