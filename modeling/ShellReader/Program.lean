import ShellReader.Parse
import ShellReader.Script
import ShellReader.Settings
import ShellReader.Tree.Dump
import ShellReader.Tree.Outline
import ShellReader.Tree.Source

/-!
# ShellReader — the program

The program reads a source of commands, parses it and prints it in one of four
forms: as a canonical command line, as tokens, as an outline or as a pretty
tree. The source is standard input, a script file or the argument itself.

Everything it does is a function of its arguments, the environment, the standard
input and the scripts within reach; `Program.run` returns what is printed and how
the program ends, and leaves the printing to the caller.
-/

namespace ShellReader.Program

/-- The form in which a source is printed. -/
inductive Mode where
  | source
  | tokens
  | outline
  | pretty
deriving DecidableEq

/-- The option that asks for a form. -/
def Mode.flag : Mode → String
  | source  => "--source"
  | tokens  => "--tokens"
  | outline => "--structure"
  | pretty  => "--pretty"

/-- The form that an option asks for. -/
def Mode.ofFlag? (flag : Text) : Option Mode :=
  [source, tokens, outline, pretty].find? fun mode => mode.flag.toList == flag

/-- A source in the given form. -/
def render (source : Text) (limit : Int) : Mode → Except Failure Text
  | .tokens => .ok (List.intercalate ['\n'] ((tokenize source).map Token.dump))
  | .source => (parse source limit).map Tree.source
  | .outline => (parse source limit).map fun tree => tree.outline.render 0
  | .pretty => (parse source limit).map fun tree =>
      (tree.pretty Tree.prettyUnit).trimRight (· == '\n')

/-- The events of putting a source in the given form. -/
def renderEvents (source : Text) (limit : Int) : Mode → List Event
  | .tokens => tokenizeEvents source
  | _ => tokenizeEvents source ++ parseEvents (tokenize source) limit

-- ---------------------------------------------------------------------------
-- Arguments
-- ---------------------------------------------------------------------------

/-- What the arguments ask for. -/
structure Options where
  mode     : Mode := .source
  debug    : Bool
  operand? : Option Text := none

/-- Why the arguments do not lead to a source. -/
inductive Stop where
  | help
  | unexpected (argument : Text)

/-- Reads the arguments in order. -/
def readArguments (o : Options) : List Text → Except Stop Options
  | [] => .ok o
  | a :: rest =>
    match Mode.ofFlag? a with
    | some mode => readArguments { o with mode := mode } rest
    | none =>
      if a = "--debug".toList then readArguments { o with debug := true } rest
      else if a = "-h".toList ∨ a = "--help".toList then .error .help
      else if o.operand?.isNone then readArguments { o with operand? := some a } rest
      else .error (.unexpected a)

/-- The program's usage, in one line. -/
def usage : Text :=
  "usage: hedgehog-parse [--source|--tokens|--structure|--pretty] [--debug] [SOURCE|PATH|-]".toList

-- ---------------------------------------------------------------------------
-- The program
-- ---------------------------------------------------------------------------

/-- How the program ends: with a status, or given up with a message that is for the
caller to print. -/
inductive Ending where
  | status (code : Nat)
  | abandon (message : Text)
deriving DecidableEq

/-- What a run of the program prints, and how it ends. -/
structure Outcome where
  ending : Ending
  out    : Text := []
  err    : Text := []
deriving DecidableEq

/-- What the program has to go on. -/
structure Setting where
  env    : Environment := {}
  /-- The standard input, with whatever line ends it has. -/
  input  : Text := []
  /-- The contents of the script at a path, if there is a file. -/
  script : Script.Path → Option Text := fun _ => none

/-- The standard input as a source, unless it holds only blanks. -/
def readInput (input : Text) : Option (Text × List Event) :=
  let source := input.unifyNewlines
  if source.core.isEmpty then none else some (source, [.readInput source.length])

/-- The source that an operand asks for, and the events of getting it: the standard
input for no operand or a dash, a script if the operand is the path of one, and
otherwise the operand itself. -/
def readSource (s : Setting) : Option Text → Option (Text × List Event)
  | none => readInput s.input
  | some operand =>
    if operand = ['-'] then readInput s.input
    else
      let path := Script.Path.ofText operand
      match s.script path with
      | some contents => some (contents.unifyNewlines, [.readScript path.toText])
      | none => some (operand, [])

/-- A failure in words. Only faults of the command line come up in practice. -/
def report : Failure → Fault.Report
  | .fault f => f.report
  | other => ⟨.general, other.message, none⟩

/-- What is printed about a failure; its longer form names the category too. -/
def complaint (trace : Bool) (r : Fault.Report) : Text :=
  "Error: ".toList ++ r.message ++ ['\n'] ++
    if trace then
      "\nPython traceback:\nhedgehog_parse.errors.".toList ++ r.category.name.toList ++
        ": ".toList ++ r.message ++ ['\n']
    else []

/-- Prints a source in the form that the options ask for. -/
def printSource (s : Setting) (o : Options) (source : Text) (events : List Event) : Outcome :=
  let limit := s.env.limit Environment.defaultLimit
  let log :=
    if o.debug then (events ++ renderEvents source limit o.mode).flatMap Event.line else []
  match render source limit o.mode with
  | .ok text => ⟨.status 0, text ++ ['\n'], log⟩
  | .error why => ⟨.status 1, [], log ++ complaint s.env.trace (report why)⟩

/-- Runs the program on its arguments. -/
def run (s : Setting) (arguments : List Text) : Outcome :=
  match readArguments { debug := s.env.debug } arguments with
  | .error .help => { ending := .status 0, out := usage ++ ['\n'] }
  | .error (.unexpected a) => { ending := .abandon ("Unexpected argument: ".toList ++ a) }
  | .ok o =>
    match readSource s o.operand? with
    | none => { ending := .abandon "No input provided on stdin".toList }
    | some (source, events) => printSource s o source events

end ShellReader.Program
