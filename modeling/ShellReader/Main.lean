import ShellReader.Program

/-!
# ShellReader — the executable

Reads what the program asks for from the outside, lets it run and prints its
outcome. Nothing is decided here.
-/

namespace ShellReader

/-- Everything on the standard input. -/
def readStandardInput : IO Text := do
  let input ← IO.getStdin
  let mut text : Text := []
  repeat
    let line ← input.getLine
    if line.isEmpty then break
    text := text ++ line.toList
  return text

/-- The contents of a file, if it can be read. -/
def readScript? (name : String) : IO (Option Text) := do
  try
    return some (← IO.FS.readFile name).toList
  catch _ =>
    return none

/-- A variable of the environment as text. -/
def environmentText (name : String) : IO (Option Text) := do
  return (← IO.getEnv name).map String.toList

/-- The setting of a run with the given operand: the standard input is read only if
it is the source. -/
def readSetting (operand : Option Text) : IO Program.Setting := do
  let env : Environment :=
    { limit? := ← environmentText Environment.limitName
      debug? := ← environmentText Environment.debugName
      trace? := ← environmentText Environment.traceName }
  match operand with
  | some name =>
    if name ≠ ['-'] then
      let path := Script.Path.ofText name
      let contents ← readScript? (String.ofList path.toText)
      return { env := env, script := fun _ => contents }
  | none => pure ()
  return { env := env, input := ← readStandardInput }

/-- Runs the program on its arguments and prints its outcome. Arguments that ask for
no source need nothing from the outside. -/
def execute (arguments : List Text) : IO UInt32 := do
  let setting ← match Program.readArguments { debug := false } arguments with
    | .ok options => readSetting options.operand?
    | .error _ => pure {}
  let outcome := Program.run setting arguments
  (← IO.getStdout).putStr (String.ofList outcome.out)
  (← IO.getStderr).putStr (String.ofList outcome.err)
  match outcome.ending with
  | .status code => return code.toUInt32
  | .abandon message =>
    IO.eprintln (String.ofList message)
    return 1

end ShellReader

/-- The entry point of the executable. -/
def main (arguments : List String) : IO UInt32 :=
  ShellReader.execute (arguments.map String.toList)
