import ShellReader.Text.Numeral

/-!
# ShellReader — settings

Three environment variables set the limit on nesting, the log on standard error
and the longer form of error reports. A limit that is not a positive integer is
as good as none; a flag is on when it says so in one of four words.
-/

namespace ShellReader

/-- The values of the variables that the program looks at. -/
structure Environment where
  limit? : Option Text := none
  debug? : Option Text := none
  trace? : Option Text := none

namespace Environment

/-- The name of the variable for the limit on nesting. -/
def limitName : String := "HEDGEHOG_PARSE_MAX_DEPTH"

/-- The name of the variable for the log. -/
def debugName : String := "HEDGEHOG_PARSE_DEBUG"

/-- The name of the variable for the longer form of error reports. -/
def traceName : String := "HEDGEHOG_DEBUG_PY_TRACE"

/-- The limit on nesting when no other is set. -/
def defaultLimit : Int := 100

/-- The words that turn a flag on. -/
def affirmations : List Text :=
  ["1".toList, "true".toList, "yes".toList, "on".toList]

/-- Whether a flag is on, blanks around it and the case of its letters aside. No
letter outside ASCII has a lower-case form that occurs in the four words. -/
def isOn (value : Option Text) : Bool :=
  affirmations.contains (((value.getD []).trim Text.isFlagBlank).map Char.toLower)

/-- The limit on nesting: the variable's value if it is a positive integer. -/
def limit (env : Environment) (default : Int) : Int :=
  match env.limit?.bind Text.readInt? with
  | some n => if 0 < n then n else default
  | none => default

/-- Whether the log is written. -/
def debug (env : Environment) : Bool := isOn env.debug?

/-- Whether an error is reported in its longer form. -/
def trace (env : Environment) : Bool := isOn env.trace?

end Environment

end ShellReader
