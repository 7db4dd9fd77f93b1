import ShellReader.Token.Basic

/-!
# ShellReader — faults

A fault is why a command line has no tree: a cause and, where there is one, the
token at which it showed. Each cause belongs to a category; the two unterminated
ones are special cases of an unexpected token, and every category is a special
case of the general one. A `Report` is a fault put in words.

## Results

* `Fault.Category.general_mem_ancestors` — every category leads up to the general one.
-/

namespace ShellReader

namespace Fault

/-- What sort of fault. -/
inductive Category where
  | general
  | structural
  | unexpectedToken
  | unterminatedString
  | unterminatedSubstitution
  | nestingTooDeep
deriving DecidableEq

namespace Category

/-- Every category, in the order of the declaration. -/
def all : List Category :=
  [general, structural, unexpectedToken, unterminatedString,
   unterminatedSubstitution, nestingTooDeep]

/-- The name under which a category is reported. -/
def name : Category → String
  | general                  => "ParseError"
  | structural               => "StructuralError"
  | unexpectedToken          => "UnexpectedToken"
  | unterminatedString       => "UnterminatedString"
  | unterminatedSubstitution => "UnterminatedSubstitution"
  | nestingTooDeep           => "NestingTooDeep"

/-- The category of a given name. -/
def ofName? (s : String) : Option Category :=
  all.find? (·.name == s)

/-- The category and all that it is a special case of, the general one last. -/
def ancestors : Category → List Category
  | general => [general]
  | unterminatedString => [unterminatedString, unexpectedToken, general]
  | unterminatedSubstitution => [unterminatedSubstitution, unexpectedToken, general]
  | category => [category, general]

/-- Every category leads up to the general one. -/
theorem general_mem_ancestors (c : Category) : general ∈ c.ancestors := by
  cases c <;> decide

end Category

/-- Why a command line has no tree. -/
inductive Cause where
  /-- The tokens ran out before an end was read. -/
  | missingEnd
  /-- Tokens are left after the end. -/
  | afterEnd
  /-- A token of another kind was called for. -/
  | mismatch (wanted found : Token.Kind)
  /-- A token that cannot stand here, given by its text. -/
  | unexpected (text : Text)
  /-- No command follows an operator. -/
  | noCommandAfter (operator : Text)
  /-- A sequence has no command at all. -/
  | noCommand
  /-- A string is not closed. -/
  | openString (quote : Text)
  /-- The tokens end inside a substitution. -/
  | openSubstitution
  /-- The commands of a substitution are read, and no parenthesis closes it. -/
  | unclosedSubstitution
  /-- Too many productions are open at once. -/
  | tooDeep (limit : Int)
  /-- Too many commands are joined by operators. -/
  | tooManyCommands (limit : Int)
deriving DecidableEq

namespace Cause

def category : Cause → Category
  | missingEnd | afterEnd => .structural
  | mismatch .. | unexpected _ | noCommandAfter _ | noCommand => .unexpectedToken
  | openString _ => .unterminatedString
  | openSubstitution | unclosedSubstitution => .unterminatedSubstitution
  | tooDeep _ | tooManyCommands _ => .nestingTooDeep

/-- The cause in words. -/
def detail : Cause → Text
  | missingEnd => "Expected end at the end of the token list".toList
  | afterEnd => "Tokens found after end".toList
  | mismatch wanted found =>
    "Expected ".toList ++ wanted.name.toList ++ ", got ".toList ++ found.name.toList
  | unexpected text => "Unexpected ".toList ++ text
  | noCommandAfter operator => "Expected a command after ".toList ++ operator
  | noCommand => "Expected a command".toList
  | openString quote => "Unterminated string, expected closing ".toList ++ quote
  | openSubstitution | unclosedSubstitution =>
    "Unterminated command substitution, expected )".toList
  | tooDeep limit => "Nesting deeper than ".toList ++ Text.ofInt limit ++ " levels".toList
  | tooManyCommands limit =>
    "More than ".toList ++ Text.ofInt limit ++ " chained commands".toList

end Cause

/-- A fault in words: its category, what is wrong and the token it is about. -/
structure Report where
  category : Category
  detail   : Text
  token    : Option Token
deriving DecidableEq

/-- The full message: the detail and, if a token is known, its offset. -/
def Report.message (r : Report) : Text :=
  match r.token with
  | some t => r.detail ++ " at offset ".toList ++ Text.ofInt t.offset
  | none => r.detail

end Fault

/-- A cause and the token at which it showed. -/
structure Fault where
  cause : Fault.Cause
  token : Option Token
deriving DecidableEq

namespace Fault

/-- The fault in words. -/
def report (f : Fault) : Report :=
  ⟨f.cause.category, f.cause.detail, f.token⟩

/-- A fault that shows at the given token. -/
def atToken (t : Token) (cause : Cause) : Fault :=
  ⟨cause, some t⟩

end Fault

end ShellReader
