import ShellReader.Production.Respond
import ShellReader.Token.Scanner

/-!
# ShellReader — the log

What the library does leaves a trace of events: the scanner's characters and
tokens, productions that open and close, the remarks of productions, and where
the program took its input from. An event knows the channel it is logged on and
its message; neither is needed to reason about what happened.
-/

namespace ShellReader

/-- Something worth a line in the log. -/
inductive Event where
  /-- The scanner reads a character. -/
  | character (c : Char) (mode : Scanner.Mode)
  /-- The character doubles a pending operator. -/
  | doubled (c : Char)
  /-- The scanner completes a token. -/
  | found (kind : Token.Kind) (text : Text)
  /-- A production is put on top of `depth` others. -/
  | pushed (depth : Nat) (label : Production.Label)
  /-- A production is taken off `depth` others. -/
  | popped (depth : Nat) (label : Production.Label)
  /-- A production remarks on its work, `depth` being the height of the stack. -/
  | remarked (depth : Nat) (label : Production.Label) (remark : Production.Remark)
  /-- The program has read its standard input. -/
  | readInput (count : Nat)
  /-- The program is about to read a script. -/
  | readScript (path : Text)

namespace Event

/-- The name of the channel that an event is logged on. -/
def channel : Event → String
  | character .. | doubled _ | found .. => "hedgehog_parse.tokenizer"
  | pushed .. | popped .. => "hedgehog_parse.parser"
  | remarked .. => "hedgehog_parse.handlers.base"
  | readInput _ | readScript _ => "hedgehog_parse.runner"

/-- A remark in words. -/
def remarkText : Production.Remark → Text
  | .continuation => "line continuation".toList
  | .consumed count => "consumed ".toList ++ Text.ofNat count ++ " tokens".toList
  | .opened quote => "opened with ".toList ++ quote.quoted

/-- The message of an event. -/
def message : Event → Text
  | character c mode =>
    "character ".toList ++ Text.quoted [c] ++ " in state ".toList ++ mode.name.toList
  | doubled c => "  second ".toList ++ Text.quoted [c] ++ " found".toList
  | found kind text =>
    "  + adding token ".toList ++ kind.name.toList ++ " (".toList ++ text.quoted ++ ")".toList
  | pushed depth label => Text.indent depth ++ "push ".toList ++ label.name.toList
  | popped depth label => Text.indent depth ++ "pop ".toList ++ label.name.toList
  | remarked depth label remark =>
    Text.indent depth ++ label.name.toList ++ ": ".toList ++ remarkText remark
  | readInput count =>
    "read ".toList ++ Text.ofNat count ++ " characters from stdin".toList
  | readScript path => "reading script ".toList ++ path

/-- An event as a line of the log, with its channel in front. -/
def line (e : Event) : Text :=
  e.channel.toList ++ ": ".toList ++ e.message ++ ['\n']

end Event

namespace Scanner

/-- Whether the character doubles the operator that the scanner holds. -/
def doubles (s : Scanner) (c : Char) : Bool :=
  (s.mode == .pipe && c == '|') || (s.mode == .ampersand && c == '&')

/-- The events of completed tokens. -/
def foundEvents (tokens : List Token) : List Event :=
  tokens.map fun t => .found t.kind t.text

/-- The events of reading one character. -/
def feedEvents (s : Scanner) (pos : Int) (c : Char) : List Event :=
  .character c s.mode :: (if s.doubles c then [.doubled c] else []) ++
    foundEvents (s.feed pos c).2

/-- The events of reading a text from `pos` on and ending it. -/
def scanEvents (s : Scanner) (pos : Int) : Text → List Event
  | [] => foundEvents (s.finish pos)
  | c :: rest => s.feedEvents pos c ++ (s.feed pos c).1.scanEvents (pos + 1) rest

end Scanner

/-- The events of scanning a command line. -/
def tokenizeEvents (line : Text) : List Event :=
  ({} : Scanner).scanEvents 0 line.core

end ShellReader
