import ShellReader.Text.Blank
import ShellReader.Token.Basic

/-!
# ShellReader — the scanner

The scanner turns text into tokens, one character at a time and without ever
failing. Between characters it is `idle`, inside one of the three kinds of
word, or holds a single `|` or `&` that the next character may double.

* A punctuation character is a token by itself and ends a pending word.
* A second `|` or `&` doubles a pending one; anything else lets the pending
  operator go and is read afresh.
* Any other character starts or extends a word. A word that starts with an
  ASCII digit is a number for as long as it holds nothing but ASCII digits.

`Scanner.feed` reads one character and returns the tokens it completes, their
offsets counted from the start of the text that is scanned. `tokenize` drops the
blanks around a command line, scans what is left and moves every offset back to
where its text stands in the line.
-/

namespace ShellReader

namespace Scanner

/-- What the scanner is in the middle of. -/
inductive Mode where
  | idle
  | word
  | numberedWord
  | number
  | pipe
  | ampersand
deriving DecidableEq

/-- The name of a mode in logs. -/
def Mode.name : Mode → String
  | idle         => "EMPTY"
  | word         => "WORD_STARTING_WITH_LETTER"
  | numberedWord => "WORD_STARTING_WITH_NUMBER"
  | number       => "NUMBER"
  | pipe         => "PIPE"
  | ampersand    => "AMPERSAND"

/-- The kind of the token that a mode completes, if it is in the middle of one. -/
def Mode.pending? : Mode → Option Token.Kind
  | idle         => none
  | word         => some .word
  | numberedWord => some .numberedWord
  | number       => some .number
  | pipe         => some .pipe
  | ampersand    => some .ampersand

/-- The kind of a one-character token. -/
def punctuation? (c : Char) : Option Token.Kind :=
  if c = ' ' then some .space
  else if c = '=' then some .equals
  else if c = '\x27' then some .singleQuote
  else if c = '\x60' then some .backtick
  else if c = '\x22' then some .doubleQuote
  else if c = '\n' then some .newline
  else if c = ';' then some .semicolon
  else if c = '\x5c' then some .backslash
  else if c = '$' then some .dollar
  else if c = '(' then some .leftParenthesis
  else if c = ')' then some .rightParenthesis
  else if c = '/' then some .slash
  else none

/-- The two characters that make operators. -/
def isOperatorChar (c : Char) : Bool :=
  c == '|' || c == '&'

/-- Whether a character cannot be part of a word. -/
def endsWord (c : Char) : Bool :=
  (punctuation? c).isSome || isOperatorChar c

end Scanner

/-- The scanner between two characters: its mode, the text of the token in the
making and where that token starts. -/
structure Scanner where
  mode  : Scanner.Mode := .idle
  word  : Text := []
  start : Int := 0
deriving DecidableEq

namespace Scanner

/-- The scanner with no token in the making. -/
def idle (s : Scanner) : Scanner :=
  { s with mode := .idle, word := [] }

/-- The token in the making, taken as complete. -/
def flush (s : Scanner) : List Token :=
  match s.mode.pending? with
  | some kind => [⟨kind, s.word, s.start⟩]
  | none => []

/-- Reads a character when no token is in the making. -/
def begin (s : Scanner) (pos : Int) (c : Char) : Scanner × List Token :=
  match punctuation? c with
  | some kind => (s, [⟨kind, [c], pos⟩])
  | none =>
    let mode : Mode :=
      if c = '|' then .pipe
      else if c = '&' then .ampersand
      else if Text.isAsciiDigit c then .number
      else .word
    (⟨mode, [c], pos⟩, [])

/-- Completes the token in the making, then reads the character afresh. -/
def restart (s : Scanner) (pos : Int) (c : Char) : Scanner × List Token :=
  let (next, found) := s.idle.begin pos c
  (next, s.flush ++ found)

/-- Completes a doubled operator. -/
def double (s : Scanner) (kind : Token.Kind) (c : Char) : Scanner × List Token :=
  (s.idle, [⟨kind, s.word ++ [c], s.start⟩])

/-- Reads the character at `pos`: the scanner after it and the tokens it completes. -/
def feed (s : Scanner) (pos : Int) (c : Char) : Scanner × List Token :=
  match s.mode with
  | .idle => s.begin pos c
  | .word | .numberedWord =>
    if endsWord c then s.restart pos c else ({ s with word := s.word ++ [c] }, [])
  | .number =>
    if endsWord c then s.restart pos c
    else
      let mode : Mode := if Text.isAsciiDigit c then .number else .numberedWord
      ({ s with mode := mode, word := s.word ++ [c] }, [])
  | .pipe => if c = '|' then s.double .orIf c else s.restart pos c
  | .ampersand => if c = '&' then s.double .andIf c else s.restart pos c

/-- The tokens that the end of the text completes, the end itself being at `pos`. -/
def finish (s : Scanner) (pos : Int) : List Token :=
  s.flush ++ [⟨.endOfInput, [], pos⟩]

/-- Reads a text from `pos` on: the scanner after it and the tokens completed on the way. -/
def feedAll (s : Scanner) (pos : Int) : Text → Scanner × List Token
  | [] => (s, [])
  | c :: rest =>
    let (next, found) := s.feed pos c
    let (last, more) := next.feedAll (pos + 1) rest
    (last, found ++ more)

/-- The tokens of a text, scanned to its end; offsets count from its start. -/
def scan (t : Text) : List Token :=
  let (last, found) := ({} : Scanner).feedAll 0 t
  found ++ last.finish t.length

end Scanner

/-- A command line without the spaces and newlines around it. -/
def Text.core (line : Text) : Text :=
  line.trim isOuterBlank

/-- The number of spaces and newlines in front of a command line. -/
def Text.lead (line : Text) : Nat :=
  (line.takeWhile isOuterBlank).length

/-- The tokens of a command line, closed by one `endOfInput`. -/
def tokenize (line : Text) : List Token :=
  (Scanner.scan line.core).map (·.shift line.lead)

end ShellReader
