import ShellReader.Text.DecimalDigit
import ShellReader.Text.Quoted

/-!
# ShellReader — tokens

A token is a kind, the text it was read from and the offset of that text in the
command line. Kinds fall into three groups: one-character punctuation, words
(told apart by their first character and by whether they are all digits) and
the operators, of which the doubled ones join commands. `endOfInput` closes
every scanned token list.

Two tokens are *alike* (`Token.same`) when kind and text agree; offsets say
where a token came from, not what it is. Texts and offsets of hand-made tokens
are arbitrary: nothing here assumes that a token's text fits its kind.
-/

namespace ShellReader

/-- What a token is. -/
inductive Token.Kind where
  | space
  | equals
  | singleQuote
  | backtick
  | doubleQuote
  | newline
  | semicolon
  | backslash
  | dollar
  | leftParenthesis
  | rightParenthesis
  | slash
  | word
  | numberedWord
  | number
  | pipe
  | andIf
  | orIf
  | ampersand
  | endOfInput
deriving DecidableEq

/-- A token with the offset of its text in the command line. -/
structure Token where
  kind   : Token.Kind
  text   : Text
  offset : Int
deriving DecidableEq

namespace Token.Kind

/-- Every kind, in the order of the declaration. -/
def all : List Kind :=
  [space, equals, singleQuote, backtick, doubleQuote, newline, semicolon,
   backslash, dollar, leftParenthesis, rightParenthesis, slash, word,
   numberedWord, number, pipe, andIf, orIf, ampersand, endOfInput]

/-- The name of a kind in dumps, messages and logs. -/
def name : Kind → String
  | space            => "SPACE"
  | equals           => "EQUALS"
  | singleQuote      => "SINGLE_QUOTE"
  | backtick         => "BACKTICK"
  | doubleQuote      => "DOUBLE_QUOTE"
  | newline          => "NEWLINE"
  | semicolon        => "SEMICOLON"
  | backslash        => "BACKSLASH"
  | dollar           => "DOLLAR"
  | leftParenthesis  => "LEFT_PARENTHESIS"
  | rightParenthesis => "RIGHT_PARENTHESIS"
  | slash            => "FORWARD_SLASH"
  | word             => "WORD_STARTING_WITH_LETTER"
  | numberedWord     => "WORD_STARTING_WITH_NUMBER"
  | number           => "NUMBER"
  | pipe             => "PIPE"
  | andIf            => "AND"
  | orIf             => "OR"
  | ampersand        => "AMPERSAND"
  | endOfInput       => "END"

/-- The kind of a given name. -/
def ofName? (s : String) : Option Kind :=
  all.find? (·.name == s)

theorem mem_all (k : Kind) : k ∈ all := by
  cases k <;> decide

/-- Opens and closes a quoted string. -/
def isQuote : Kind → Bool
  | singleQuote | doubleQuote => true
  | _ => false

/-- Joins two commands. -/
def isOperator : Kind → Bool
  | pipe | andIf | orIf => true
  | _ => false

/-- Ends an item of a sequence. -/
def isSeparator : Kind → Bool
  | semicolon | newline => true
  | _ => false

/-- Ends a command; left for the sequence around it. -/
def endsCommand (k : Kind) : Bool :=
  k == endOfInput || k == rightParenthesis || k.isSeparator || k.isOperator

/-- Ends an argument or a value; left for the command around it. -/
def endsArgument (k : Kind) : Bool :=
  k == space || k.endsCommand

/-- Ends a run of literal tokens inside an argument. -/
def endsLiteral (k : Kind) : Bool :=
  k.endsArgument || k.isQuote || k == dollar

end Token.Kind

namespace Token

/-- Whether two tokens are alike: the same kind and text, wherever they stand. -/
def same (a b : Token) : Bool :=
  a.kind == b.kind && a.text == b.text

/-- The token `n` characters further on. -/
def shift (n : Int) (t : Token) : Token :=
  { t with offset := n + t.offset }

/-- The token as it is shown in dumps: kind and quoted text, no offset. -/
def dump (t : Token) : Text :=
  "Tok(".toList ++ t.kind.name.toList ++ ", ".toList ++ t.text.quoted ++ ")".toList

theorem same_iff {a b : Token} : a.same b = true ↔ a.kind = b.kind ∧ a.text = b.text := by
  simp [same]

@[simp] theorem shift_kind (n : Int) (t : Token) : (t.shift n).kind = t.kind := rfl
@[simp] theorem shift_text (n : Int) (t : Token) : (t.shift n).text = t.text := rfl

/-- Whether the tokens begin with a line continuation: a backslash, then a newline. -/
def startsContinuation : List Token → Bool
  | a :: b :: _ => a.kind == .backslash && b.kind == .newline
  | _ => false

end Token

/-- Whether a text is an identifier: a letter or underscore of ASCII, then
letters, digits and underscores. -/
def Text.isIdentifier : Text → Bool
  | [] => false
  | c :: rest =>
    (isAsciiLetter c || c == '_') &&
      rest.all fun d => isAsciiLetter d || isAsciiDigit d || d == '_'

end ShellReader
