import ShellReader.Index
import ShellReader.Text.Line
import ShellReader.Token.Scanner

/-!
# ShellReader — highlighting

A line that is being typed is coloured from its tokens alone, so that it need
not be complete or even correct. Each token belongs to a group, and each group
has a style. The painter goes through the tokens of a line once and keeps track
of the open quote, of how many `$(` are open and of whether a command's name or
an assignment's value may come next.

Every token is one fragment. The blanks around the line, which the scanner
drops, are fragments without a style, so the fragments of a line put together
are the line. `lineByOffsets` finds the same blanks in another way: it goes by
the offsets of the tokens and fills in whatever they leave out.

A document is shown line by line. A `Display` works out the fragments of a line
when the line is first asked for, and remembers them.
-/

namespace ShellReader.Highlight

/-- What a token is highlighted as. -/
inductive Group where
  | plain
  | command
  | string
  | number
  | variableName
  | substitution
  | operator
  | separator
  | escape
deriving DecidableEq

/-- The name of a group; text without highlighting has none. -/
def Group.name : Group → String
  | plain        => ""
  | command      => "command"
  | string       => "string"
  | number       => "number"
  | variableName => "variable"
  | substitution => "substitution"
  | operator     => "operator"
  | separator    => "separator"
  | escape       => "escape"

/-- The style of a group. -/
def Group.style : Group → String
  | plain        => ""
  | command      => "bold"
  | string       => "ansigreen"
  | number       => "ansimagenta"
  | variableName => "ansicyan"
  | substitution => "bold ansiyellow"
  | operator     => "bold ansiblue"
  | separator    => "ansigray"
  | escape       => "ansiyellow"

/-- A piece of a line and its style. -/
structure Fragment where
  style : String
  text  : Text
deriving DecidableEq

/-- A piece of a line without a style. -/
def Fragment.plain (text : Text) : Fragment := ⟨Group.plain.style, text⟩

-- ---------------------------------------------------------------------------
-- Groups
-- ---------------------------------------------------------------------------

/-- The group of a token that nothing around it decides. -/
def groupOfKind (k : Token.Kind) : Group :=
  match k with
  | .number => .number
  | .singleQuote | .doubleQuote => .string
  | .backslash => .escape
  | .equals | .ampersand | .pipe | .andIf | .orIf => .operator
  | .semicolon | .newline => .separator
  | .backtick => .substitution
  | _ => .plain

/-- The group of a token, given its neighbours, the open quote and whether a
command's name may stand here. -/
def groupOf (before : Option Token.Kind) (k : Token.Kind) (after : Option Token.Kind)
    (quote : Option Token.Kind) (atCommand : Bool) : Group :=
  if quote.isSome then .string
  else if k = .dollar then
    if after = some .leftParenthesis then .substitution else .variableName
  else if k = .leftParenthesis ∧ before = some .dollar then .substitution
  else if k = .word ∧ (before = some .dollar ∨ after = some .equals) then .variableName
  else if k = .word ∧ atCommand then .command
  else groupOfKind k

/-- The groups of the tokens after one of kind `before`, all under the same
open quote and all with or without a command's name expected. -/
def groupsAfter (before : Option Token.Kind) (quote : Option Token.Kind) (atCommand : Bool) :
    List Token → List Group
  | [] => []
  | t :: rest =>
    groupOf before t.kind (rest.head?.map (·.kind)) quote atCommand ::
      groupsAfter (some t.kind) quote atCommand rest

/-- The groups of all tokens of a list, as `groupsAfter`. -/
def groups (quote : Option Token.Kind) (atCommand : Bool) (tokens : List Token) : List Group :=
  groupsAfter none quote atCommand tokens

-- ---------------------------------------------------------------------------
-- The painter
-- ---------------------------------------------------------------------------

/-- What the painter knows between two tokens. -/
structure Painter where
  /-- The kind of the open quote. -/
  quote     : Option Token.Kind := none
  /-- The number of open substitutions. -/
  depth     : Nat := 0
  /-- Whether a command's name may come next. -/
  atCommand : Bool := true
  /-- Whether an assignment's value is being read. -/
  assigning : Bool := false
deriving DecidableEq

namespace Painter

/-- The group of the next token: a parenthesis that closes a substitution looks
like the one that opened it. -/
def group (p : Painter) (before : Option Token.Kind) (k : Token.Kind)
    (after : Option Token.Kind) : Group :=
  if p.quote = none ∧ k = .rightParenthesis ∧ 0 < p.depth then .substitution
  else groupOf before k after p.quote (p.atCommand && !p.assigning)

/-- The number of open substitutions after the next token, which is of group `g`. -/
def depthAfter (p : Painter) (k : Token.Kind) (g : Group) : Nat :=
  if p.quote.isSome then p.depth
  else if k = .rightParenthesis then p.depth - 1
  else if k = .leftParenthesis ∧ g = .substitution then p.depth + 1
  else p.depth

/-- The open quote after the next token. A quote behind a backslash does not close
a double-quoted string. -/
def quoteAfter (p : Painter) (before : Option Token.Kind) (k : Token.Kind) :
    Option Token.Kind :=
  match p.quote with
  | none => if k.isQuote then some k else none
  | some q =>
    let escaped := q = .doubleQuote ∧ before = some .backslash
    if k.isQuote ∧ k = q ∧ ¬ escaped then none else some q

/-- The painter after the next token, which is of group `g`. -/
def next (p : Painter) (before : Option Token.Kind) (k : Token.Kind)
    (after : Option Token.Kind) (g : Group) : Painter :=
  let moved := { p with quote := p.quoteAfter before k, depth := p.depthAfter k g }
  if moved.quote.isSome then moved
  else if k.isOperator || k.isSeparator || g == .substitution then
    { moved with atCommand := true, assigning := false }
  else if k = .space then { moved with assigning := false }
  else if p.atCommand ∧ g = .variableName ∧ after = some .equals then
    { moved with assigning := true }
  else if ¬ p.assigning ∧ k ≠ .equals then { moved with atCommand := false }
  else moved

/-- The fragments of the tokens after one of kind `before`. Tokens without text, the
end among them, have none. -/
def paint (p : Painter) (before : Option Token.Kind) : List Token → List Fragment
  | [] => []
  | t :: rest =>
    if t.kind = .endOfInput ∨ t.text = [] then p.paint (some t.kind) rest
    else
      let after := rest.head?.map (·.kind)
      let g := p.group before t.kind after
      ⟨g.style, t.text⟩ :: (p.next before t.kind after g).paint (some t.kind) rest

end Painter

-- ---------------------------------------------------------------------------
-- Lines
-- ---------------------------------------------------------------------------

/-- A fragment without a style, unless it would be empty. -/
def gap (text : Text) : List Fragment :=
  if text.isEmpty then [] else [.plain text]

/-- The fragments of a line. A line of blanks is one fragment, an empty line one
empty fragment. -/
def line (text : Text) : List Fragment :=
  match ({} : Painter).paint none (tokenize text) with
  | [] => [.plain text]
  | body => gap (text.take text.lead) ++ body ++ gap (text.drop (text.lead + text.core.length))

/-- The fragments of the line of a given number. A negative number counts from the
last line, and may miss the first; a number past the end is an empty line. -/
def lineAt (document : List Text) (number : Int) : Except Index.Miss (List Fragment) := do
  let place ← Index.resolve document.length number
  return (document[place]?.map line).getD [.plain []]

/-- The fragments of every line of a text. -/
def document (text : Text) : List (List Fragment) :=
  text.lines.map line

-- ---------------------------------------------------------------------------
-- Lines, told from offsets
-- ---------------------------------------------------------------------------

/-- What a text has between two offsets, as a fragment without a style, if it has anything
there. -/
def between (text : Text) (start stop : Int) : List Fragment :=
  if start < stop then [.plain ((text.drop start.toNat).take (stop - start).toNat)] else []

/-- The fragments of a text from the offset `start` on, given its tokens from there on: those
of the tokens, and one for each stretch of the text where there is none. -/
def Painter.paintFrom (p : Painter) (text : Text) (start : Int) (before : Option Token.Kind) :
    List Token → List Fragment
  | [] => between text start text.length
  | t :: rest =>
    if t.kind = .endOfInput ∨ t.text = [] then p.paintFrom text start (some t.kind) rest
    else
      let after := rest.head?.map (·.kind)
      let g := p.group before t.kind after
      between text start t.offset ++ ⟨g.style, t.text⟩ ::
        (p.next before t.kind after g).paintFrom text (t.offset + t.text.length) (some t.kind) rest

/-- The fragments of a line as the offsets of its tokens have it. -/
def lineByOffsets (text : Text) : List Fragment :=
  match ({} : Painter).paintFrom text 0 none (tokenize text) with
  | [] => [.plain text]
  | fragments => fragments

-- ---------------------------------------------------------------------------
-- Documents
-- ---------------------------------------------------------------------------

/-- A document whose lines are highlighted when they are asked for. -/
structure Display where
  lines : List Text
  /-- The numbers that have been asked for, with the fragments that were the answers. -/
  known : List (Int × List Fragment) := []

namespace Display

/-- A document that nothing has been asked of. -/
def ofText (text : Text) : Display := { lines := text.lines }

/-- The fragments of the line of a given number, worked out when they are not known yet, and
known from then on. A miss is not remembered. -/
def ask (d : Display) (number : Int) : Except Index.Miss (List Fragment) × Display :=
  match d.known.lookup number with
  | some fragments => (.ok fragments, d)
  | none =>
    match lineAt d.lines number with
    | .ok fragments => (.ok fragments, { d with known := (number, fragments) :: d.known })
    | .error miss => (.error miss, d)

/-- The answers for one number after the other. -/
def askAll (d : Display) : List Int → List (Except Index.Miss (List Fragment))
  | [] => []
  | number :: rest => (d.ask number).1 :: (d.ask number).2.askAll rest

end Display

end ShellReader.Highlight
