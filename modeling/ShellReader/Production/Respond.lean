import ShellReader.Cursor
import ShellReader.Production.Basic

/-!
# ShellReader — how a production reads on

What a production does next is a pure function of its own state, of the tokens
that are left and of the limit on nesting: it fails, reads some tokens and
perhaps closes, or opens a production for what comes next. `Production.respond`
is the whole grammar; the machine only carries the responses out.

* A **sequence** skips blanks, ends an item at a separator, takes an operator
  after a command, and opens a command for anything else. A newline after an
  operator is skipped. The outermost sequence reads the end; a nested one leaves
  the closing parenthesis to the substitution around it.
* A **command** skips blanks and line continuations and opens an assignment or
  an argument for anything else, up to what ends a command.
* An **assignment** opens a word for its value, unless nothing is there to read.
* A **word** reads runs of literal tokens, and opens a quotation at a quote and
  a substitution at `$(`. A lone `$` is literal.
* A **quotation** reads to the quote that opened it. Between double quotes a
  backslash takes a following quote or backslash along.
* A **substitution** reads its closing parenthesis.
-/

namespace ShellReader

namespace Production

/-- What a production notes in the log about its own work. -/
inductive Remark where
  | continuation
  | consumed (count : Nat)
  | opened (quote : Text)
deriving DecidableEq

/-- What a production does next. -/
inductive Response where
  /-- It cannot go on. -/
  | fail (why : Failure)
  /-- It reads to the end of the list, and the list has no end token. -/
  | starve
  /-- It reads `count` tokens, becomes `next` and, if it is through, closes. -/
  | advance (count : Nat) (next : Production) (remark : Option Remark) (leave : Bool)
  /-- It opens another production and records it as its latest part. -/
  | spawn (child : Production)
deriving DecidableEq

namespace Response

/-- Fails with a cause that shows at the token `t`. -/
def faultAt (t : Token) (cause : Fault.Cause) : Response :=
  .fail (.fault (.atToken t cause))

/-- Reads `count` tokens and stays open. -/
def read (count : Nat) (next : Production) : Response :=
  .advance count next none false

/-- Reads `count` tokens and closes. -/
def leave (count : Nat) (next : Production) : Response :=
  .advance count next none true

end Response

/-- The production with another one recorded as its latest part. -/
def adopt (id : ProductionId) : Production → Production
  | sequence nested items current => sequence nested items (current ++ [.child id])
  | command parts => command (parts ++ [id])
  | assignment name _ => assignment name (some id)
  | word role parts => word role (parts ++ [.child id])
  | substitution parts => substitution (parts ++ [id])
  | blank => blank
  | quotation opener parts => quotation opener parts

-- ---------------------------------------------------------------------------
-- Sequences
-- ---------------------------------------------------------------------------

/-- The operator at the end of an item in the making, which still wants a command. -/
def awaiting? (current : List Part) : Option Token :=
  match current.getLast? with
  | some (.token t) => some t
  | _ => none

/-- The number of commands of an item in the making, each with the operator before it. -/
def operands (current : List Part) : Nat :=
  (current.length + 1) / 2

/-- The finished items once the item in the making is finished too; an empty one is dropped. -/
def finished (items : List (List Part)) (current : List Part) : List (List Part) :=
  if current.isEmpty then items else items ++ [current]

/-- Closes a sequence at the token `t` after reading `count` tokens. -/
def closeSequence (t : Token) (count : Nat) (nested : Bool) (items : List (List Part))
    (current : List Part) : Response :=
  match awaiting? current with
  | some operator => .faultAt t (.noCommandAfter operator.text)
  | none =>
    if (finished items current).isEmpty then .faultAt t .noCommand
    else .leave count (sequence nested (finished items current) [])

/-- How a sequence reads on at the token `t`. -/
def respondSequence (limit : Int) (t : Token) (rest : List Token) (nested : Bool)
    (items : List (List Part)) (current : List Part) : Response :=
  if t.kind = .space then .read 1 (sequence nested items current)
  else if Token.startsContinuation (t :: rest) then .read 2 (sequence nested items current)
  else if t.kind.isSeparator then
    match awaiting? current with
    | none => .read 1 (sequence nested (finished items current) [])
    | some operator =>
      if t.kind = .newline then .read 1 (sequence nested items current)
      else .faultAt t (.noCommandAfter operator.text)
  else if t.kind.isOperator then
    if current.isEmpty || (awaiting? current).isSome then .faultAt t (.unexpected t.text)
    else if limit ≤ operands current then .faultAt t (.tooManyCommands limit)
    else .read 1 (sequence nested items (current ++ [.token t]))
  else if t.kind = .endOfInput then
    if nested then .faultAt t .openSubstitution
    else closeSequence t 1 nested items current
  else if t.kind = .rightParenthesis then
    if nested then closeSequence t 0 nested items current
    else .faultAt t (.unexpected [')'])
  else .spawn (command [])

-- ---------------------------------------------------------------------------
-- Commands and assignments
-- ---------------------------------------------------------------------------

/-- Whether an assignment starts here: an identifier directly before an `=`. -/
def startsAssignment (t : Token) (rest : List Token) : Bool :=
  t.kind == .word && rest.head?.map (·.kind) == some .equals && t.text.isIdentifier

/-- How a command reads on at the token `t`. -/
def respondCommand (t : Token) (rest : List Token) (parts : List ProductionId) : Response :=
  if t.kind.endsCommand then .leave 0 (command parts)
  else if t.kind = .space then .read 1 (command parts)
  else if Token.startsContinuation (t :: rest) then
    .advance 2 (command parts) (some .continuation) false
  else if startsAssignment t rest then .spawn (assignment none none)
  else .spawn (word .argument [])

/-- Whether nothing of a word is left to read here. -/
def atWordEnd (t : Token) (rest : List Token) : Bool :=
  t.kind.endsArgument || Token.startsContinuation (t :: rest)

/-- How an assignment without a value reads on at the token `t`. -/
def respondAssignment (t : Token) (rest : List Token) (name : Option Token) : Response :=
  if atWordEnd t rest then .leave 0 (assignment name none)
  else .spawn (word .value [])

-- ---------------------------------------------------------------------------
-- Words
-- ---------------------------------------------------------------------------

/-- Whether a run of literal tokens stops before these. -/
def stopsLiteral : List Token → Bool
  | [] => true
  | t :: rest => t.kind.endsLiteral || Token.startsContinuation (t :: rest)

/-- How a word reads on at the token `t`. -/
def respondWord (t : Token) (rest : List Token) (role : WordRole) (parts : List Part) :
    Response :=
  if atWordEnd t rest then .leave 0 (word role parts)
  else if t.kind.isQuote then .spawn (quotation none [])
  else if t.kind = .dollar then
    if rest.head?.map (·.kind) = some .leftParenthesis then .spawn (substitution [])
    else .read 1 (word role (parts ++ [.token t]))
  else
    let run := Cursor.takeUntil stopsLiteral (t :: rest)
    if run.length = rest.length + 1 then .starve
    else .advance run.length (word role (parts ++ run.map .token))
      (some (.consumed run.length)) false

-- ---------------------------------------------------------------------------
-- Quotations and substitutions
-- ---------------------------------------------------------------------------

/-- Whether `t` and the token after it are an escape pair of a double-quoted string. -/
def startsEscape (t : Token) (rest : List Token) : Bool :=
  t.kind == .backslash &&
    (rest.head?.map (·.kind) == some .doubleQuote || rest.head?.map (·.kind) == some .backslash)

/-- How a quotation opened by `opener` reads on at the token `t`. -/
def respondQuotation (t : Token) (rest : List Token) (opener : Token) (parts : List Token) :
    Response :=
  if t.kind = .endOfInput then .faultAt t (.openString opener.text)
  else if t.kind = opener.kind then .leave 1 (quotation (some opener) parts)
  else if opener.kind = .doubleQuote ∧ startsEscape t rest then
    .read 2 (quotation (some opener) (parts ++ (t :: rest).take 2))
  else .read 1 (quotation (some opener) (parts ++ [t]))

/-- How a substitution reads on at the token `t`, its commands being read. -/
def respondSubstitution (t : Token) (parts : List ProductionId) : Response :=
  if t.kind = .rightParenthesis then .leave 1 (substitution parts)
  else .faultAt t .unclosedSubstitution

-- ---------------------------------------------------------------------------
-- All productions
-- ---------------------------------------------------------------------------

/-- How a production reads on when `t` and then `rest` are left. -/
def respondAt (limit : Int) (t : Token) (rest : List Token) : Production → Response
  | blank => .fail .noRule
  | sequence nested items current => respondSequence limit t rest nested items current
  | command parts => respondCommand t rest parts
  | assignment name (some value) => .leave 0 (assignment name (some value))
  | assignment name none => respondAssignment t rest name
  | word role parts => respondWord t rest role parts
  | quotation none _ => .fail .notEntered
  | quotation (some opener) parts => respondQuotation t rest opener parts
  | substitution parts => respondSubstitution t parts

/-- How a production reads on when no token is left. -/
def respondAtNothing : Production → Response
  | blank => .fail .noRule
  | assignment name (some value) => .leave 0 (assignment name (some value))
  | quotation none _ => .fail .notEntered
  | _ => .starve

/-- How a production reads on, given the tokens that are left. -/
def respond (limit : Int) (rest : List Token) (p : Production) : Response :=
  match rest with
  | [] => p.respondAtNothing
  | t :: more => p.respondAt limit t more

end Production

end ShellReader
