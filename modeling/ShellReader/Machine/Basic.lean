import ShellReader.Event
import ShellReader.Production.Build

/-!
# ShellReader — the machine

The machine reads tokens with a stack of productions: opening a production
enters a part of the grammar, closing it goes back to the one below. It holds a
cursor, a limit on the height of the stack, every production made so far (each
known by its number) and the log.

An operation may fail, and what it changed before it failed stays changed; so
operations are computations in `Step`, which keeps the machine of a failure. The
operations may be used in any order. In particular a production can be driven
while it is not on top of the stack, or not on it at all.
-/

namespace ShellReader

/-- Productions at work on a token list. -/
structure Machine where
  cursor      : Cursor
  /-- The greatest height the stack may have. -/
  limit       : Int
  /-- All productions made so far; a production's number is its place. -/
  productions : List Production := []
  /-- The numbers of the open productions, the top one first. -/
  stack       : List ProductionId := []
  /-- The log, its latest event first. -/
  log         : List Event := []

/-- A computation that drives a machine. A failure keeps what was done before it. -/
abbrev Step := EStateM Failure Machine

namespace Machine

/-- A machine at the start of a token list. -/
def start (tokens : List Token) (limit : Int) : Machine :=
  { cursor := .start tokens, limit := limit }

/-- The production of a given number. -/
def production (m : Machine) (id : ProductionId) : Production :=
  m.productions[id]?.getD .blank

/-- The sort of the production of a given number. -/
def label (m : Machine) (id : ProductionId) : Production.Label :=
  (m.production id).label

/-- The machine with one more event in its log. -/
def note (m : Machine) (e : Event) : Machine :=
  { m with log := e :: m.log }

/-- The machine with the production of the given number replaced. -/
def update (m : Machine) (id : ProductionId) (p : Production) : Machine :=
  { m with productions := m.productions.set id p }

/-- The machine with its cursor `n` tokens further on. -/
def skip (m : Machine) (n : Nat) : Machine :=
  { m with cursor := m.cursor.advance n }

/-- The machine with a production's remark, if it has one, in its log. -/
def remark (m : Machine) (id : ProductionId) : Option Production.Remark → Machine
  | none => m
  | some r => m.note (.remarked m.stack.length (m.label id) r)

-- ---------------------------------------------------------------------------
-- Reading tokens
-- ---------------------------------------------------------------------------

/-- The token at the cursor. -/
def current : Step Token := fun m =>
  match m.cursor.current with
  | .ok t => .ok t m
  | .error fault => .error (.fault fault) m

/-- Reads the token at the cursor. -/
def consume : Step Token := do
  let t ← current
  modify (·.skip 1)
  return t

/-- Reads the token at the cursor, which must be of the given kind. -/
def expect (kind : Token.Kind) : Step Token := do
  let t ← current
  if t.kind = kind then consume
  else throw (.fault (.atToken t (.mismatch kind t.kind)))

/-- Reads all tokens and fails because the list has no end. -/
def starve {α : Type} : Step α := fun m =>
  let drained := m.skip m.cursor.rest.length
  .error (.fault drained.cursor.missingEnd) drained

/-- Reads the tokens before the first place where `stop` holds of what is left. -/
def consumeUntil (stop : List Token → Bool) : Step (List Token) := do
  let rest := (← get).cursor.rest
  let run := Cursor.takeUntil stop rest
  if run.length = rest.length then starve
  else
    modify (·.skip run.length)
    return run

-- ---------------------------------------------------------------------------
-- The stack
-- ---------------------------------------------------------------------------

/-- Makes a production, on no stack yet. -/
def make (p : Production) : Step ProductionId := fun m =>
  .ok m.productions.length { m with productions := m.productions ++ [p] }

/-- Puts a production on top of the stack, if there is room. -/
def push (id : ProductionId) : Step Unit := do
  let m ← get
  if m.limit ≤ m.stack.length then
    let t ← current
    throw (.fault (.atToken t (.tooDeep m.limit)))
  else
    set <| { m with stack := id :: m.stack }.note (.pushed m.stack.length (m.label id))

/-- Takes a production off the stack, which must be the one on top. -/
def pop (id : ProductionId) : Step Unit := do
  let m ← get
  match m.stack with
  | [] => throw (.noElement .outOfRange)
  | top :: below =>
    if top = id then
      set <| { m with stack := below }.note (.popped below.length (m.label id))
    else throw (.notOnTop (m.label id) (m.label top))

/-- Makes a production and puts it on top of the stack. -/
def place (p : Production) : Step ProductionId := do
  let id ← make p
  push id
  return id

-- ---------------------------------------------------------------------------
-- Driving productions
-- ---------------------------------------------------------------------------

/-- Enters a production: an assignment reads its name and `=`, a quotation its
opening quote, a substitution its `$(`, after which it opens a sequence of its own. -/
def enter (id : ProductionId) : Step Unit := do
  match (← get).production id with
  | .assignment _ value =>
    let name ← expect .word
    modify (·.update id (.assignment (some name) value))
    let _ ← expect .equals
  | .quotation _ parts =>
    let opener ← consume
    modify fun m =>
      (m.update id (.quotation (some opener) parts)).remark id (some (.opened opener.text))
  | .substitution parts =>
    let _ ← expect .dollar
    let _ ← expect .leftParenthesis
    let inner ← place (.freshSequence true)
    modify (·.update id (.substitution (parts ++ [inner])))
  | _ => return

/-- Makes a production, puts it on top of the stack and enters it. -/
def spawn (p : Production) : Step ProductionId := do
  let id ← place p
  enter id
  return id

/-- Carries out what a production has decided to do. -/
def perform (id : ProductionId) (p : Production) : Production.Response → Step Unit
  | .fail why => throw why
  | .starve => starve
  | .advance count next comment leave => do
    modify fun m => ((m.skip count).update id next).remark id comment
    if leave then pop id else return
  | .spawn child => do
    let opened ← spawn child
    modify (·.update id (p.adopt opened))

/-- Lets a production read on. -/
def handle (id : ProductionId) : Step Unit := do
  let m ← get
  let p := m.production id
  perform id p (p.respond m.limit m.cursor.rest)

/-- Lets the production on top of the stack read on. -/
def handleTop : Step Unit := do
  match (← get).stack with
  | [] => throw (.noElement .outOfRange)
  | top :: _ => handle top

-- ---------------------------------------------------------------------------
-- Trees
-- ---------------------------------------------------------------------------

/-- The tree of a production, looking at most `fuel` productions deep. -/
def treeWithin (m : Machine) : (fuel : Nat) → ProductionId → Except Failure Tree
  | 0, _ => .error .noRule
  | fuel + 1, id => (m.production id).build m.label (m.treeWithin fuel)

/-- The tree of a production. A production is made before the ones it refers to,
so no chain of references is longer than the number of productions. -/
def tree (m : Machine) (id : ProductionId) : Except Failure Tree :=
  m.treeWithin (m.productions.length + 1) id

end Machine

end ShellReader
