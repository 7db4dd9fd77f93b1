import ShellReader.Machine.Run

/-!
# ShellReader — parsing

A command line is parsed by opening the outermost sequence on its tokens and
running the machine until it is through. The whole token list, its end token
included, must be read: a list that goes on after the end has no tree.

`parseTokens` and `parse` give the tree or the failure. `readTree` is the same
computation with its machine, for those who want the log as well.
-/

namespace ShellReader

namespace Machine

/-- Reads the whole token list as the outermost sequence. -/
def readTree : Step Tree := do
  let root ← spawn (.freshSequence false)
  run
  let m ← get
  match m.cursor.last? with
  | none => throw (.fault m.cursor.missingEnd)
  | some last =>
    if last.kind ≠ .endOfInput then throw (.fault m.cursor.missingEnd)
    match m.cursor.rest with
    | next :: _ => throw (.fault (.atToken next .afterEnd))
    | [] => MonadExcept.ofExcept (m.tree root)

end Machine

/-- The outcome of a computation without the machine. -/
def outcome {α : Type} : EStateM.Result Failure Machine α → Except Failure α
  | .ok a _ => .ok a
  | .error why _ => .error why

/-- The machine that a computation leaves behind. -/
def machineOf {α : Type} : EStateM.Result Failure Machine α → Machine
  | .ok _ m => m
  | .error _ m => m

/-- The tree of a token list, at most `limit` productions being open at once. -/
def parseTokens (tokens : List Token) (limit : Int) : Except Failure Tree :=
  outcome (Machine.readTree (.start tokens limit))

/-- The tree of a command line, at most `limit` productions being open at once. -/
def parse (line : Text) (limit : Int) : Except Failure Tree :=
  parseTokens (tokenize line) limit

/-- The events of parsing a token list, in order. -/
def parseEvents (tokens : List Token) (limit : Int) : List Event :=
  (machineOf (Machine.readTree (.start tokens limit))).log.reverse

end ShellReader
