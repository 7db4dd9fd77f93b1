import Mathlib
import ShellReader.Production.Build
import ShellReader.Production.Respond

/-!
# ShellReader — recursive descent

The grammar once more, as one function for each production. A function takes the
tokens that are left and the number of productions around it, and returns the
tree it has read and the tokens that are left then. There is no stack, nothing is
recorded before it is finished, and trees are put together as they are read.

A production is entered at a token `t` with the tokens `more` behind it, and
always reads `t`. So what is left is no longer than `more`, which every result
carries along (`Reading.short`) and which is why the functions end.

* `sequence` reads the items of a command line or of a substitution, by `items`,
  `chain` (the operators after a command) and `operand` (the command after an
  operator);
* `command` reads assignments and arguments, by `part` and `parts`;
* `assignment` reads a name and its value, `word` an argument or a value, by
  `piece` and `pieces`;
* `quoted` reads to the end of a quoted string and `substitution` to the
  parenthesis that closes `$(`;
* `parseTokens` reads a whole list and looks at its end.
-/

namespace ShellReader.Descent

open Production (startsAssignment atWordEnd startsEscape binary operatorKind)

-- ---------------------------------------------------------------------------
-- Results
-- ---------------------------------------------------------------------------

/-- A value that was read, and the tokens that are left. -/
structure Reading (α : Type) (bound : Nat) where
  value : α
  rest  : List Token
  short : rest.length ≤ bound

/-- The same reading, of a longer list. -/
def Reading.within {α : Type} {a b : Nat} (h : a ≤ b) (r : Reading α a) : Reading α b :=
  ⟨r.value, r.rest, Nat.le_trans r.short h⟩

@[simp] theorem Reading.within_value {α : Type} {a b : Nat} (h : a ≤ b) (r : Reading α a) :
    (r.within h).value = r.value := rfl

@[simp] theorem Reading.within_rest {α : Type} {a b : Nat} (h : a ≤ b) (r : Reading α a) :
    (r.within h).rest = r.rest := rfl

/-- What does not change while a list is read. -/
structure Context where
  /-- How many productions may be around one another. -/
  limit : Int
  /-- The last token of the list, at which a missing end shows. -/
  last  : Option Token

namespace Context

/-- The fault of reading on when no token is left. -/
def missingEnd (c : Context) : Fault := ⟨.missingEnd, c.last⟩

/-- Enters a production at the token `t`, inside `depth` others. -/
def enter (c : Context) (depth : Nat) (t : Token) : Except Fault Unit :=
  if c.limit ≤ depth then .error (.atToken t (.tooDeep c.limit)) else .ok ()

end Context

-- ---------------------------------------------------------------------------
-- Trees
-- ---------------------------------------------------------------------------

/-- The tree of a word: a single literal token by itself, or one child for each piece. -/
def wordTree (role : WordRole) (first : Tree) (others : List Tree) : Tree :=
  match first, others with
  | .leaf _ t _, [] => .leaf role.kind t none
  | first, others => .node role.kind first others none

/-- The tree of a quoted string. An empty one has one part without text. -/
def stringTree (opener : Token) : List Token → Tree
  | [] => .node .string (.leaf .stringPart ⟨opener.kind, [], opener.offset + 1⟩ none) []
      (some opener.text)
  | first :: others => .node .string (.leaf .stringPart first none)
      (others.map fun t => .leaf .stringPart t none) (some opener.text)

/-- The commands of an item so far. A pipe joins a command to the latest pipeline,
`&&` and `||` put what there is to the left of a new one. -/
structure Item where
  /-- What stands before the latest pipeline, and the kind that joins the two. -/
  left     : Option (Tree.Kind × Tree)
  /-- The latest pipeline. -/
  pipeline : Tree
  /-- The number of commands. -/
  operands : Nat

namespace Item

/-- An item of a single command. -/
def single (command : Tree) : Item := ⟨none, command, 1⟩

/-- The tree of an item. -/
def tree (i : Item) : Tree :=
  match i.left with
  | none => i.pipeline
  | some (kind, left) => binary kind left i.pipeline

/-- The item with one more command, behind the given operator. -/
def join (i : Item) (operator : Token.Kind) (command : Tree) : Item :=
  if operator = .pipe then
    { i with pipeline := binary .pipe i.pipeline command, operands := i.operands + 1 }
  else ⟨some (operatorKind operator, i.tree), command, i.operands + 1⟩

end Item

-- ---------------------------------------------------------------------------
-- Productions
-- ---------------------------------------------------------------------------

/-- Whether a substitution starts here: a `$` directly before a parenthesis. -/
def startsSubstitution (t : Token) (more : List Token) : Bool :=
  t.kind == .dollar && more.head?.map (·.kind) == some .leftParenthesis

/-- The tokens of a quoted string up to the quote that closes it. -/
def quoted (c : Context) (opener : Token) :
    (ts : List Token) → Except Fault (Reading (List Token) ts.length)
  | [] => .error c.missingEnd
  | t :: more =>
    if t.kind = .endOfInput then .error (.atToken t (.openString opener.text))
    else if t.kind = opener.kind then .ok ⟨[], more, by simp⟩
    else if opener.kind = .doubleQuote ∧ startsEscape t more then do
      let r ← quoted c opener (more.drop 1)
      return ⟨t :: more.take 1 ++ r.value, r.rest, by have := r.short; simp at this ⊢; omega⟩
    else do
      let r ← quoted c opener more
      return ⟨t :: r.value, r.rest, Nat.le_succ_of_le r.short⟩
termination_by ts => ts.length
decreasing_by all_goals simp; try omega

/-- The parenthesis that closes a substitution, its commands being read. -/
def closing (c : Context) {n : Nat} : Reading Tree n → Except Fault (Reading Tree n)
  | ⟨_, [], _⟩ => .error c.missingEnd
  | ⟨root, t :: rest, h⟩ =>
    if t.kind = .rightParenthesis then
      .ok ⟨.node .substitution root [] none, rest, Nat.le_of_succ_le h⟩
    else .error (.atToken t .unclosedSubstitution)

mutual

/-- One piece of a word: a quoted string, a substitution or a literal token. -/
def piece (c : Context) (role : WordRole) (depth : Nat) (t : Token) (more : List Token) :
    Except Fault (Reading Tree more.length) :=
  if t.kind.isQuote then do
    c.enter depth t
    let r ← quoted c t more
    return ⟨stringTree t r.value, r.rest, r.short⟩
  else if startsSubstitution t more then do
    let r ← substitution c depth t (more.drop 1)
    return r.within (by simp)
  else .ok ⟨.leaf role.partKind t none, more, Nat.le_refl _⟩
termination_by 8 * (more.length + 1) + 0
decreasing_by simp; omega

/-- A substitution, from behind its `$(` on. -/
def substitution (c : Context) (depth : Nat) (dollar : Token) (inside : List Token) :
    Except Fault (Reading Tree inside.length) := do
  c.enter depth dollar
  let r ← sequence c true (depth + 1) inside
  closing c r
termination_by 8 * inside.length + 7
decreasing_by omega

/-- The pieces of a word from here on. -/
def pieces (c : Context) (role : WordRole) (depth : Nat) (ts : List Token) :
    Except Fault (Reading (List Tree) ts.length) :=
  match ts with
  | [] => .error c.missingEnd
  | t :: more =>
    if atWordEnd t more then .ok ⟨[], t :: more, Nat.le_refl _⟩
    else do
      let first ← piece c role depth t more
      let others ← pieces c role depth first.rest
      return ⟨first.value :: others.value, others.rest,
        by have := first.short; have := others.short; simp; omega⟩
termination_by 8 * ts.length + 1
decreasing_by
  · simp
  · have := first.short
    simp
    omega

/-- An argument or a value. -/
def word (c : Context) (role : WordRole) (depth : Nat) (t : Token) (more : List Token) :
    Except Fault (Reading Tree more.length) := do
  c.enter depth t
  let first ← piece c role (depth + 1) t more
  let others ← pieces c role (depth + 1) first.rest
  return ⟨wordTree role first.value others.value, others.rest,
    Nat.le_trans others.short first.short⟩
termination_by 8 * (more.length + 1) + 1
decreasing_by
  · omega
  · have := first.short
    simp
    omega

/-- An assignment to `name`, from behind its `=` on. -/
def assignment (c : Context) (depth : Nat) (name : Token) (ts : List Token) :
    Except Fault (Reading Tree ts.length) :=
  match ts with
  | [] => do
    c.enter depth name
    .error c.missingEnd
  | t :: more => do
    c.enter depth name
    if atWordEnd t more then
      return ⟨.node .assignment (.leaf .lhs name none) [] none, t :: more, Nat.le_refl _⟩
    else
      let r ← word c .value (depth + 1) t more
      return ⟨.node .assignment (.leaf .lhs name none) [r.value] none, r.rest,
        Nat.le_succ_of_le r.short⟩
termination_by 8 * (ts.length + 1) + 1
decreasing_by simp

/-- One part of a command: an assignment or an argument. -/
def part (c : Context) (depth : Nat) (t : Token) (more : List Token) :
    Except Fault (Reading Tree more.length) :=
  if startsAssignment t more then do
    let r ← assignment c depth t (more.drop 1)
    return r.within (by simp)
  else word c .argument depth t more
termination_by 8 * (more.length + 1) + 2
decreasing_by
  · simp only [List.length_drop]
    omega
  · omega

/-- The parts of a command from here on. -/
def parts (c : Context) (depth : Nat) (ts : List Token) :
    Except Fault (Reading (List Tree) ts.length) :=
  match ts with
  | [] => .error c.missingEnd
  | t :: more =>
    if t.kind.endsCommand then .ok ⟨[], t :: more, Nat.le_refl _⟩
    else if t.kind = .space then do
      let r ← parts c depth more
      return r.within (by simp)
    else if Token.startsContinuation (t :: more) then do
      let r ← parts c depth (more.drop 1)
      return r.within (by simp; omega)
    else do
      let first ← part c depth t more
      let others ← parts c depth first.rest
      return ⟨first.value :: others.value, others.rest,
        by have := first.short; have := others.short; simp; omega⟩
termination_by 8 * ts.length + 3
decreasing_by
  · simp
  · simp only [List.length_drop, List.length_cons]
    omega
  · simp
  · have := first.short
    simp
    omega

/-- A command. -/
def command (c : Context) (depth : Nat) (t : Token) (more : List Token) :
    Except Fault (Reading Tree more.length) := do
  c.enter depth t
  let first ← part c (depth + 1) t more
  let others ← parts c (depth + 1) first.rest
  return ⟨.node .command first.value others.value none, others.rest,
    Nat.le_trans others.short first.short⟩
termination_by 8 * (more.length + 1) + 3
decreasing_by
  · omega
  · have := first.short
    simp
    omega

/-- The command behind an operator, perhaps on a later line. -/
def operand (c : Context) (nested : Bool) (depth : Nat) (operator : Token) (ts : List Token) :
    Except Fault (Reading Tree ts.length) :=
  match ts with
  | [] => .error c.missingEnd
  | t :: more =>
    if t.kind = .space then do
      let r ← operand c nested depth operator more
      return r.within (by simp)
    else if Token.startsContinuation (t :: more) then do
      let r ← operand c nested depth operator (more.drop 1)
      return r.within (by simp; omega)
    else if t.kind = .newline then do
      let r ← operand c nested depth operator more
      return r.within (by simp)
    else if t.kind = .semicolon then
      .error (.atToken t (.noCommandAfter operator.text))
    else if t.kind.isOperator then .error (.atToken t (.unexpected t.text))
    else if t.kind = .endOfInput then
      if nested then .error (.atToken t .openSubstitution)
      else .error (.atToken t (.noCommandAfter operator.text))
    else if t.kind = .rightParenthesis then
      if nested then .error (.atToken t (.noCommandAfter operator.text))
      else .error (.atToken t (.unexpected [')']))
    else do
      let r ← command c depth t more
      return r.within (by simp)
termination_by 8 * ts.length + 4
decreasing_by all_goals simp; try omega

/-- The operators and commands behind a command, up to the end of the item. -/
def chain (c : Context) (nested : Bool) (depth : Nat) (item : Item) (ts : List Token) :
    Except Fault (Reading Tree ts.length) :=
  match ts with
  | [] => .error c.missingEnd
  | t :: more =>
    if t.kind.isOperator then
      if c.limit ≤ item.operands then .error (.atToken t (.tooManyCommands c.limit))
      else do
        let next ← operand c nested depth t more
        let r ← chain c nested depth (item.join t.kind next.value) next.rest
        return r.within (Nat.le_succ_of_le next.short)
    else .ok ⟨item.tree, t :: more, Nat.le_refl _⟩
termination_by 8 * ts.length + 5
decreasing_by
  · simp only [List.length_cons]
    omega
  · have := next.short
    simp
    omega

/-- The items of a sequence from here on, behind those that are done. The outermost
sequence reads the end; a nested one stops before the parenthesis that closes it. -/
def items (c : Context) (nested : Bool) (depth : Nat) (done : List Tree) (ts : List Token) :
    Except Fault (Reading Tree ts.length) :=
  match ts with
  | [] => .error c.missingEnd
  | t :: more =>
    if t.kind = .space then do
      let r ← items c nested depth done more
      return r.within (by simp)
    else if Token.startsContinuation (t :: more) then do
      let r ← items c nested depth done (more.drop 1)
      return r.within (by simp; omega)
    else if t.kind.isSeparator then do
      let r ← items c nested depth done more
      return r.within (by simp)
    else if t.kind.isOperator then .error (.atToken t (.unexpected t.text))
    else if t.kind = .endOfInput then
      if nested then .error (.atToken t .openSubstitution)
      else match done with
        | [] => .error (.atToken t .noCommand)
        | first :: others => .ok ⟨.node .root first others none, more, by simp⟩
    else if t.kind = .rightParenthesis then
      if nested then match done with
        | [] => .error (.atToken t .noCommand)
        | first :: others => .ok ⟨.node .root first others none, t :: more, Nat.le_refl _⟩
      else .error (.atToken t (.unexpected [')']))
    else do
      let first ← command c depth t more
      let item ← chain c nested depth (.single first.value) first.rest
      let r ← items c nested depth (done ++ [item.value]) item.rest
      return r.within
        (Nat.le_succ_of_le (Nat.le_trans item.short first.short))
termination_by 8 * ts.length + 5
decreasing_by
  · simp
  · simp only [List.length_drop, List.length_cons]
    omega
  · simp
  · simp
  · have := first.short
    simp
    omega
  · have := Nat.le_trans item.short first.short
    simp
    omega

/-- A sequence: the outermost one, or the inside of a substitution. -/
def sequence (c : Context) (nested : Bool) (depth : Nat) (ts : List Token) :
    Except Fault (Reading Tree ts.length) :=
  match ts with
  | [] => .error c.missingEnd
  | t :: more => do
    c.enter depth t
    items c nested (depth + 1) [] (t :: more)
termination_by 8 * ts.length + 6
decreasing_by simp

end

-- ---------------------------------------------------------------------------
-- Whole lists
-- ---------------------------------------------------------------------------

/-- The tree of a token list whose sequence is read, if the sequence has read an end and
nothing is left behind it. -/
def checkEnd (tokens : List Token) {n : Nat} (r : Reading Tree n) : Except Fault Tree :=
  let last? := (tokens.take (tokens.length - r.rest.length)).getLast?
  if last?.map (·.kind) ≠ some .endOfInput then .error ⟨.missingEnd, last?⟩
  else match r.rest with
    | [] => .ok r.value
    | next :: _ => .error (.atToken next .afterEnd)

/-- The tree of a token list. -/
def parseTokens (tokens : List Token) (limit : Int) : Except Fault Tree := do
  let r ← sequence ⟨limit, tokens.getLast?⟩ false 0 tokens
  checkEnd tokens r

theorem checkEnd_eq_ok_iff {tokens : List Token} {n : Nat} {r : Reading Tree n} {tree : Tree} :
    checkEnd tokens r = .ok tree ↔
      r.rest = [] ∧ tokens.getLast?.map (·.kind) = some .endOfInput ∧ r.value = tree := by
  unfold checkEnd
  cases hRest : r.rest with
  | nil =>
    rw [List.length_nil, Nat.sub_zero, List.take_length]
    by_cases hEnd : tokens.getLast?.map (·.kind) = some .endOfInput
    · simp [hEnd]
    · simp [hEnd]
  | cons next more =>
    dsimp only
    split
    · simp
    · simp

/-- A list has a tree if its sequence is read to the end of the list, and an end is there. -/
theorem parseTokens_eq_ok_iff {tokens : List Token} {limit : Int} {tree : Tree} :
    parseTokens tokens limit = .ok tree ↔
      ∃ r, sequence ⟨limit, tokens.getLast?⟩ false 0 tokens = .ok r ∧ r.rest = [] ∧
        tokens.getLast?.map (·.kind) = some .endOfInput ∧ r.value = tree := by
  unfold parseTokens
  cases hSequence : sequence ⟨limit, tokens.getLast?⟩ false 0 tokens with
  | error fault => simp [bind, Except.bind]
  | ok r =>
    show checkEnd tokens r = .ok tree ↔ _
    simp [checkEnd_eq_ok_iff]

end ShellReader.Descent
