import ShellReader.Production.Basic

/-!
# ShellReader — the tree of a production

When a production is through, what it has collected becomes a tree. The trees of
the productions it refers to are supplied from outside, so that this module says
only how one production puts its parts together.

The commands of an item are joined in two rounds: first each pipeline, then the
`&&` and `||` over the pipelines, both from left to right. So `a && b | c` joins
`a` with the pipeline of `b` and `c`.
-/

namespace ShellReader.Production

/-- The elements at the even places of a list. -/
def everyOther {α : Type} : List α → List α
  | [] => []
  | [a] => [a]
  | a :: _ :: rest => a :: everyOther rest

/-- Two trees joined by an operator. -/
def binary (kind : Tree.Kind) (left right : Tree) : Tree :=
  .node kind (.node .lhs left [] none) [.node .rhs right [] none] none

/-- The kind of the tree that an operator makes. -/
def operatorKind : Token.Kind → Tree.Kind
  | .pipe => .pipe
  | .orIf => .orIf
  | _ => .andIf

/-- Joins a command with the commands piped after it, and so on after each `&&` or
`||`: the first pipeline, and the later ones with the operators before them. -/
def pipelines (label : ProductionId → Label) (first : Tree) :
    List (Part × Tree) → Except Failure (Tree × List (Tree.Kind × Tree))
  | [] => .ok (first, [])
  | (.child id, _) :: _ => .error (.commandForOperator (label id))
  | (.token t, operand) :: more =>
    if t.kind = .pipe then pipelines label (binary .pipe first operand) more
    else do
      let (next, later) ← pipelines label operand more
      return (first, (operatorKind t.kind, next) :: later)

/-- Joins commands by the operators between them. -/
def joinCommands (label : ProductionId → Label) (first : Tree) (more : List (Part × Tree)) :
    Except Failure Tree := do
  let (start, later) ← pipelines label first more
  return later.foldl (fun left (kind, right) => binary kind left right) start

/-- The tree of an item: its commands at the even places, its operators between them. -/
def buildItem (label : ProductionId → Label) (tree : ProductionId → Except Failure Tree)
    (item : List Part) : Except Failure Tree := do
  let commands ← (everyOther item).mapM fun
    | .child id => tree id
    | .token _ => throw .operatorForCommand
  match commands with
  | [] => throw (.noElement .outOfRange)
  | first :: more => joinCommands label first ((everyOther item.tail).zip more)

/-- A tree of the given children. -/
def buildNode (kind : Tree.Kind) (children : List Tree) (quote : Option Text) :
    Except Failure Tree :=
  (Tree.ofChildren? kind children quote).mapError .malformed

/-- The tree of a word: a single literal token by itself, or one child for each part. -/
def buildWord (tree : ProductionId → Except Failure Tree) (role : WordRole)
    (parts : List Part) : Except Failure Tree :=
  match parts with
  | [.token t] => .ok (.leaf role.kind t none)
  | parts => do
    let children ← parts.mapM fun
      | .token t => pure (.leaf role.partKind t none)
      | .child id => tree id
    buildNode role.kind children none

/-- The tree of a quotation; an empty string has one part without text, just
behind its opening quote. -/
def buildQuotation (opener : Token) (parts : List Token) : Except Failure Tree :=
  let tokens := if parts.isEmpty then [⟨opener.kind, [], opener.offset + 1⟩] else parts
  buildNode .string (tokens.map fun t => .leaf .stringPart t none) (some opener.text)

/-- The tree of a production, given the sorts and the trees of the others. -/
def build (label : ProductionId → Label) (tree : ProductionId → Except Failure Tree) :
    Production → Except Failure Tree
  | blank => throw .noRule
  | sequence _ items _ => do
    buildNode .root (← items.mapM (buildItem label tree)) none
  | command parts => do
    buildNode .command (← parts.mapM tree) none
  | assignment none _ => throw .notEntered
  | assignment (some name) none =>
    .ok (.node .assignment (.leaf .lhs name none) [] none)
  | assignment (some name) (some value) => do
    return .node .assignment (.leaf .lhs name none) [← tree value] none
  | word role parts => buildWord tree role parts
  | quotation none _ => throw .notEntered
  | quotation (some opener) parts => buildQuotation opener parts
  | substitution [] => throw (.noElement .outOfRange)
  | substitution (first :: _) => do
    return .node .substitution (← tree first) [] none

end ShellReader.Production
