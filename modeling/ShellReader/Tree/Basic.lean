import ShellReader.Token.Basic

/-!
# ShellReader — syntax trees

The tree of a command line. Every tree has a kind; a *terminal* one wraps a
single token, any other has one child or more. That a tree is never empty and
never both is part of the type, so the only place where it can go wrong is
`Tree.make?`, which takes the loose pieces.

Trees are compared by `Tree.same`, which looks at kinds, tokens, children and
quotes but not at token offsets.

## Results

* `Tree.children_eq_nil_iff` — exactly the terminal trees have no children.
* `Tree.same_refl` — a tree is the same as itself.
-/

namespace ShellReader

/-- What a tree stands for. -/
inductive Tree.Kind where
  | command
  | argument
  | argumentPart
  | string
  | stringPart
  | assignment
  | lhs
  | rhs
  | substitution
  | pipe
  | andIf
  | orIf
  | root
  | valuePart
deriving DecidableEq

namespace Tree.Kind

/-- Every kind, in the order of the declaration. -/
def all : List Kind :=
  [command, argument, argumentPart, string, stringPart, assignment, lhs, rhs,
   substitution, pipe, andIf, orIf, root, valuePart]

/-- The name of a kind in dumps and messages. -/
def name : Kind → String
  | command      => "command"
  | argument     => "argument"
  | argumentPart => "argument_part"
  | string       => "string"
  | stringPart   => "string_part"
  | assignment   => "env_var"
  | lhs          => "lhs"
  | rhs          => "rhs"
  | substitution => "command_substitution"
  | pipe         => "pipe"
  | andIf        => "and"
  | orIf         => "or"
  | root         => "root"
  | valuePart    => "value_part"

/-- The kind of a given name. -/
def ofName? (s : String) : Option Kind :=
  all.find? (·.name == s)

theorem mem_all (k : Kind) : k ∈ all := by
  cases k <;> decide

/-- Kinds have different names. -/
theorem name_injective {a b : Kind} (h : a.name = b.name) : a = b := by
  revert h
  cases a <;> cases b <;> decide

end Tree.Kind

/-- A tree: a token, or one child or more. The quote is the text around a string. -/
inductive Tree where
  | leaf (kind : Tree.Kind) (token : Token) (quote : Option Text)
  | node (kind : Tree.Kind) (first : Tree) (rest : List Tree) (quote : Option Text)

namespace Tree

/-- Why a tree could not be made, or had no text. -/
inductive Malformed where
  | tokenAndChildren (kind : Kind)
  | empty (kind : Kind)
  | notTerminal (kind : Kind)
deriving DecidableEq

/-- What is said about a malformed tree. -/
def Malformed.message : Malformed → Text
  | tokenAndChildren k =>
    k.name.toList ++ " leaf cannot hold both a token and children".toList
  | empty k => k.name.toList ++ " leaf needs a token or at least one child".toList
  | notTerminal k => k.name.toList ++ " leaf is not terminal".toList

-- ---------------------------------------------------------------------------
-- Parts of a tree
-- ---------------------------------------------------------------------------

def kind : Tree → Kind
  | leaf k _ _ => k
  | node k _ _ _ => k

def quote : Tree → Option Text
  | leaf _ _ q => q
  | node _ _ _ q => q

/-- The token of a terminal tree. -/
def token? : Tree → Option Token
  | leaf _ t _ => some t
  | node .. => none

/-- The children in order; a terminal tree has none. -/
def children : Tree → List Tree
  | leaf .. => []
  | node _ first rest _ => first :: rest

def isTerminal (t : Tree) : Bool :=
  t.token?.isSome

/-- The text of a terminal tree. -/
def text : Tree → Except Malformed Text
  | leaf _ t _ => .ok t.text
  | node k _ _ _ => .error (.notTerminal k)

/-- The first child of the given kind. -/
def child? (t : Tree) (k : Kind) : Option Tree :=
  t.children.find? (·.kind == k)

/-- Exactly the terminal trees have no children. -/
theorem children_eq_nil_iff {t : Tree} : t.children = [] ↔ t.isTerminal = true := by
  cases t <;> simp [children, isTerminal, token?]

-- ---------------------------------------------------------------------------
-- Making trees
-- ---------------------------------------------------------------------------

/-- A tree of the given children, of which there must be one. -/
def ofChildren? (kind : Kind) (children : List Tree) (quote : Option Text) :
    Except Malformed Tree :=
  match children with
  | [] => .error (.empty kind)
  | first :: rest => .ok (.node kind first rest quote)

/-- A tree from loose pieces: a token or children, and not both. -/
def make? (kind : Kind) (token : Option Token) (children : List Tree)
    (quote : Option Text) : Except Malformed Tree :=
  match token, children with
  | some t, [] => .ok (.leaf kind t quote)
  | some _, _ :: _ => .error (.tokenAndChildren kind)
  | none, cs => ofChildren? kind cs quote

-- ---------------------------------------------------------------------------
-- Traversal and comparison
-- ---------------------------------------------------------------------------

mutual

/-- The tree and all its descendants, each before its children. -/
def walk : Tree → List Tree
  | t@(leaf ..) => [t]
  | t@(node _ first rest _) => t :: (first.walk ++ walkAll rest)

/-- The trees of a list and all their descendants, in order. -/
def walkAll : List Tree → List Tree
  | [] => []
  | t :: rest => t.walk ++ walkAll rest

end

mutual

/-- Whether two trees agree in kinds, tokens, children and quotes, offsets aside. -/
def same : Tree → Tree → Bool
  | leaf k t q, leaf k' t' q' => k == k' && t.same t' && q == q'
  | node k first rest q, node k' first' rest' q' =>
    k == k' && first.same first' && sameAll rest rest' && q == q'
  | _, _ => false

/-- Whether two lists of trees agree one by one. -/
def sameAll : List Tree → List Tree → Bool
  | [], [] => true
  | a :: as, b :: bs => a.same b && sameAll as bs
  | _, _ => false

end

mutual

/-- A tree is the same as itself. -/
theorem same_refl : (t : Tree) → t.same t = true
  | leaf k t q => by simp [same, Token.same]
  | node k first rest q => by simp [same, same_refl first, sameAll_refl rest]

theorem sameAll_refl : (ts : List Tree) → sameAll ts ts = true
  | [] => by simp [sameAll]
  | t :: rest => by simp [sameAll, same_refl t, sameAll_refl rest]

end

end Tree

end ShellReader
