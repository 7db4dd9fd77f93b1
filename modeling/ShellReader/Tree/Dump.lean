import ShellReader.Tree.Basic

/-!
# ShellReader — dumps of a tree

Two ways to show a tree in full. `Tree.pretty` puts one tree on each line,
indented by its depth: the kind and, behind a tab, the quoted text of a terminal
one. `Tree.dump` is a single line in which each tree shows its kind and its token
or its children.
-/

namespace ShellReader.Tree

mutual

/-- The lines of a tree whose own line is `depth` levels in, `unit` for each level. -/
def prettyAt (unit : Text) (depth : Nat) : Tree → Text
  | leaf kind token _ =>
    Text.repeated depth unit ++ kind.name.toList ++ '\t' :: token.text.quoted ++ ['\n']
  | node kind first rest _ =>
    Text.repeated depth unit ++ kind.name.toList ++ '\n' ::
      (first.prettyAt unit (depth + 1) ++ prettyAllAt unit (depth + 1) rest)

/-- The lines of several trees at one depth. -/
def prettyAllAt (unit : Text) (depth : Nat) : List Tree → Text
  | [] => []
  | t :: rest => t.prettyAt unit depth ++ prettyAllAt unit depth rest

end

/-- The tree with one line for each of its members, `unit` for each level of depth. -/
def pretty (unit : Text) (t : Tree) : Text :=
  t.prettyAt unit 0

/-- The customary indentation of a pretty tree: two blanks. -/
def prettyUnit : Text := [' ', ' ']

/-- A kind as it is shown in a dump. -/
def Kind.dump (kind : Kind) : Text :=
  '\x27' :: kind.name.toList ++ ['\x27']

mutual

/-- The tree on a single line. -/
def dump : Tree → Text
  | leaf kind token _ =>
    "Leaf(".toList ++ kind.dump ++ ", ".toList ++ token.dump ++ ")".toList
  | node kind first rest _ =>
    "Leaf(".toList ++ kind.dump ++ ", [".toList ++ first.dump ++ dumpRest rest ++ "])".toList

/-- The trees after the first, each behind a comma. -/
def dumpRest : List Tree → Text
  | [] => []
  | t :: rest => ", ".toList ++ t.dump ++ dumpRest rest

end

end ShellReader.Tree
