import ShellReader.Tree.Basic

/-!
# ShellReader — a tree as a command line

`Tree.source` writes the command line that a tree stands for, in one canonical
layout: a single blank between the words of a command, `; ` between the items
of a sequence, one blank on each side of an operator, and nothing else that the
tokens themselves do not bring along.
-/

namespace ShellReader.Tree

/-- What stands between the operands of a binary operator. -/
def Kind.joiner : Kind → Text
  | .pipe  => [' ', '|', ' ']
  | .andIf => [' ', '&', '&', ' ']
  | .orIf  => [' ', '|', '|', ' ']
  | _      => []

/-- The written form of a tree, from its kind, its quote and its children's written forms. -/
def written (kind : Kind) (quote : Option Text) (parts : List Text) : Text :=
  match kind with
  | .command => List.intercalate [' '] parts
  | .root => List.intercalate [';', ' '] parts
  | .string => quote.getD [] ++ parts.flatten ++ quote.getD []
  | .substitution => '$' :: '(' :: parts.flatten ++ [')']
  | .assignment =>
    match parts with
    | [name] => name ++ ['=']
    | parts => List.intercalate ['='] parts
  | .pipe | .andIf | .orIf => List.intercalate kind.joiner parts
  | _ => parts.flatten

mutual

/-- The command line that the tree stands for. -/
def source : Tree → Text
  | leaf _ token _ => token.text
  | node kind first rest quote => written kind quote (first.source :: sources rest)

/-- The written forms of several trees. -/
def sources : List Tree → List Text
  | [] => []
  | t :: rest => t.source :: sources rest

end

theorem sources_eq_map (ts : List Tree) : sources ts = ts.map source := by
  induction ts with
  | nil => simp [sources]
  | cons t rest ih => simp [sources, ih]

end ShellReader.Tree
