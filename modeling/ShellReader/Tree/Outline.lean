import ShellReader.Tree.Basic

/-!
# ShellReader — outlines

An outline is what is left of a tree when all text is dropped: the kind of a
terminal tree by itself, the kind of any other over its child or its children.
It is written as an indented JSON document, an object with one key per tree.
-/

namespace ShellReader

/-- The kinds of a tree and how they nest. -/
inductive Outline where
  | label (kind : Tree.Kind)
  | single (kind : Tree.Kind) (child : Outline)
  | several (kind : Tree.Kind) (children : List Outline)

namespace Tree

mutual

/-- The outline of a tree. -/
def outline : Tree → Outline
  | leaf kind _ _ => .label kind
  | node kind first [] _ => .single kind first.outline
  | node kind first (second :: rest) _ =>
    .several kind (first.outline :: second.outline :: outlines rest)

/-- The outlines of several trees. -/
def outlines : List Tree → List Outline
  | [] => []
  | t :: rest => t.outline :: outlines rest

end

theorem outlines_eq_map (ts : List Tree) : outlines ts = ts.map outline := by
  induction ts with
  | nil => simp [outlines]
  | cons t rest ih => simp [outlines, ih]

end Tree

namespace Outline

mutual

/-- Whether two outlines agree. -/
def same : Outline → Outline → Bool
  | label k, label k' => k == k'
  | single k o, single k' o' => k == k' && o.same o'
  | several k os, several k' os' => k == k' && sameAll os os'
  | _, _ => false

/-- Whether two lists of outlines agree one by one. -/
def sameAll : List Outline → List Outline → Bool
  | [], [] => true
  | a :: as, b :: bs => a.same b && sameAll as bs
  | _, _ => false

end

/-- A kind's name as a JSON string; names hold nothing that would need an escape. -/
def key (kind : Tree.Kind) : Text :=
  '\x22' :: kind.name.toList ++ ['\x22']

/-- An object with one key, its closing brace `depth` levels in. -/
def object (depth : Nat) (kind : Tree.Kind) (value : Text) : Text :=
  "\x7b\n".toList ++ Text.indent (depth + 1) ++ key kind ++ ": ".toList ++ value ++
    '\n' :: Text.indent depth ++ "\x7d".toList

mutual

/-- The outline as JSON, for a value that starts `depth` levels in. -/
def render (depth : Nat) : Outline → Text
  | label kind => key kind
  | single kind child => object depth kind (child.render (depth + 1))
  | several kind children =>
    object depth kind <|
      "[\n".toList ++ renderAll (depth + 2) children ++
        '\n' :: Text.indent (depth + 1) ++ "]".toList

/-- The entries of an array, one to a line, `depth` levels in. -/
def renderAll (depth : Nat) : List Outline → Text
  | [] => []
  | [o] => Text.indent depth ++ o.render depth
  | o :: rest => Text.indent depth ++ o.render depth ++ ",\n".toList ++ renderAll depth rest

end

end Outline

end ShellReader
