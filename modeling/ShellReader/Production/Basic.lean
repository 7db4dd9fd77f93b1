import ShellReader.Fault
import ShellReader.Index
import ShellReader.Tree.Basic

/-!
# ShellReader — productions

A production is one rule of the grammar in the middle of its work: what it has
collected so far and whether it has been entered. There is a sequence (of items
separated by `;` or newlines), a command, an assignment `NAME=value`, a word (an
argument, or the value of an assignment), a quotation and a substitution `$(…)`.
`blank` is a production without a rule.

Productions refer to one another by number, so that a parent can record a child
that is still at work. `Failure` gathers all that can go wrong when productions
are driven in any order: the faults of a command line, and the misuses that an
orderly parse never runs into.
-/

namespace ShellReader

/-- The number of a production among all that have been made. -/
abbrev ProductionId := Nat

/-- Something a production has collected: a token or another production. -/
inductive Part where
  | token (token : Token)
  | child (id : ProductionId)
deriving DecidableEq

/-- What a word is for. -/
inductive WordRole where
  | argument
  | value
deriving DecidableEq

/-- The kind of the tree that a word becomes. -/
def WordRole.kind : WordRole → Tree.Kind
  | argument => .argument
  | value    => .rhs

/-- The kind of the tree of a literal piece of a word. -/
def WordRole.partKind : WordRole → Tree.Kind
  | argument => .argumentPart
  | value    => .valuePart

/-- One rule of the grammar at work. -/
inductive Production where
  | blank
  /-- Finished items, and the commands and operators of the item in the making. -/
  | sequence (nested : Bool) (items : List (List Part)) (current : List Part)
  | command (parts : List ProductionId)
  | assignment (name : Option Token) (value : Option ProductionId)
  | word (role : WordRole) (parts : List Part)
  | quotation (opener : Option Token) (parts : List Token)
  | substitution (parts : List ProductionId)
deriving DecidableEq

namespace Production

/-- What sort of production, for logs and messages. -/
inductive Label where
  | blank
  | sequence
  | command
  | assignment
  | argument
  | value
  | quotation
  | substitution
deriving DecidableEq

/-- The name of a sort of production in logs and messages. -/
def Label.name : Label → String
  | blank        => "BaseHandler"
  | sequence     => "RootHandler"
  | command      => "CommandHandler"
  | assignment   => "EnvVarHandler"
  | argument     => "ArgumentHandler"
  | value        => "ValueHandler"
  | quotation    => "StringHandler"
  | substitution => "CommandSubstitutionHandler"

def label : Production → Label
  | blank            => .blank
  | sequence ..      => .sequence
  | command _        => .command
  | assignment ..    => .assignment
  | word .argument _ => .argument
  | word .value _    => .value
  | quotation ..     => .quotation
  | substitution _   => .substitution

/-- The number of parts collected in order; a sequence sorts its own into items
and an assignment has a name and a value instead. -/
def partCount : Production → Nat
  | blank | sequence .. | assignment .. => 0
  | command parts | substitution parts => parts.length
  | word _ parts => parts.length
  | quotation _ parts => parts.length

/-- A sequence that has read nothing yet. -/
def freshSequence (nested : Bool) : Production := sequence nested [] []

end Production

/-- Why a step of the machine did not succeed. -/
inductive Failure where
  /-- The command line is at fault. -/
  | fault (fault : Fault)
  /-- A tree was called for that cannot be made. -/
  | malformed (why : Tree.Malformed)
  /-- A production was closed while another was on top of the stack. -/
  | notOnTop (closing top : Production.Label)
  /-- A list was read where it has no element. -/
  | noElement (why : Index.Miss)
  /-- A production was used before it was entered. -/
  | notEntered
  /-- A production without a rule was asked to work. -/
  | noRule
  /-- An item has an operator where a command belongs. -/
  | operatorForCommand
  /-- An item has a production where an operator belongs. -/
  | commandForOperator (found : Production.Label)
deriving DecidableEq

namespace Failure

/-- What is said about a failure. -/
def message : Failure → Text
  | fault f => f.report.message
  | malformed why => why.message
  | notOnTop closing top =>
    closing.name.toList ++ " popped while ".toList ++ top.name.toList ++ " was on top".toList
  | noElement why => why.message.toList
  | notEntered | noRule => []
  | operatorForCommand => "'Tok' object has no attribute 'build_leaves'".toList
  | commandForOperator found =>
    "'".toList ++ found.name.toList ++ "' object has no attribute 'type'".toList

end Failure

end ShellReader
