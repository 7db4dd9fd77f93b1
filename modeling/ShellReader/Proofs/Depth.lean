import ShellReader.Proofs.Layout
import ShellReader.Proofs.Limit

/-!
# ShellReader — how much a tree has nested

Whether a limit is too small for a list of tokens can be told from the tree that the
list has under a limit that is not. Each production that was entered has left a tree:
the depth of the tree among those trees is the number of productions that were around it.
No production is entered for an operator or for one of its sides; one is entered for the
value of an assignment, though its tree is of the same kind as the right side of an
operator. The other number that a limit puts a bound on, that of the commands of an item, is
the number of commands that the operators of the item join.

* `Tree.demands` — these numbers, for the whole of a tree;
* `Tree.need` — the greatest of them;
* `Grammar.Affords` — a limit allows what a rule finds.

## Results

* `Grammar.Reads.affords` — a limit that allows a rule to read allows what it finds.
* `Grammar.Reads.relimit` — a limit that allows what a rule finds allows it to read.
* `parseTokens_need` — a list that has a tree under some limit has it under the limits that
  reach what the tree needs, and has too much nested under the others.
-/

namespace ShellReader

-- ---------------------------------------------------------------------------
-- Demands
-- ---------------------------------------------------------------------------

namespace Tree

/-- Whether a tree of this kind stands for a production of its own. Operators and their
sides do not, and a right-hand side does if it is the value of an assignment. -/
def Kind.opens (value : Bool) : Kind → Bool
  | root | command | argument | assignment | string | substitution => true
  | rhs => value
  | _ => false

mutual

/-- The number of commands that operators join in a tree. -/
def commands : Tree → Nat
  | leaf .. => 0
  | node kind first rest _ =>
    if kind = .command then 1 else first.commands + commandsAll rest

def commandsAll : List Tree → Nat
  | [] => 0
  | t :: rest => t.commands + commandsAll rest

end

mutual

/-- What a tree demands of the limit, with `above` productions around it: the depth of each
of its productions, and the number of commands of each item of its sequences. -/
def demands (value : Bool) (above : Nat) : Tree → List Nat
  | leaf kind _ _ => if kind.opens value then [above + 1] else []
  | node kind first rest _ =>
    let here := if kind.opens value then above + 1 else above
    (if kind.opens value then [here] else []) ++
      (if kind = .root then (first :: rest).map commands else []) ++
      (first.demands (kind = .assignment) here ++ demandsAll (kind = .assignment) here rest)

def demandsAll (value : Bool) (above : Nat) : List Tree → List Nat
  | [] => []
  | t :: rest => t.demands value above ++ demandsAll value above rest

end

/-- The least limit under which a tree can be read: the greatest of its demands. -/
def need (t : Tree) : Nat := (t.demands false 0).max?.getD 0

theorem demandsAll_eq_flatMap (value : Bool) (above : Nat) (ts : List Tree) :
    demandsAll value above ts = ts.flatMap (demands value above) := by
  induction ts with
  | nil => simp [demandsAll]
  | cons t rest ih => simp [demandsAll, ih]

mutual

theorem commands_bare : (t : Tree) → t.bare.commands = t.commands
  | leaf .. => by simp [bare, commands]
  | node kind first rest _ => by
    simp only [bare, commands, commands_bare first, commandsAll_bareAll rest]

theorem commandsAll_bareAll : (ts : List Tree) → commandsAll (bareAll ts) = commandsAll ts
  | [] => by simp [bareAll, commandsAll]
  | t :: rest => by
    simp only [bareAll, commandsAll, commands_bare t, commandsAll_bareAll rest]

end

mutual

theorem demands_bare (value : Bool) (above : Nat) :
    (t : Tree) → t.bare.demands value above = t.demands value above
  | leaf .. => by simp [bare, demands]
  | node kind first rest _ => by
    have hCommands : (first.bare :: bareAll rest).map commands = (first :: rest).map commands := by
      simp [commands_bare, Function.comp_def]
    simp only [bare, demands, demands_bare _ _ first, demandsAll_bareAll _ _ rest, hCommands]

theorem demandsAll_bareAll (value : Bool) (above : Nat) :
    (ts : List Tree) → demandsAll value above (bareAll ts) = demandsAll value above ts
  | [] => by simp [bareAll, demandsAll]
  | t :: rest => by
    simp only [bareAll, demandsAll, demands_bare _ _ t, demandsAll_bareAll _ _ rest]

end

end Tree

-- ---------------------------------------------------------------------------
-- Limits that allow a tree
-- ---------------------------------------------------------------------------

/-- The limit reaches each of the numbers. -/
def Allows (limit : Int) (ns : List Nat) : Prop := ∀ n ∈ ns, (n : Int) ≤ limit

section Allows

variable {limit : Int} {ns ms : List Nat}

@[simp] theorem allows_nil : Allows limit [] := by simp [Allows]

@[simp] theorem allows_cons {n : Nat} :
    Allows limit (n :: ns) ↔ (n : Int) ≤ limit ∧ Allows limit ns := by
  simp [Allows]

@[simp] theorem allows_append : Allows limit (ns ++ ms) ↔ Allows limit ns ∧ Allows limit ms := by
  simp [Allows, or_imp, forall_and]

theorem allows_flatMap {ts : List Tree} {f : Tree → List Nat} :
    Allows limit (ts.flatMap f) ↔ ∀ t ∈ ts, Allows limit (f t) := by
  simp only [Allows, List.mem_flatMap]
  grind

end Allows

namespace Tree

variable {limit : Int} {value : Bool} {above : Nat}

theorem need_bare (t : Tree) : t.bare.need = t.need := by
  rw [need, need, demands_bare]

/-- A limit reaches what a tree needs if it allows all that the tree demands. -/
theorem need_le_iff {t : Tree} :
    (t.need : Int) ≤ limit ↔ 0 ≤ limit ∧ Allows limit (t.demands false 0) := by
  unfold need Allows
  cases hMax : (t.demands false 0).max? with
  | none => simp [List.max?_eq_none_iff.1 hMax]
  | some n =>
    obtain ⟨hMem, hLe⟩ := List.max?_eq_some_iff.1 hMax
    rw [Option.getD_some]
    constructor
    · intro hLimit
      refine ⟨by omega, fun m hm => ?_⟩
      have := hLe m hm
      omega
    · intro hLimit
      exact hLimit.2 n hMem

theorem allows_map_commands {ts : List Tree} :
    Allows limit (ts.map commands) ↔ ∀ t ∈ ts, (t.commands : Int) ≤ limit := by
  simp [Allows]

@[simp] theorem allows_leaf {kind : Kind} {t : Token} {quote : Option Text} :
    Allows limit ((leaf kind t quote).demands value above) ↔
      (kind.opens value = true → above < limit) := by
  rw [demands]
  by_cases hOpens : kind.opens value = true
  · simp only [hOpens, if_true, allows_cons, allows_nil, and_true, forall_const]
    omega
  · simp [hOpens]

/-- A limit allows what a tree demands if it allows the production that the tree stands
for, the commands of its items and what its children demand. -/
theorem allows_node {kind : Kind} {first : Tree} {rest : List Tree} {quote : Option Text} :
    Allows limit ((node kind first rest quote).demands value above) ↔
      (kind.opens value = true → above < limit) ∧
      (kind = .root → ∀ t ∈ first :: rest, (t.commands : Int) ≤ limit) ∧
      ∀ t ∈ first :: rest, Allows limit (t.demands (kind = .assignment)
        (if kind.opens value then above + 1 else above)) := by
  have hHere : Allows limit (if kind.opens value then
      [if kind.opens value then above + 1 else above] else []) ↔
      (kind.opens value = true → above < limit) := by
    by_cases hOpens : kind.opens value = true
    · simp only [hOpens, if_true, allows_cons, allows_nil, and_true, forall_const]
      omega
    · simp [hOpens]
  have hItems : Allows limit (if kind = .root then (first :: rest).map commands else []) ↔
      (kind = .root → ∀ t ∈ first :: rest, (t.commands : Int) ≤ limit) := by
    by_cases hRoot : kind = .root
    · simp [hRoot, allows_map_commands]
    · simp [hRoot]
  rw [demands, allows_append, allows_append, hHere, hItems, allows_append,
    demandsAll_eq_flatMap, allows_flatMap]
  simp only [List.forall_mem_cons, and_assoc]

/-- Operators demand nothing of their own. -/
theorem allows_binary {kind : Kind} (hKind : kind = .pipe ∨ kind = .andIf ∨ kind = .orIf)
    (left right : Tree) :
    Allows limit ((Production.binary kind left right).demands false above) ↔
      Allows limit (left.demands false above) ∧ Allows limit (right.demands false above) := by
  rcases hKind with rfl | rfl | rfl <;> simp [Production.binary, allows_node, Kind.opens]

theorem commands_binary {kind : Kind} (hKind : kind = .pipe ∨ kind = .andIf ∨ kind = .orIf)
    (left right : Tree) :
    (Production.binary kind left right).commands = left.commands + right.commands := by
  rcases hKind with rfl | rfl | rfl <;> simp [Production.binary, commands, commandsAll]

/-- A string demands room for itself. -/
theorem allows_stringTree (opener : Token) (parts : List Token) :
    Allows limit ((Descent.stringTree opener parts).bare.demands false above) ↔
      above < limit := by
  rw [demands_bare]
  cases parts with
  | nil => simp [Descent.stringTree, allows_node, Kind.opens]
  | cons first others => simp [Descent.stringTree, allows_node, Kind.opens]

/-- A word demands room for itself, and what its pieces demand. -/
theorem allows_wordTree {role : WordRole} {first : Tree} {others : List Tree}
    (hFirst : ∀ kind t quote, first = .leaf kind t quote → kind.opens false = false) :
    Allows limit ((Descent.wordTree role first others).demands (role = .value) above) ↔
      above < limit ∧ ∀ t ∈ first :: others, Allows limit (t.demands false (above + 1)) := by
  have hNode : Allows limit ((node role.kind first others none).demands (role = .value) above) ↔
      above < limit ∧ ∀ t ∈ first :: others, Allows limit (t.demands false (above + 1)) := by
    cases role <;> simp [allows_node, Kind.opens, WordRole.kind]
  cases first with
  | node kind inner rest quote => exact hNode
  | leaf kind t quote =>
    cases others with
    | cons other others => exact hNode
    | nil =>
      have hOpens := hFirst kind t quote rfl
      cases role <;> simp [Descent.wordTree, hOpens, WordRole.kind] <;> simp [Kind.opens]

end Tree

namespace Grammar

open Descent (Item wordTree stringTree)

variable {limit limit' : Int} {rule : Rule} {depth : Nat} {ts rest : List Token}
  {ps : List Phrase}

/-- Another command adds what it demands to what an item demands. -/
theorem allows_join {item : Item} {operator : Token.Kind} {command : Tree} (h : Proper item)
    (hOperator : operator.isOperator = true) :
    Allows limit ((item.join operator command).tree.demands false depth) ↔
      Allows limit (item.tree.demands false depth) ∧
        Allows limit (command.demands false depth) := by
  obtain ⟨left, pipeline, operands⟩ := item
  rcases Descent.eq_of_isOperator hOperator with rfl | rfl | rfl
  · cases left with
    | none => exact Tree.allows_binary (.inl rfl) pipeline command
    | some l =>
      have hKind := h l.1 l.2 rfl
      simp only [Item.join, if_true, Item.tree, Tree.allows_binary (.inr hKind),
        Tree.allows_binary (.inl rfl), and_assoc]
  · exact Tree.allows_binary (.inr (.inl rfl)) _ command
  · exact Tree.allows_binary (.inr (.inr rfl)) _ command

theorem commands_join {item : Item} {operator : Token.Kind} {command : Tree} (h : Proper item)
    (hOperator : operator.isOperator = true) :
    (item.join operator command).tree.commands = item.tree.commands + command.commands := by
  obtain ⟨left, pipeline, operands⟩ := item
  rcases Descent.eq_of_isOperator hOperator with rfl | rfl | rfl
  · cases left with
    | none => exact Tree.commands_binary (.inl rfl) pipeline command
    | some l =>
      have hKind := h l.1 l.2 rfl
      simp only [Item.join, if_true, Item.tree, Tree.commands_binary (.inr hKind),
        Tree.commands_binary (.inl rfl), Nat.add_assoc]
  · exact Tree.commands_binary (.inr (.inl rfl)) _ command
  · exact Tree.commands_binary (.inr (.inr rfl)) _ command

theorem operands_join (item : Item) (operator : Token.Kind) (command : Tree) :
    (item.join operator command).operands = item.operands + 1 := by
  rw [Item.join]
  split <;> rfl

-- ---------------------------------------------------------------------------
-- Limits that allow what a rule finds
-- ---------------------------------------------------------------------------

/-- Whether what a rule finds is the value of an assignment. -/
def Rule.isValue : Rule → Bool
  | .word role => role = .value
  | _ => false

/-- Whether what a rule finds are items. -/
def Rule.isItem : Rule → Prop
  | .chain .. | .items _ => True
  | _ => False

/-- The limit allows what a rule finds. -/
def Affords (limit : Int) (rule : Rule) (depth : Nat) (ps : List Phrase) : Prop :=
  ∀ p ∈ ps, Allows limit (p.tree.demands rule.isValue depth) ∧
    (rule.isItem → (p.tree.commands : Int) ≤ limit)

/-- The commands of an item in the making are counted. -/
def Rule.Counted : Rule → Prop
  | .chain item _ => Proper item ∧ item.tree.commands = item.operands
  | _ => True

/-- The limit allows the item in the making. -/
def Rule.Allowed (limit : Int) (depth : Nat) : Rule → Prop
  | .chain item _ => Allows limit (item.tree.demands false depth) ∧ (item.operands : Int) ≤ limit
  | _ => True

/-- A piece of a word by itself is no production, unless it has pieces of its own. -/
theorem Reads.piece_leaf {role : WordRole} {p : Phrase}
    (h : Reads limit (.piece role) depth ts [p] rest) (kind : Tree.Kind) (t : Token)
    (quote : Option Text) (hLeaf : p.tree = .leaf kind t quote) : kind.opens false = false := by
  cases h with
  | literal =>
    obtain ⟨rfl, -⟩ := Tree.leaf.inj hLeaf
    cases role <;> rfl
  | @string _ _ t _ _ parts => cases parts <;> simp [stringTree, Tree.bare] at hLeaf
  | substitution => simp at hLeaf
  | skip hGap => cases hGap <;> simp_all

/-- What is read as a command is a single one, and there is room for it. -/
theorem Reads.single_command (h : Reads limit rule depth ts ps rest)
    (hRule : rule = .command ∨ rule = .operand) :
    ∀ p ∈ ps, p.tree.commands = 1 ∧ ¬ limit ≤ depth := by
  induction h with
  | command hRoom => simpa [Tree.commands] using hRoom
  | operand _ ih => exact ih (.inl rfl)
  | skip _ _ ih => exact ih hRule
  | _ => simp at hRule

section Affords

variable {p first : Phrase} {others : List Phrase} {tokens : List Token}

theorem affords_nil : Affords limit rule depth [] := by simp [Affords]

theorem affords_cons : Affords limit rule depth (p :: ps) ↔
    Affords limit rule depth [p] ∧ Affords limit rule depth ps := by
  simp [Affords]

/-- A command by itself is not counted. -/
theorem affords_single (hRule : rule = .command ∨ rule = .operand) :
    Affords limit rule depth [p] ↔ Allows limit (p.tree.demands false depth) := by
  rcases hRule with rfl | rfl <;> simp [Affords, Rule.isValue, Rule.isItem]

theorem affords_string {role : WordRole} {opener : Token} {parts : List Token} :
    Affords limit (.piece role) depth [⟨(stringTree opener parts).bare, tokens⟩] ↔
      ¬ limit ≤ depth := by
  simp [Affords, Rule.isValue, Rule.isItem, Tree.allows_stringTree]

theorem affords_substitution {role : WordRole} :
    Affords limit (.piece role) depth [⟨.node .substitution p.tree [] none, tokens⟩] ↔
      ¬ limit ≤ depth ∧ Affords limit (.sequence true) (depth + 1) [p] := by
  simp [Affords, Rule.isValue, Rule.isItem, Tree.allows_node, Tree.Kind.opens]

theorem affords_word {role : WordRole}
    (hFirst : ∀ kind t quote, first.tree = .leaf kind t quote → kind.opens false = false) :
    Affords limit (.word role) depth
        [⟨wordTree role first.tree (others.map (·.tree)), tokens⟩] ↔
      ¬ limit ≤ depth ∧ Affords limit (.pieces role) (depth + 1) (first :: others) := by
  simp [Affords, Rule.isValue, Rule.isItem, Tree.allows_wordTree hFirst]

theorem affords_assignmentEmpty {name : Token} :
    Affords limit .part depth [⟨.node .assignment (.leaf .lhs name none) [] none, tokens⟩] ↔
      ¬ limit ≤ depth := by
  simp [Affords, Rule.isValue, Rule.isItem, Tree.allows_node, Tree.Kind.opens]

theorem affords_assignment {name : Token} :
    Affords limit .part depth
        [⟨.node .assignment (.leaf .lhs name none) [p.tree] none, tokens⟩] ↔
      ¬ limit ≤ depth ∧ Affords limit (.word .value) (depth + 1) [p] := by
  simp [Affords, Rule.isValue, Rule.isItem, Tree.allows_node, Tree.Kind.opens]

theorem affords_command :
    Affords limit .command depth
        [⟨.node .command first.tree (others.map (·.tree)) none, tokens⟩] ↔
      ¬ limit ≤ depth ∧ Affords limit .parts (depth + 1) (first :: others) := by
  simp [Affords, Rule.isValue, Rule.isItem, Tree.allows_node, Tree.Kind.opens]

theorem affords_sequence {nested : Bool} :
    Affords limit (.sequence nested) depth
        [⟨.node .root first.tree (others.map (·.tree)) none, tokens⟩] ↔
      ¬ limit ≤ depth ∧ Affords limit (.items nested) (depth + 1) (first :: others) := by
  simp [Affords, Rule.isValue, Rule.isItem, Tree.allows_node, Tree.Kind.opens, forall_and]
  tauto

/-- What an item in the making demands is what its tree demands. -/
theorem affords_chain {item : Item} {us : List Token} (h : (Rule.chain item us).Counted) :
    Affords limit (.chain item us) depth [⟨item.tree, tokens⟩] ↔
      (Rule.chain item us).Allowed limit depth := by
  simp [Affords, Rule.isValue, Rule.isItem, Rule.Allowed, h.2]

theorem counted_single {tree : Tree} (h : tree.commands = 1) :
    (Rule.chain (.single tree) tokens).Counted :=
  ⟨proper_single tree, h⟩

theorem counted_join {item : Item} {operator : Token.Kind} {us : List Token}
    (h : (Rule.chain item us).Counted) (hOperator : operator.isOperator = true)
    (hNext : p.tree.commands = 1) : (Rule.chain (item.join operator p.tree) tokens).Counted := by
  refine ⟨h.1.join hOperator, ?_⟩
  rw [commands_join h.1 hOperator, operands_join, h.2, hNext]

/-- Another command is allowed if it is one that the limit does not yet rule out. -/
theorem allowed_join {item : Item} {operator : Token.Kind} {us : List Token}
    (h : (Rule.chain item us).Counted) (hOperator : operator.isOperator = true) :
    (Rule.chain (item.join operator p.tree) tokens).Allowed limit depth ↔
      ¬ limit ≤ item.operands ∧ (Rule.chain item us).Allowed limit depth ∧
        Affords limit .operand depth [p] := by
  have hCount : (((item.operands + 1 : Nat) : Int) ≤ limit) ↔
      ¬ limit ≤ item.operands ∧ (item.operands : Int) ≤ limit := by
    omega
  rw [Rule.Allowed, allows_join h.1 hOperator, operands_join, hCount,
    affords_single (.inr rfl), Rule.Allowed]
  tauto

end Affords

-- ---------------------------------------------------------------------------
-- Reading and finding
-- ---------------------------------------------------------------------------

/-- A limit that allows a rule to read allows what the rule finds. -/
theorem Reads.affords (h : Reads limit rule depth ts ps rest) (hCounted : rule.Counted)
    (hAllowed : rule.Allowed limit depth) : Affords limit rule depth ps := by
  induction h with
  | @literal role =>
    cases role <;>
      simp [Affords, Rule.isValue, Rule.isItem, Tree.Kind.opens, WordRole.partKind]
  | string _ hRoom _ => exact affords_string.2 hRoom
  | substitution _ _ hRoom _ _ ih =>
    exact affords_substitution.2 ⟨hRoom, ih trivial trivial⟩
  | piecesNil => exact affords_nil
  | piecesCons _ _ ihFirst ihOthers =>
    exact affords_cons.2 ⟨ihFirst trivial trivial, ihOthers trivial trivial⟩
  | word hRoom hFirst _ ihFirst ihOthers =>
    refine (affords_word hFirst.piece_leaf).2 ⟨hRoom, affords_cons.2 ?_⟩
    exact ⟨ihFirst trivial trivial, ihOthers trivial trivial⟩
  | assignmentEmpty _ hRoom _ => exact affords_assignmentEmpty.2 hRoom
  | assignment _ hRoom _ ih => exact affords_assignment.2 ⟨hRoom, ih trivial trivial⟩
  | argument _ _ ih => exact ih trivial trivial
  | skip _ _ ih => exact ih hCounted hAllowed
  | partsNil => exact affords_nil
  | partsCons _ _ ihFirst ihOthers =>
    exact affords_cons.2 ⟨ihFirst trivial trivial, ihOthers trivial trivial⟩
  | command hRoom _ _ ihFirst ihOthers =>
    refine affords_command.2 ⟨hRoom, affords_cons.2 ?_⟩
    exact ⟨ihFirst trivial trivial, ihOthers trivial trivial⟩
  | operand _ ih => exact ih trivial trivial
  | chainStop => exact (affords_chain hCounted).2 hAllowed
  | chainLink hOperator hCount hNext _ ihNext ihRest =>
    have hSingle := (hNext.single_command (.inr rfl) _ (List.mem_singleton_self _)).1
    have hNext := ihNext trivial trivial
    exact ihRest (counted_join hCounted hOperator hSingle)
      ((allowed_join hCounted hOperator).2 ⟨hCount, hAllowed, hNext⟩)
  | finish => exact affords_nil
  | close => exact affords_nil
  | item hFirst _ _ ihFirst ihChain ihOthers =>
    obtain ⟨hSingle, hRoom⟩ := hFirst.single_command (.inl rfl) _ (List.mem_singleton_self _)
    have hCommand := (affords_single (.inl rfl)).1 (ihFirst trivial trivial)
    have hItem := ihChain (counted_single hSingle) ⟨hCommand, by simp [Item.single]; omega⟩
    exact affords_cons.2 ⟨hItem, ihOthers trivial trivial⟩
  | sequence hRoom _ ih => exact affords_sequence.2 ⟨hRoom, ih trivial trivial⟩

/-- A limit that allows what a rule finds allows the rule to read. -/
theorem Reads.relimit (h : Reads limit rule depth ts ps rest) (hCounted : rule.Counted)
    (hAffords : Affords limit' rule depth ps) :
    Reads limit' rule depth ts ps rest ∧ rule.Allowed limit' depth := by
  induction h with
  | literal hOpen hQuote hStart => exact ⟨.literal hOpen hQuote hStart, trivial⟩
  | string hQuote _ hQuoted => exact ⟨.string hQuote (affords_string.1 hAffords) hQuoted, trivial⟩
  | substitution hDollar hParen _ _ hClose ih =>
    obtain ⟨hRoom, hRoot⟩ := affords_substitution.1 hAffords
    exact ⟨.substitution hDollar hParen hRoom (ih trivial hRoot).1 hClose, trivial⟩
  | piecesNil hEnd => exact ⟨.piecesNil hEnd, trivial⟩
  | piecesCons _ _ ihFirst ihOthers =>
    obtain ⟨hFirst, hOthers⟩ := affords_cons.1 hAffords
    exact ⟨.piecesCons (ihFirst trivial hFirst).1 (ihOthers trivial hOthers).1, trivial⟩
  | word _ hPiece _ ihFirst ihOthers =>
    obtain ⟨hRoom, hPieces⟩ := (affords_word hPiece.piece_leaf).1 hAffords
    obtain ⟨hFirst, hOthers⟩ := affords_cons.1 hPieces
    exact ⟨.word hRoom (ihFirst trivial hFirst).1 (ihOthers trivial hOthers).1, trivial⟩
  | assignmentEmpty hStart _ hEnd =>
    exact ⟨.assignmentEmpty hStart (affords_assignmentEmpty.1 hAffords) hEnd, trivial⟩
  | assignment hStart _ _ ih =>
    obtain ⟨hRoom, hValue⟩ := affords_assignment.1 hAffords
    exact ⟨.assignment hStart hRoom (ih trivial hValue).1, trivial⟩
  | argument hStart _ ih => exact ⟨.argument hStart (ih trivial hAffords).1, trivial⟩
  | skip hGap _ ih =>
    obtain ⟨hReads, hAllowed⟩ := ih hCounted hAffords
    exact ⟨.skip hGap hReads, hAllowed⟩
  | partsNil hEnds => exact ⟨.partsNil hEnds, trivial⟩
  | partsCons _ _ ihFirst ihOthers =>
    obtain ⟨hFirst, hOthers⟩ := affords_cons.1 hAffords
    exact ⟨.partsCons (ihFirst trivial hFirst).1 (ihOthers trivial hOthers).1, trivial⟩
  | command _ _ _ ihFirst ihOthers =>
    obtain ⟨hRoom, hParts⟩ := affords_command.1 hAffords
    obtain ⟨hFirst, hOthers⟩ := affords_cons.1 hParts
    exact ⟨.command hRoom (ihFirst trivial hFirst).1 (ihOthers trivial hOthers).1, trivial⟩
  | operand _ ih => exact ⟨.operand (ih trivial hAffords).1, trivial⟩
  | chainStop hStop => exact ⟨.chainStop hStop, (affords_chain hCounted).1 hAffords⟩
  | chainLink hOperator _ hNext _ ihNext ihRest =>
    have hSingle := (hNext.single_command (.inr rfl) _ (List.mem_singleton_self _)).1
    obtain ⟨hRest, hAllowed⟩ := ihRest (counted_join hCounted hOperator hSingle) hAffords
    obtain ⟨hCount, hItem, hOperand⟩ := (allowed_join hCounted hOperator).1 hAllowed
    exact ⟨.chainLink hOperator hCount (ihNext trivial hOperand).1 hRest, hItem⟩
  | finish hEnd => exact ⟨.finish hEnd, trivial⟩
  | close hClose => exact ⟨.close hClose, trivial⟩
  | item hFirst _ _ ihFirst ihChain ihOthers =>
    obtain ⟨hItem, hOthers⟩ := affords_cons.1 hAffords
    have hSingle := (hFirst.single_command (.inl rfl) _ (List.mem_singleton_self _)).1
    obtain ⟨hChain, hAllowed, -⟩ := ihChain (counted_single hSingle) hItem
    have hCommand := (affords_single (.inl rfl)).2 hAllowed
    exact ⟨.item (ihFirst trivial hCommand).1 hChain (ihOthers trivial hOthers).1, trivial⟩
  | sequence _ _ ih =>
    obtain ⟨hRoom, hItems⟩ := affords_sequence.1 hAffords
    exact ⟨.sequence hRoom (ih trivial hItems).1, trivial⟩

/-- What the outermost sequence demands is what its tree needs. -/
theorem Reads.affords_iff_need {p : Phrase} {nested : Bool}
    (h : Reads limit (.sequence nested) 0 ts [p] rest) :
    Affords limit' (.sequence nested) 0 [p] ↔ (p.tree.need : Int) ≤ limit' := by
  have hAllows : Affords limit' (.sequence nested) 0 [p] ↔
      Allows limit' (p.tree.demands false 0) := by
    simp [Affords, Rule.isValue, Rule.isItem]
  rw [Tree.need_le_iff, ← hAllows]
  refine ⟨fun hAffords => ⟨?_, hAffords⟩, fun hAffords => hAffords.2⟩
  cases h with
  | sequence => have hRoom := (affords_sequence.1 hAffords).1; omega
  | skip hGap => cases hGap <;> simp_all

end Grammar

-- ---------------------------------------------------------------------------
-- Token lists
-- ---------------------------------------------------------------------------

/-- **What a limit has to reach.** A token list that has a tree under some limit has it under
every limit that reaches what the tree needs, and has too much nested under the others. -/
theorem parseTokens_need {tokens : List Token} {enough : Int} {tree : Tree}
    (h : parseTokens tokens enough = .ok tree) (limit : Int) :
    ((tree.need : Int) ≤ limit → parseTokens tokens limit = .ok tree) ∧
      (limit < tree.need → ∃ fault, parseTokens tokens limit = .error (.fault fault) ∧
        fault.cause.category = .nestingTooDeep) := by
  obtain ⟨p, hReads, hTree⟩ := Grammar.reads_of_parseTokens h
  have hNeed : p.tree.need = tree.need := by rw [hTree, Tree.need_bare]
  rw [parseTokens_eq_ok_iff] at h
  constructor
  · intro hLimit
    obtain ⟨-, -, -, hEnd, -⟩ := Descent.parseTokens_eq_ok_iff.1 h
    have hAffords := hReads.affords_iff_need.2 (hNeed ▸ hLimit)
    obtain ⟨tree', hTree', -⟩ :=
      Grammar.parseTokens_of_reads (hReads.relimit trivial hAffords).1 hEnd
    rw [hTree', Descent.parseTokens_ok_unique h (parseTokens_eq_ok_iff.1 hTree')]
  · intro hLimit
    have hEnough := hReads.affords_iff_need.1 (hReads.affords trivial trivial)
    rcases Descent.parseTokens_cut tokens (show limit ≤ enough by omega) with
      ⟨fault, hFault, hDeep⟩ | hSame
    · exact ⟨fault, parseTokens_eq_error_iff.2 ⟨fault, hFault, rfl⟩, hDeep⟩
    · -- A tree under this limit would be the same one, which needs more.
      rw [h, ← parseTokens_eq_ok_iff] at hSame
      obtain ⟨q, hReads', hTree'⟩ := Grammar.reads_of_parseTokens hSame
      have hReach := hReads'.affords_iff_need.1 (hReads'.affords trivial trivial)
      rw [hTree', Tree.need_bare] at hReach
      omega

/-- A command in a substitution in the value of an assignment: eight productions around one
another, and no less of a limit will do. -/
theorem parseTokens_need_assignment :
    ∃ tree, tree.need = 8 ∧ parseTokens (tokenize "x=$(y)".toList) 8 = .ok tree ∧
      ∃ fault, parseTokens (tokenize "x=$(y)".toList) 7 = .error (.fault fault) ∧
        fault.cause.category = .nestingTooDeep := by
  let inner : Tree :=
    .node .root (.node .command (.leaf .argument ⟨.word, ['y'], 4⟩ none) [] none) [] none
  let value : Tree := .node .rhs (.node .substitution inner [] none) [] none
  let tree : Tree := .node .root (.node .command (.node .assignment
    (.leaf .lhs ⟨.word, ['x'], 0⟩ none) [value] none) [] none) [] none
  have hTree : parseTokens (tokenize "x=$(y)".toList) 100 = .ok tree := by cbv
  have hNeed : tree.need = 8 := by cbv
  exact ⟨tree, hNeed, (parseTokens_need hTree 8).1 (by rw [hNeed]; decide),
    (parseTokens_need hTree 7).2 (by rw [hNeed]; decide)⟩

-- No more than three productions are around one another, and four commands are joined.
example : (parse "a|b|c|d".toList 100).toOption.map Tree.need = some 4 := by cbv

end ShellReader
