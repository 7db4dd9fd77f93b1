import ShellReader.Proofs.Depth

/-!
# ShellReader — how high a tree can be

A tree grows in height in two ways. Each production that is open adds a level, and there are no
more of them than the limit allows. And the operators of an item put their operands into one
another: two levels for each, an operator and one of its sides, with fewer operators than the
limit allows commands. The operators count once for every sequence on the way down, and from one
sequence to the next it takes four productions.

So the room that is left, and how much of it is gone since the latest sequence, bound the height
of whatever can still be found (`ceiling`). One production deeper the room is less by one, the
distance from the sequence is greater by one, and the height may be less by one.

## Results

* `Tree.Way.length_le_height` — no way down a tree is longer than the tree is high.
* `Grammar.Reads.low` — what a rule finds is no higher than the room it has allows.
* `height_le_of_parseTokens` — the height of a tree that was read under a limit.
-/

namespace ShellReader

-- ---------------------------------------------------------------------------
-- Height
-- ---------------------------------------------------------------------------

namespace Tree

mutual

/-- The number of trees on the longest way from a tree down to a token. -/
def height : Tree → Nat
  | leaf .. => 1
  | node _ first rest _ => max first.height (heightAll rest) + 1

/-- The height of the highest of several trees. -/
def heightAll : List Tree → Nat
  | [] => 0
  | t :: rest => max t.height (heightAll rest)

end

/-- A way from a tree down to a token, each step to a child. -/
inductive Way : Tree → List Tree → Prop where
  | token (kind : Kind) (token : Token) (quote : Option Text) :
      Way (.leaf kind token quote) [.leaf kind token quote]
  | child {t child : Tree} {path : List Tree} (hChild : child ∈ t.children)
      (h : Way child path) : Way t (t :: path)

variable {n : Nat} {t : Tree}

theorem heightAll_le_iff {ts : List Tree} : heightAll ts ≤ n ↔ ∀ t ∈ ts, t.height ≤ n := by
  induction ts with
  | nil => simp [heightAll]
  | cons t rest ih => simp [heightAll, ih]

theorem height_leaf (kind : Kind) (token : Token) (quote : Option Text) :
    (leaf kind token quote).height = 1 := by
  rw [height]

/-- A tree is one level higher than its children. -/
theorem height_node_le_iff {kind : Kind} {first : Tree} {rest : List Tree} {quote : Option Text} :
    (node kind first rest quote).height ≤ n + 1 ↔ ∀ t ∈ first :: rest, t.height ≤ n := by
  rw [height, Nat.add_le_add_iff_right, Nat.max_le, heightAll_le_iff, List.forall_mem_cons]

theorem height_pos (t : Tree) : 0 < t.height := by
  cases t <;> simp [height]

theorem height_lt_node {kind : Kind} {first : Tree} {rest : List Tree} {quote : Option Text} :
    ∀ t ∈ first :: rest, t.height < (node kind first rest quote).height := by
  intro t ht
  have hNode : (node kind first rest quote).height ≤ max first.height (heightAll rest) + 1 := by
    rw [height]
  rw [height]
  exact Nat.lt_succ_of_le (height_node_le_iff.1 hNode t ht)

theorem height_lt_of_mem_children {child : Tree} (h : child ∈ t.children) :
    child.height < t.height := by
  cases t with
  | leaf => cases h
  | node => exact height_lt_node child h

/-- No way down a tree is longer than the tree is high. -/
theorem Way.length_le_height {path : List Tree} (h : Way t path) : path.length ≤ t.height := by
  induction h with
  | token => simp [height]
  | child hChild _ ih =>
    have hLess := height_lt_of_mem_children hChild
    rw [List.length_cons]
    omega

mutual

theorem height_bare : (t : Tree) → t.bare.height = t.height
  | leaf .. => by simp [bare, height]
  | node kind first rest _ => by
    simp only [bare, height, height_bare first, heightAll_bareAll rest]

theorem heightAll_bareAll : (ts : List Tree) → heightAll (bareAll ts) = heightAll ts
  | [] => by simp [bareAll, heightAll]
  | t :: rest => by
    simp only [bareAll, heightAll, height_bare t, heightAll_bareAll rest]

end

/-- A string is two levels high. -/
theorem height_stringTree (opener : Token) (parts : List Token) :
    (Descent.stringTree opener parts).height ≤ 2 := by
  cases parts <;> simp [Descent.stringTree, height_node_le_iff, height_leaf]

/-- A word is one level higher than its pieces, or a single one of them. -/
theorem height_wordTree {role : WordRole} {first : Tree} {others : List Tree}
    (h : ∀ t ∈ first :: others, t.height ≤ n) :
    (Descent.wordTree role first others).height ≤ n + 1 := by
  unfold Descent.wordTree
  split
  · rw [height_leaf]
    omega
  · exact height_node_le_iff.2 h

/-- An operator puts two levels above the higher of its operands. -/
theorem height_binary (kind : Kind) (left right : Tree) :
    (Production.binary kind left right).height = max left.height right.height + 2 := by
  simp [Production.binary, height, heightAll]

-- ---------------------------------------------------------------------------
-- Operators
-- ---------------------------------------------------------------------------

/-- Commands no higher than `n`, joined: there may be two levels above them for each of the
operators, of which there is one less than there are commands. -/
def Joined (n : Nat) (t : Tree) : Prop :=
  1 ≤ t.commands ∧ t.height + 2 ≤ n + 2 * t.commands

theorem joined_of_command (hCommands : t.commands = 1) (hHeight : t.height ≤ n) : Joined n t := by
  unfold Joined
  omega

theorem Joined.binary {kind : Kind} {left right : Tree}
    (hKind : kind = .pipe ∨ kind = .andIf ∨ kind = .orIf) (hLeft : Joined n left)
    (hRight : Joined n right) : Joined n (Production.binary kind left right) := by
  unfold Joined at *
  rw [height_binary, commands_binary hKind]
  omega

end Tree

namespace Grammar

open Descent (Item)

variable {limit : Int} {rule : Rule} {depth n : Nat} {ts rest : List Token}
  {ps : List Phrase}

/-- Whatever an item is made of is joined commands no higher than `n`. -/
def JoinedItem (n : Nat) (item : Item) : Prop :=
  Proper item ∧ (∀ left ∈ item.left, left.2.Joined n) ∧ item.pipeline.Joined n

theorem JoinedItem.single {command : Tree} (h : command.Joined n) :
    JoinedItem n (.single command) :=
  ⟨proper_single command, by rintro left ⟨⟩, h⟩

theorem JoinedItem.tree {item : Item} (h : JoinedItem n item) : item.tree.Joined n := by
  obtain ⟨left, pipeline, operands⟩ := item
  obtain ⟨hProper, hLeft, hPipeline⟩ := h
  cases left with
  | none => exact hPipeline
  | some left => exact .binary (.inr (hProper left.1 left.2 rfl)) (hLeft left rfl) hPipeline

theorem JoinedItem.join {item : Item} {operator : Token.Kind} {command : Tree}
    (h : JoinedItem n item) (hOperator : operator.isOperator = true)
    (hCommand : command.Joined n) : JoinedItem n (item.join operator command) := by
  refine ⟨h.1.join hOperator, ?_⟩
  unfold Item.join
  by_cases hPipe : operator = .pipe
  · rw [if_pos hPipe]
    exact ⟨h.2.1, .binary (.inl rfl) h.2.2 hCommand⟩
  · rw [if_neg hPipe]
    refine ⟨fun left hLeft => ?_, hCommand⟩
    obtain rfl := Option.some.inj hLeft
    exact h.tree

-- ---------------------------------------------------------------------------
-- Room
-- ---------------------------------------------------------------------------

/-- How high a tree can be under a limit, with `depth` productions around it. Each production in
the room that is left adds a level, and each sequence two for every operator of an item. With a
`slack` of three the next production may be a sequence; with less it takes one, two or three
productions more until there can be one again. -/
def ceiling (limit : Int) (depth slack : Nat) : Nat :=
  limit.toNat - depth + 1 + 2 * (limit.toNat - 1) * ((limit.toNat - depth + slack) / 4)

/-- A production takes a level and leaves less room. -/
theorem ceiling_succ {slack : Nat} (hRoom : ¬ limit ≤ depth) :
    ceiling limit depth slack = ceiling limit (depth + 1) (slack + 1) + 1 := by
  have hLess : limit.toNat - depth = limit.toNat - (depth + 1) + 1 := by omega
  have hQuarters : limit.toNat - depth + slack = limit.toNat - (depth + 1) + (slack + 1) := by
    omega
  unfold ceiling
  rw [hQuarters, hLess]
  omega

theorem ceiling_mono {slack slack' : Nat} (h : slack ≤ slack') :
    ceiling limit depth slack ≤ ceiling limit depth slack' := by
  unfold ceiling
  have hQuarters : (limit.toNat - depth + slack) / 4 ≤ (limit.toNat - depth + slack') / 4 :=
    Nat.div_le_div_right (by omega)
  exact Nat.add_le_add_left (Nat.mul_le_mul_left _ hQuarters) _

theorem ceiling_pos {slack : Nat} : 1 ≤ ceiling limit depth slack := by
  unfold ceiling
  omega

/-- The operators of an item, of which there are fewer than the limit allows commands. -/
theorem ceiling_operators :
    ceiling limit depth 4 = ceiling limit depth 0 + 2 * (limit.toNat - 1) := by
  unfold ceiling
  rw [Nat.add_zero (limit.toNat - depth), Nat.add_div_right _ (by decide), Nat.mul_succ,
    ← Nat.add_assoc]

/-- The slack that a rule has: none for a command, one more for each production from there down to
a sequence, and four for items, whose operators are still to be counted. -/
def Rule.slack : Rule → Nat
  | .piece _ | .pieces _ => 2
  | .word _ | .part | .parts => 1
  | .command | .operand | .chain .. => 0
  | .items _ => 4
  | .sequence _ => 3

/-- What a rule finds is no higher than the room allows. An item in the making is joined
commands that are not. -/
def Low (limit : Int) (depth : Nat) (rule : Rule) (p : Phrase) : Prop :=
  match rule with
  | .chain .. => p.tree.Joined (ceiling limit depth 0)
  | rule => p.tree.height ≤ ceiling limit depth rule.slack

/-- The item so far is joined commands that are not too high. -/
def Rule.Grown (limit : Int) (depth : Nat) : Rule → Prop
  | .chain item _ => JoinedItem (ceiling limit depth 0) item
  | _ => True

/-- A node over what is found one production deeper. -/
theorem height_node_le {kind : Tree.Kind} {first : Tree} {others : List Tree}
    {quote : Option Text} {slack : Nat} (hRoom : ¬ limit ≤ depth)
    (h : ∀ t ∈ first :: others, t.height ≤ ceiling limit (depth + 1) (slack + 1)) :
    (Tree.node kind first others quote).height ≤ ceiling limit depth slack := by
  rw [ceiling_succ hRoom]
  exact Tree.height_node_le_iff.2 h

/-- What is found by a rule for each of several phrases. -/
theorem forall_trees {first : Phrase} {others : List Phrase}
    (hFirst : ∀ p ∈ [first], p.tree.height ≤ n)
    (hOthers : ∀ p ∈ others, p.tree.height ≤ n) :
    ∀ t ∈ first.tree :: others.map (·.tree), t.height ≤ n := by
  rw [List.forall_mem_cons, List.forall_mem_map]
  exact ⟨hFirst first (List.mem_singleton_self first), hOthers⟩

/-- What a rule finds is no higher than the room it has allows. -/
theorem Reads.low (h : Reads limit rule depth ts ps rest) (hItem : rule.Grown limit depth) :
    ∀ p ∈ ps, Low limit depth rule p := by
  induction h with
  | literal =>
    rw [List.forall_mem_singleton]
    exact (Tree.height_leaf ..).trans_le ceiling_pos
  | @string _ depth opener _ _ parts _ _ hRoom =>
    rw [List.forall_mem_singleton]
    show (Tree.bare _).height ≤ ceiling limit depth 2
    rw [Tree.height_bare, ceiling_succ hRoom]
    exact (Tree.height_stringTree opener parts).trans (Nat.succ_le_succ ceiling_pos)
  | substitution _ _ hRoom _ _ ih =>
    rw [List.forall_mem_singleton]
    refine height_node_le hRoom ?_
    rw [List.forall_mem_singleton]
    exact ih trivial _ (List.mem_singleton_self _)
  | piecesNil => simp
  | piecesCons _ _ ihFirst ihOthers =>
    rw [List.forall_mem_cons]
    exact ⟨ihFirst trivial _ (List.mem_singleton_self _), ihOthers trivial⟩
  | @word _ depth _ _ _ first others hRoom _ _ ihFirst ihOthers =>
    rw [List.forall_mem_singleton]
    show (Descent.wordTree ..).height ≤ ceiling limit depth 1
    rw [ceiling_succ hRoom]
    exact Tree.height_wordTree (forall_trees (ihFirst trivial) (ihOthers trivial))
  | assignmentEmpty _ hRoom _ =>
    rw [List.forall_mem_singleton]
    refine height_node_le hRoom ?_
    rw [List.forall_mem_singleton, Tree.height_leaf]
    exact ceiling_pos
  | @assignment depth _ _ _ _ value _ hRoom _ ih =>
    rw [List.forall_mem_singleton]
    refine height_node_le hRoom ?_
    -- A value is a word like any other and has less slack than there is below an assignment.
    have hValue : value.tree.height ≤ ceiling limit (depth + 1) 1 :=
      ih trivial value (List.mem_singleton_self value)
    rw [List.forall_mem_cons, List.forall_mem_singleton, Tree.height_leaf]
    exact ⟨ceiling_pos, hValue.trans (ceiling_mono (by decide))⟩
  | argument _ _ ih => exact ih trivial
  | skip _ _ ih => exact ih hItem
  | partsNil => simp
  | partsCons _ _ ihFirst ihOthers =>
    rw [List.forall_mem_cons]
    exact ⟨ihFirst trivial _ (List.mem_singleton_self _), ihOthers trivial⟩
  | command hRoom _ _ ihFirst ihOthers =>
    rw [List.forall_mem_singleton]
    exact height_node_le hRoom (forall_trees (ihFirst trivial) (ihOthers trivial))
  | operand _ ih => exact ih trivial
  | chainStop =>
    rw [List.forall_mem_singleton]
    exact hItem.tree
  | chainLink hOperator _ hNext _ ihNext ihRest =>
    obtain ⟨hSingle, -⟩ := hNext.single_command (.inr rfl) _ (List.mem_singleton_self _)
    have hHeight := ihNext trivial _ (List.mem_singleton_self _)
    exact ihRest (hItem.join hOperator (Tree.joined_of_command hSingle hHeight))
  | finish => simp
  | close => simp
  | @item _ depth _ _ _ _ _ whole _ hFirst hChain hOthers ihFirst ihChain ihOthers =>
    rw [List.forall_mem_cons]
    refine ⟨?_, ihOthers trivial⟩
    obtain ⟨hSingle, -⟩ := hFirst.single_command (.inl rfl) _ (List.mem_singleton_self _)
    have hHeight := ihFirst trivial _ (List.mem_singleton_self _)
    obtain ⟨hSome, hWhole⟩ := ihChain (.single (Tree.joined_of_command hSingle hHeight)) whole
      (List.mem_singleton_self _)
    -- The limit allows the commands of the item.
    have hCommands := ((Reads.item hFirst hChain hOthers).affords trivial trivial whole
      (List.mem_cons_self ..)).2 trivial
    show whole.tree.height ≤ ceiling limit depth 4
    rw [ceiling_operators]
    omega
  | sequence hRoom _ ih =>
    rw [List.forall_mem_singleton]
    obtain ⟨hFirst, hOthers⟩ := List.forall_mem_cons.1 (ih trivial)
    exact height_node_le hRoom (forall_trees (List.forall_mem_singleton.2 hFirst) hOthers)

/-- There is room for a sequence that is read. -/
theorem Reads.sequence_room {nested : Bool} (h : Reads limit (.sequence nested) depth ts ps rest) :
    ¬ limit ≤ depth := by
  cases h with
  | sequence hRoom => exact hRoom
  | skip hGap => cases hGap <;> simp_all

end Grammar

-- ---------------------------------------------------------------------------
-- Token lists
-- ---------------------------------------------------------------------------

/-- How high a tree can be that is read under a limit: a level for each production and for a
token, and two for each operator. There may be one operator less than the limit in each sequence
on the way, and of these, four productions apart, a quarter of the limit, rounded up. -/
def heightLimit (limit : Int) : Int :=
  limit + 1 + 2 * (limit - 1) * ((limit + 3) / 4)

/-- The height of a tree that was read under a limit. -/
theorem height_le_of_parseTokens {tokens : List Token} {limit : Int} {tree : Tree}
    (h : parseTokens tokens limit = .ok tree) : (tree.height : Int) ≤ heightLimit limit := by
  obtain ⟨p, hReads, hTree⟩ := Grammar.reads_of_parseTokens h
  have hRoom := hReads.sequence_room
  have hLow := hReads.low trivial p (List.mem_singleton_self p)
  have hHeight : tree.height ≤ Grammar.ceiling limit 0 3 := by
    rw [← Tree.height_bare, ← hTree]
    exact hLow
  obtain ⟨n, rfl⟩ : ∃ n : Nat, limit = n + 1 := ⟨(limit - 1).toNat, by omega⟩
  have hCeiling : (Grammar.ceiling (n + 1) 0 3 : Int) = heightLimit (n + 1) := by
    unfold Grammar.ceiling heightLimit
    simp
  omega

end ShellReader
