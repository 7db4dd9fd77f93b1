import ShellReader.Proofs.Refinement

/-!
# ShellReader — precedence of operators

The commands of an item are joined by operators into one tree. Many trees have the same
commands and operators in the same order; the one that is built is told by two rules. A pipe
binds tighter than `&&` and `||`, so neither of these is inside a pipe. And operators of the
same rank go together from the left: on the right of a pipe there is a single command, on the
right of `&&` or `||` a single pipeline.

* `Tree.Row` — the commands and operators of a tree, from left to right;
* `Tree.Within` — what a tree is joined from, down to its commands;
* `Tree.Ranked` — the two rules, as conditions on what a tree is joined from;
* `Tree.Layered` — the same trees, put together from below.

## Results

* `Tree.ranked_iff_layered` — the rules admit what can be put together from below.
* `Tree.layered_item`, `Tree.Layered.eq_item` — joining one command after the other gives a
  layered tree, and the only one.
* `Machine.buildItem_ranked` — the tree of an item follows the rules, and no other tree does.
-/

namespace ShellReader

open Descent (Item)
open Production (Link binary operatorKind buildItem)

namespace Tree

variable {t u left right first next : Tree} {kind : Kind} {operator : Token.Kind}
  {links more : List (Token.Kind × Tree)}

-- ---------------------------------------------------------------------------
-- Trees of operators
-- ---------------------------------------------------------------------------

/-- The commands and operators of a tree from left to right: its first command, then each
operator with the command behind it. What is inside of a command does not count. -/
inductive Row : Tree → Tree → List (Token.Kind × Tree) → Prop where
  | command {t : Tree} (h : t.kind = .command) : Row t t []
  | binary {operator : Token.Kind} {left right first next : Tree}
      {links more : List (Token.Kind × Tree)} (hOperator : operator.isOperator = true)
      (hLeft : Row left first links) (hRight : Row right next more) :
      Row (binary (operatorKind operator) left right) first (links ++ (operator, next) :: more)

/-- `Within t u`: the tree `t` is `u`, or `u` is within one of the operands that `t` joins. -/
inductive Within : Tree → Tree → Prop where
  | self (t : Tree) : Within t t
  | left {operator : Token.Kind} {left right u : Tree} (hOperator : operator.isOperator = true)
      (h : Within left u) : Within (binary (operatorKind operator) left right) u
  | right {operator : Token.Kind} {left right u : Tree} (hOperator : operator.isOperator = true)
      (h : Within right u) : Within (binary (operatorKind operator) left right) u

/-- A tree that has the given commands and operators, and is joined as their ranks demand. -/
structure Ranked (t first : Tree) (links : List (Token.Kind × Tree)) : Prop where
  /-- The commands and operators are those given, in the same order. -/
  row       : Row t first links
  /-- There is no `&&` and no `||` inside a pipe. -/
  tight     : ∀ left right u, Within t (binary .pipe left right) →
    Within (binary .pipe left right) u → u.kind ≠ .andIf ∧ u.kind ≠ .orIf
  /-- On the right of a pipe there is a command. -/
  pipeRight : ∀ left right, Within t (binary .pipe left right) → right.kind = .command
  /-- On the right of `&&` and `||` there is a command or a pipe. -/
  listRight : ∀ kind left right, kind = .andIf ∨ kind = .orIf →
    Within t (binary kind left right) → right.kind = .command ∨ right.kind = .pipe

/-- A pipeline: a single command, or commands joined by pipes. -/
def IsPipeline (t : Tree) : Prop := t.kind = .command ∨ t.kind = .pipe

/-- Pipelines are put together from commands, and everything else from pipelines. -/
inductive Layered : Tree → Tree → List (Token.Kind × Tree) → Prop where
  | command {t : Tree} (h : t.kind = .command) : Layered t t []
  | pipe {left right first : Tree} {links : List (Token.Kind × Tree)}
      (hLeft : Layered left first links) (hPipeline : left.IsPipeline)
      (hRight : right.kind = .command) :
      Layered (binary .pipe left right) first (links ++ [(.pipe, right)])
  | list {operator : Token.Kind} {left right first next : Tree}
      {links more : List (Token.Kind × Tree)}
      (hOperator : operator = .andIf ∨ operator = .orIf) (hLeft : Layered left first links)
      (hRight : Layered right next more) (hPipeline : right.IsPipeline) :
      Layered (binary (operatorKind operator) left right) first (links ++ (operator, next) :: more)

@[simp] theorem kind_binary (kind : Kind) (left right : Tree) :
    (binary kind left right).kind = kind := rfl

theorem binary_inj {kind' : Kind} {left' right' : Tree}
    (h : binary kind left right = binary kind' left' right') :
    kind = kind' ∧ left = left' ∧ right = right' := by
  simpa [binary] using h

/-- An operator makes a tree of its own kind, which is not that of a command. -/
theorem operatorKind_ne_command (operator : Token.Kind) :
    operatorKind operator ≠ .command := by
  cases operator <;> simp [operatorKind]

theorem isOperator_of_list (h : operator = .andIf ∨ operator = .orIf) :
    operator.isOperator = true := by
  rcases h with rfl | rfl <;> rfl

/-- A command is joined from nothing but itself. -/
theorem within_command (h : t.kind = .command) : Within t u ↔ u = t := by
  constructor
  · intro hWithin
    cases hWithin with
    | self => rfl
    | left => exact absurd h (operatorKind_ne_command _)
    | right => exact absurd h (operatorKind_ne_command _)
  · rintro rfl
    exact .self u

theorem isOperator_pipe : Token.Kind.pipe.isOperator = true := rfl

theorem within_binary (hOperator : operator.isOperator = true) :
    Within (binary (operatorKind operator) left right) u ↔
      u = binary (operatorKind operator) left right ∨ Within left u ∨ Within right u := by
  constructor
  · intro hWithin
    generalize hTree : binary (operatorKind operator) left right = t at hWithin
    cases hWithin with
    | self => exact .inl rfl
    | left _ h =>
      obtain ⟨-, rfl, -⟩ := binary_inj hTree
      exact .inr (.inl h)
    | right _ h =>
      obtain ⟨-, -, rfl⟩ := binary_inj hTree
      exact .inr (.inr h)
  · rintro (rfl | h | h)
    · exact .self _
    · exact .left hOperator h
    · exact .right hOperator h

/-- What an operand is joined from, the whole is joined from. -/
theorem Within.trans {v : Tree} (h : Within t u) (hu : Within u v) : Within t v := by
  induction h with
  | self => exact hu
  | left hOperator _ ih => exact .left hOperator (ih hu)
  | right hOperator _ ih => exact .right hOperator (ih hu)

/-- The top of a tree of operators is a command or an operator. -/
theorem Row.isPipeline (h : Row t first links) (hAnd : t.kind ≠ .andIf) (hOr : t.kind ≠ .orIf) :
    t.IsPipeline := by
  cases h with
  | command hKind => exact .inl hKind
  | binary hOperator =>
    right
    rcases Descent.eq_of_isOperator hOperator with rfl | rfl | rfl
    · rfl
    · exact absurd rfl hAnd
    · exact absurd rfl hOr

-- ---------------------------------------------------------------------------
-- The two rules
-- ---------------------------------------------------------------------------

/-- The operands of a ranked tree are ranked. -/
theorem Ranked.operand (h : Ranked t first links) (hWithin : Within t u)
    (hRow : Row u next more) : Ranked u next more where
  row := hRow
  tight left right v hPipe := h.tight left right v (hWithin.trans hPipe)
  pipeRight left right hPipe := h.pipeRight left right (hWithin.trans hPipe)
  listRight kind left right hKind hList := h.listRight kind left right hKind (hWithin.trans hList)

/-- A pipeline of the right rank is put together from commands, and any other tree of the
right rank from pipelines. -/
theorem Ranked.layered (h : Ranked t first links) : Layered t first links := by
  obtain ⟨hRow, -, -, -⟩ := id h
  induction hRow with
  | command hKind => exact .command hKind
  | @binary operator left right first next links more hOperator hLeft hRight ihLeft ihRight =>
    have hLeftWithin : Within (binary (operatorKind operator) left right) left :=
      .left hOperator (.self left)
    have hRightWithin : Within (binary (operatorKind operator) left right) right :=
      .right hOperator (.self right)
    have hLeftLayered := ihLeft (h.operand hLeftWithin hLeft)
    have hRightLayered := ihRight (h.operand hRightWithin hRight)
    by_cases hPipe : operator = .pipe
    · subst hPipe
      have hCommand := h.pipeRight left right (.self _)
      obtain ⟨hAnd, hOr⟩ := h.tight left right left (.self _) hLeftWithin
      -- A single command has a row of its own.
      cases hRightLayered with
      | command => exact .pipe hLeftLayered (hLeft.isPipeline hAnd hOr) hCommand
      | pipe => cases hCommand
      | list => exact absurd hCommand (operatorKind_ne_command _)
    · have hList : operator = .andIf ∨ operator = .orIf := by
        rcases Descent.eq_of_isOperator hOperator with hKind | hKind
        · exact absurd hKind hPipe
        · exact hKind
      refine .list hList hLeftLayered hRightLayered (h.listRight _ left right ?_ (.self _))
      rcases hList with rfl | rfl
      · exact .inl rfl
      · exact .inr rfl

/-- What a layered tree is joined from is layered. -/
theorem Layered.operand (h : Layered t first links) (hWithin : Within t u) :
    ∃ next more, Layered u next more := by
  induction h with
  | command hKind =>
    rw [(within_command hKind).1 hWithin]
    exact ⟨_, _, .command hKind⟩
  | @pipe left right first links hLeft hPipeline hRight ih =>
    rcases (within_binary isOperator_pipe).1 hWithin with rfl | hWithin | hWithin
    · exact ⟨_, _, .pipe hLeft hPipeline hRight⟩
    · exact ih hWithin
    · rw [(within_command hRight).1 hWithin]
      exact ⟨_, _, .command hRight⟩
  | list hOperator hLeft hRight hPipeline ihLeft ihRight =>
    rcases (within_binary (isOperator_of_list hOperator)).1 hWithin with rfl | hWithin | hWithin
    · exact ⟨_, _, .list hOperator hLeft hRight hPipeline⟩
    · exact ihLeft hWithin
    · exact ihRight hWithin

/-- The trees that `&&` and `||` make. -/
theorem operatorKind_list (h : operator = .andIf ∨ operator = .orIf) :
    operatorKind operator = .andIf ∨ operatorKind operator = .orIf := by
  rcases h with rfl | rfl
  · exact .inl rfl
  · exact .inr rfl

/-- A pipeline is joined from pipelines. -/
theorem Layered.isPipeline (h : Layered t first links) (hPipeline : t.IsPipeline)
    (hWithin : Within t u) : u.IsPipeline := by
  induction h with
  | command hKind =>
    rw [(within_command hKind).1 hWithin]
    exact .inl hKind
  | pipe _ hLeft hRight ih =>
    rcases (within_binary isOperator_pipe).1 hWithin with rfl | hWithin | hWithin
    · exact .inr rfl
    · exact ih hLeft hWithin
    · rw [(within_command hRight).1 hWithin]
      exact .inl hRight
  | list hOperator =>
    rcases operatorKind_list hOperator with hKind | hKind <;> simp [IsPipeline, hKind] at hPipeline

/-- On the right of a pipe there is a command. -/
theorem Layered.pipe_right (h : Layered (binary .pipe left right) first links) :
    right.kind = .command := by
  generalize hTree : binary .pipe left right = t at h
  cases h with
  | command hKind =>
    rw [← hTree] at hKind
    cases hKind
  | pipe _ _ hRight =>
    obtain ⟨-, -, rfl⟩ := binary_inj hTree
    exact hRight
  | list hOperator =>
    obtain ⟨hPipe, -, -⟩ := binary_inj hTree
    rcases operatorKind_list hOperator with hKind | hKind <;> simp [hKind] at hPipe

/-- On the right of `&&` and `||` there is a pipeline. -/
theorem Layered.list_right (h : Layered (binary kind left right) first links)
    (hKind : kind = .andIf ∨ kind = .orIf) : right.IsPipeline := by
  generalize hTree : binary kind left right = t at h
  cases h with
  | command hCommand =>
    rw [← hTree, kind_binary] at hCommand
    simp [hCommand] at hKind
  | pipe =>
    obtain ⟨rfl, -, -⟩ := binary_inj hTree
    simp at hKind
  | list _ _ _ hPipeline =>
    obtain ⟨-, -, rfl⟩ := binary_inj hTree
    exact hPipeline

theorem Layered.row (h : Layered t first links) : Row t first links := by
  induction h with
  | command hKind => exact .command hKind
  | pipe _ _ hRight ih => exact .binary isOperator_pipe ih (.command hRight)
  | list hOperator _ _ _ ihLeft ihRight =>
    exact .binary (isOperator_of_list hOperator) ihLeft ihRight

/-- The rules admit exactly what is put together from below. -/
theorem ranked_iff_layered : Ranked t first links ↔ Layered t first links := by
  refine ⟨Ranked.layered, fun h => ⟨h.row, ?_, ?_, ?_⟩⟩
  · intro left right u hPipe hWithin
    obtain ⟨_, _, hLayered⟩ := h.operand hPipe
    rcases hLayered.isPipeline (.inr rfl) hWithin with hKind | hKind <;> simp [hKind]
  · intro left right hPipe
    obtain ⟨_, _, hLayered⟩ := h.operand hPipe
    exact hLayered.pipe_right
  · intro kind left right hKind hList
    obtain ⟨_, _, hLayered⟩ := h.operand hList
    exact hLayered.list_right hKind

-- ---------------------------------------------------------------------------
-- Joining one command after the other
-- ---------------------------------------------------------------------------

/-- The item with more commands, each behind its operator. -/
def joinAll (item : Item) (links : List (Token.Kind × Tree)) : Item :=
  links.foldl (fun item link => item.join link.1 link.2) item

theorem joinAll_append (item : Item) (links more : List (Token.Kind × Tree)) :
    joinAll item (links ++ more) = joinAll (joinAll item links) more :=
  List.foldl_append

theorem joinAll_cons (item : Item) (operator : Token.Kind) (command : Tree)
    (links : List (Token.Kind × Tree)) :
    joinAll item ((operator, command) :: links) = joinAll (item.join operator command) links :=
  rfl

theorem join_pipe (before : Option (Kind × Tree)) (pipeline command : Tree) (n : Nat) :
    Item.join ⟨before, pipeline, n⟩ .pipe command =
      ⟨before, binary .pipe pipeline command, n + 1⟩ := rfl

theorem join_list (item : Item) (command : Tree) (h : operator = .andIf ∨ operator = .orIf) :
    item.join operator command =
      ⟨some (operatorKind operator, item.tree), command, item.operands + 1⟩ := by
  rcases h with rfl | rfl <;> rfl

/-- The commands of a pipeline are joined to that pipeline, whatever stands before it. -/
theorem Layered.joinAll_pipeline (h : Layered t first links) (hPipeline : t.IsPipeline)
    (before : Option (Kind × Tree)) (n : Nat) :
    joinAll ⟨before, first, n⟩ links = ⟨before, t, n + links.length⟩ := by
  induction h with
  | command => rfl
  | pipe _ hLeft _ ih =>
    rw [joinAll_append, ih hLeft, joinAll_cons, join_pipe, List.length_append]
    rfl
  | list hOperator =>
    rcases operatorKind_list hOperator with hKind | hKind <;> simp [IsPipeline, hKind] at hPipeline

/-- A layered tree is what its commands are joined to. -/
theorem Layered.eq_item (h : Layered t first links) :
    t = (joinAll (.single first) links).tree := by
  induction h with
  | command => rfl
  | pipe hLeft hPipeline hRight =>
    rw [Item.single, (Layered.pipe hLeft hPipeline hRight).joinAll_pipeline (.inr rfl)]
    rfl
  | list hOperator _ hRight hPipeline ihLeft _ =>
    rw [joinAll_append, joinAll_cons, join_list _ _ hOperator, ← ihLeft,
      hRight.joinAll_pipeline hPipeline]
    rfl

/-- An item in the making: its latest pipeline, and what that is to be joined to. -/
inductive Building : Item → Tree → List (Token.Kind × Tree) → Prop where
  | pipeline {pipeline first : Tree} {links : List (Token.Kind × Tree)} {n : Nat}
      (h : Layered pipeline first links) (hPipeline : pipeline.IsPipeline) :
      Building ⟨none, pipeline, n⟩ first links
  | list {operator : Token.Kind} {left pipeline first next : Tree}
      {links more : List (Token.Kind × Tree)} {n : Nat}
      (hOperator : operator = .andIf ∨ operator = .orIf) (hLeft : Layered left first links)
      (h : Layered pipeline next more) (hPipeline : pipeline.IsPipeline) :
      Building ⟨some (operatorKind operator, left), pipeline, n⟩ first
        (links ++ (operator, next) :: more)

theorem Building.layered {item : Item} (h : Building item first links) :
    Layered item.tree first links := by
  cases h with
  | pipeline h => exact h
  | list hOperator hLeft h hPipeline => exact .list hOperator hLeft h hPipeline

/-- One more command keeps an item in the making. -/
theorem Building.join {item : Item} {command : Tree} (h : Building item first links)
    (hOperator : operator.isOperator = true) (hCommand : command.kind = .command) :
    Building (item.join operator command) first (links ++ [(operator, command)]) := by
  rcases Descent.eq_of_isOperator hOperator with rfl | hList
  · cases h with
    | pipeline h hPipeline => exact .pipeline (.pipe h hPipeline hCommand) (.inr rfl)
    | list hList hLeft h hPipeline =>
      rw [join_pipe, List.append_assoc, List.cons_append]
      exact .list hList hLeft (.pipe h hPipeline hCommand) (.inr rfl)
  · rw [join_list item command hList]
    exact .list hList h.layered (.command hCommand) (.inl hCommand)

/-- Joining one command after the other gives a layered tree. -/
theorem layered_item (hFirst : first.kind = .command)
    (hLinks : ∀ link ∈ links, link.1.isOperator = true ∧ link.2.kind = .command) :
    Layered (joinAll (.single first) links).tree first links := by
  have hBuilding : Building (joinAll (.single first) links) first links := by
    induction links using List.reverseRecOn with
    | nil => exact .pipeline (.command hFirst) (.inl hFirst)
    | append_singleton links link ih =>
      obtain ⟨hOperator, hCommand⟩ := hLinks link (by simp)
      rw [joinAll_append]
      exact (ih fun l hl => hLinks l (by simp [hl])).join hOperator hCommand
  exact hBuilding.layered

end Tree

-- ---------------------------------------------------------------------------
-- Items
-- ---------------------------------------------------------------------------

namespace Production

/-- A link of an item, as it is found in the row of a tree: the kind of its operator, and the
tree of the command behind it. -/
def Link.joint (l : Link) : Token.Kind × Tree := (l.operator.kind, l.tree)

theorem Link.item_eq_joinAll (first : Tree) (links : List Link) :
    Link.item first links = Tree.joinAll (.single first) (links.map Link.joint) := by
  rw [Tree.joinAll, List.foldl_map]
  rfl

end Production

namespace Machine

variable {m : Machine} {fuel : Nat}

/-- The production is a command that is through, and `tree` is its tree. -/
def Finishes (m : Machine) (fuel : Nat) (id : ProductionId) (tree : Tree) : Prop :=
  (∃ parts, m.production id = .command parts) ∧ m.treeWithin fuel id = .ok tree

/-- The tree of a command is a command. -/
theorem Finishes.kind {id : ProductionId} {tree : Tree} (h : m.Finishes fuel id tree) :
    tree.kind = .command := by
  obtain ⟨⟨parts, hProduction⟩, hTree⟩ := h
  cases fuel with
  | zero => cases hTree
  | succ fuel =>
    rw [treeWithin, hProduction, Production.build] at hTree
    obtain ⟨children, -, hNode⟩ := Descent.bind_ok.1 hTree
    cases children with
    | nil => cases hNode
    | cons first others =>
      obtain rfl := Except.ok.inj hNode
      rfl

/-- **Precedence and association.** An item of finished commands with operators between them has
a tree. It has these commands and operators in this order, no `&&` or `||` is inside a pipe, a
pipe has a command on its right, and `&&` and `||` have a command or a pipe there; and it is the
only tree of which all this is true. -/
theorem buildItem_ranked {id : ProductionId} {first : Tree} {links : List Link}
    (hFirst : m.Finishes fuel id first)
    (hLinks : ∀ l ∈ links, l.operator.kind.isOperator = true ∧ m.Finishes fuel l.id l.tree) :
    ∃ tree, buildItem m.label (m.treeWithin fuel) (Link.parts id links) = .ok tree ∧
      tree.Ranked first (links.map Link.joint) ∧
      ∀ other : Tree, other.Ranked first (links.map Link.joint) → other = tree := by
  refine ⟨(Link.item first links).tree,
    buildItem_links m.label hFirst.2 fun l hl => (hLinks l hl).2.2, ?_, ?_⟩
  · rw [Tree.ranked_iff_layered, Link.item_eq_joinAll]
    apply Tree.layered_item hFirst.kind
    intro link hLink
    obtain ⟨l, hl, rfl⟩ := List.mem_map.1 hLink
    exact ⟨(hLinks l hl).1, (hLinks l hl).2.kind⟩
  · intro other hRanked
    rw [Link.item_eq_joinAll]
    exact hRanked.layered.eq_item

/-- In `a && b | c || d` the pipe goes first, and then the operators from the left. -/
theorem buildItem_ranked_mixed :
    let m := machineOf (readTree (.start (tokenize "a&&b|c||d".toList) 9))
    let command (c : Char) (n : Int) : Tree :=
      .node .command (.leaf .argument ⟨.word, [c], n⟩ none) [] none
    let links : List Link := [⟨⟨.andIf, ['&', '&'], 1⟩, 3, command 'b' 3⟩,
      ⟨⟨.pipe, ['|'], 4⟩, 5, command 'c' 5⟩, ⟨⟨.orIf, ['|', '|'], 6⟩, 7, command 'd' 8⟩]
    let tree := binary .orIf (binary .andIf (command 'a' 0)
      (binary .pipe (command 'b' 3) (command 'c' 5))) (command 'd' 8)
    m.production 0 = .sequence false [Link.parts 1 links] [] ∧
      buildItem m.label (m.treeWithin 9) (Link.parts 1 links) = .ok tree ∧
      ∀ other : Tree, other.Ranked (command 'a' 0) (links.map Link.joint) → other = tree := by
  intro m command links tree
  have hFirst : m.Finishes 9 1 (command 'a' 0) := by
    refine ⟨⟨[2], by decide +kernel⟩, ?_⟩
    unfold m command
    cbv
  have hLinks : ∀ l ∈ links, l.operator.kind.isOperator = true ∧ m.Finishes 9 l.id l.tree := by
    unfold links m command
    simp only [List.forall_mem_cons, List.not_mem_nil, IsEmpty.forall_iff, implies_true, and_true]
    exact ⟨⟨rfl, ⟨[4], by decide +kernel⟩, by cbv⟩, ⟨rfl, ⟨[6], by decide +kernel⟩, by cbv⟩,
      rfl, ⟨[8], by decide +kernel⟩, by cbv⟩
  obtain ⟨built, hBuilt, -, hOnly⟩ := buildItem_ranked hFirst hLinks
  have hTree : buildItem m.label (m.treeWithin 9) (Link.parts 1 links) = .ok tree := by
    unfold m links tree command
    cbv
  rw [hTree] at hBuilt
  obtain rfl := Except.ok.inj hBuilt
  exact ⟨by decide +kernel, hTree, hOnly⟩

end Machine

end ShellReader
