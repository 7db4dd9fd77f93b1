import ShellReader.Proofs.Height
import ShellReader.Proofs.Walk
import ShellReader.Tree.Dump
import ShellReader.Tree.Outline

/-!
# ShellReader — recursions over a tree

A recursion over a tree visits the children of a tree in calls inside the one for the tree, so it
takes as many calls inside one another as the tree is high (`recurse`). And while a tree is put
together out of its productions, each call finds a tree that is higher than those it asks for. So
it is the limit alone that says how much room there has to be for calls, however long the
command line.

## Results

* `Tree.shallow_of_height` — the recursions over a tree take no more calls than it is high.
* `Machine.treeWithin_of_height` — and so does putting it together.
* `parseTokens_height` — both for a tree that was read under a limit.
-/

namespace ShellReader

-- ---------------------------------------------------------------------------
-- Recursions
-- ---------------------------------------------------------------------------

namespace Tree

variable {α β : Type} {t : Tree} {n : Nat}

/-- A recursion over a tree, with room for `fuel` calls inside one another: what `step` makes of
a tree and of what was made of its children. -/
def recurse (step : Tree → List α → α) : (fuel : Nat) → Tree → Option α
  | 0, _ => none
  | fuel + 1, t => (t.children.mapM (recurse step fuel)).map (step t)

theorem mapM_eq_some {f : α → Option β} {g : α → β} {as : List α}
    (h : ∀ a ∈ as, f a = some (g a)) : as.mapM f = some (as.map g) := by
  induction as with
  | nil => rfl
  | cons a as ih =>
    obtain ⟨hFirst, hRest⟩ := List.forall_mem_cons.1 h
    rw [List.mapM_cons, hFirst, ih hRest]
    rfl

/-- A recursion comes to its end with room for as many calls as the tree is high. -/
theorem recurse_of_height {step : Tree → List α → α} {f : Tree → α}
    (hStep : ∀ t, f t = step t (t.children.map f)) (h : t.height ≤ n) :
    t.recurse step n = some (f t) := by
  induction n generalizing t with
  | zero =>
    have hHigh := t.height_pos
    omega
  | succ n ih =>
    have hChildren : t.children.mapM (recurse step n) = some (t.children.map f) := by
      apply mapM_eq_some
      intro child hChild
      have hLess := height_lt_of_mem_children hChild
      exact ih (by omega)
    rw [recurse, hChildren, Option.map_some, ← hStep]

/-- A tree as a command line, given its children as such. -/
def sourceStep : Tree → List Text → Text
  | leaf _ token _, _ => token.text
  | node kind _ _ quote, parts => written kind quote parts

/-- The lines of a tree at a depth, given those of its children. -/
def prettyStep (unit : Text) : Tree → List (Nat → Text) → Nat → Text
  | leaf kind token _, _, depth =>
    Text.repeated depth unit ++ kind.name.toList ++ '\t' :: token.text.quoted ++ ['\n']
  | node kind _ _ _, lines, depth =>
    Text.repeated depth unit ++ kind.name.toList ++ '\n' :: lines.flatMap (· (depth + 1))

/-- The outline of a tree, given those of its children. -/
def outlineStep : Tree → List Outline → Outline
  | leaf kind _ _, _ => .label kind
  | node kind _ _ _, [child] => .single kind child
  | node kind _ _ _, children => .several kind children

/-- The walk of a tree, given those of its children. -/
def walkStep (t : Tree) (walks : List (List Tree)) : List Tree :=
  t :: walks.flatten

theorem source_eq_step (t : Tree) : t.source = sourceStep t (t.children.map source) := by
  cases t with
  | leaf => rw [source, sourceStep]
  | node => rw [source, sources_eq_map, sourceStep, children, List.map_cons]

theorem prettyAllAt_eq_flatMap (unit : Text) (depth : Nat) (ts : List Tree) :
    prettyAllAt unit depth ts = ts.flatMap (prettyAt unit depth) := by
  induction ts with
  | nil => rw [prettyAllAt, List.flatMap_nil]
  | cons t rest ih => rw [prettyAllAt, List.flatMap_cons, ih]

theorem prettyAt_eq_step (unit : Text) (t : Tree) :
    (fun depth => t.prettyAt unit depth) =
      prettyStep unit t (t.children.map fun child depth => child.prettyAt unit depth) := by
  funext depth
  cases t with
  | leaf => rw [prettyAt, prettyStep]
  | node =>
    rw [prettyAt, prettyAllAt_eq_flatMap, prettyStep, children, List.flatMap_map,
      List.flatMap_cons]

theorem outline_eq_step (t : Tree) : t.outline = outlineStep t (t.children.map outline) := by
  cases t with
  | leaf => rw [outline, outlineStep]
  | node kind first rest quote =>
    cases rest with
    | nil => rw [outline, children, List.map_singleton, outlineStep]
    | cons second rest =>
      rw [outline, outlines_eq_map, children, List.map_cons, List.map_cons]
      rfl

theorem walkAll_eq_flatten (ts : List Tree) : walkAll ts = (ts.map walk).flatten := by
  induction ts with
  | nil => rw [walkAll, List.map_nil, List.flatten_nil]
  | cons t rest ih => rw [walkAll, List.map_cons, List.flatten_cons, ih]

theorem walk_eq_step (t : Tree) : t.walk = walkStep t (t.children.map walk) := by
  cases t with
  | leaf => rw [walk, walkStep, children, List.map_nil, List.flatten_nil]
  | node =>
    rw [walk, walkAll_eq_flatten, walkStep, children, List.map_cons, List.flatten_cons]

/-- The recursions over a tree come to their end with room for `fuel` calls. -/
structure Shallow (fuel : Nat) (t : Tree) : Prop where
  source : t.recurse sourceStep fuel = some t.source
  pretty : ∀ unit, t.recurse (prettyStep unit) fuel = some fun depth => t.prettyAt unit depth
  outline : t.recurse outlineStep fuel = some t.outline
  walk : t.recurse walkStep fuel = some t.walk

/-- The recursions over a tree take no more calls than the tree is high. -/
theorem shallow_of_height (h : t.height ≤ n) : Shallow n t where
  source := recurse_of_height source_eq_step h
  pretty unit := recurse_of_height (prettyAt_eq_step unit) h
  outline := recurse_of_height outline_eq_step h
  walk := recurse_of_height walk_eq_step h

end Tree

-- ---------------------------------------------------------------------------
-- Putting a tree together
-- ---------------------------------------------------------------------------

namespace Production

variable {sorts : ProductionId → Label} {trees trees' : ProductionId → Except Failure Tree}
  {first start t : Tree} {more : List (Part × Tree)} {later : List (Tree.Kind × Tree)} {n : Nat}

/-- No pipeline is lower than its commands. -/
theorem height_le_of_pipelines (h : pipelines sorts first more = .ok (start, later))
    (hStart : start.height ≤ n) (hLater : ∀ link ∈ later, link.2.height ≤ n) :
    first.height ≤ n ∧ ∀ operand ∈ more, operand.2.height ≤ n := by
  induction more generalizing first start later with
  | nil =>
    rw [pipelines] at h
    cases h
    exact ⟨hStart, by simp⟩
  | cons operand more ih =>
    obtain ⟨part, command⟩ := operand
    cases part with
    | child id => cases h
    | token t =>
      rw [List.forall_mem_cons]
      rw [pipelines] at h
      split at h
      · obtain ⟨hJoined, hMore⟩ := ih h hStart hLater
        rw [Tree.height_binary] at hJoined
        exact ⟨by omega, by show command.height ≤ n; omega, hMore⟩
      · obtain ⟨⟨next, others⟩, hPipelines, h⟩ := Descent.bind_ok.1 h
        cases h
        obtain ⟨hNext, hOthers⟩ := List.forall_mem_cons.1 hLater
        exact ⟨hStart, ih hPipelines hNext hOthers⟩

theorem height_le_of_foldl
    (h : (later.foldl (fun left (kind, right) => binary kind left right) start).height ≤ n) :
    start.height ≤ n ∧ ∀ link ∈ later, link.2.height ≤ n := by
  induction later generalizing start with
  | nil => exact ⟨h, by simp⟩
  | cons link later ih =>
    obtain ⟨hJoined, hLater⟩ := ih h
    rw [Tree.height_binary] at hJoined
    rw [List.forall_mem_cons]
    exact ⟨by omega, by omega, hLater⟩

/-- No item is lower than its commands. -/
theorem height_le_of_joinCommands (h : joinCommands sorts first more = .ok t) :
    first.height ≤ t.height ∧ ∀ operand ∈ more, operand.2.height ≤ t.height := by
  obtain ⟨⟨start, later⟩, hPipelines, h⟩ := Descent.bind_ok.1 h
  cases h
  obtain ⟨hStart, hLater⟩ := height_le_of_foldl (Nat.le_refl _)
  exact height_le_of_pipelines hPipelines hStart hLater

theorem height_lt_of_buildNode {kind : Tree.Kind} {children : List Tree} {quote : Option Text}
    (h : buildNode kind children quote = .ok t) : ∀ child ∈ children, child.height < t.height := by
  cases children with
  | nil => cases h
  | cons first rest =>
    cases h
    exact Tree.height_lt_node

/-- What is made one by one can be made in another way that makes the same things. -/
theorem mapM_congr_ok {α β ε : Type} {f g : α → Except ε β} {as : List α} {bs : List β}
    (h : as.mapM f = .ok bs) (hEach : ∀ b ∈ bs, ∀ a, f a = .ok b → g a = .ok b) :
    as.mapM g = .ok bs := by
  apply Machine.mapM_eq_ok
  have hForall := forall₂_of_mapM h
  clear h
  induction hForall with
  | nil => exact .nil
  | cons hFirst _ ih =>
    obtain ⟨hHead, hTail⟩ := List.forall_mem_cons.1 hEach
    exact .cons (hHead _ hFirst) (ih hTail)

/-- It is enough for an item to have the trees that are no higher. -/
theorem buildItem_lower {item : List Part} (h : buildItem sorts trees item = .ok t)
    (hTrees : ∀ id tree, trees id = .ok tree → tree.height ≤ t.height → trees' id = .ok tree) :
    buildItem sorts trees' item = .ok t := by
  obtain ⟨commands, hCommands, h⟩ := Descent.bind_ok.1 h
  have hLow : ∀ command ∈ commands, command.height ≤ t.height := by
    cases commands with
    | nil => cases h
    | cons first more =>
      obtain ⟨hFirst, hMore⟩ := height_le_of_joinCommands h
      have hOperators := length_le_everyOther_tail
        ((forall₂_of_mapM hCommands).length_eq.trans List.length_cons)
      rw [List.forall_mem_cons]
      refine ⟨hFirst, fun command hCommand => ?_⟩
      rw [← List.map_snd_zip hOperators, List.mem_map] at hCommand
      obtain ⟨operand, hOperand, rfl⟩ := hCommand
      exact hMore operand hOperand
  refine Descent.bind_ok.2 ⟨commands, mapM_congr_ok hCommands ?_, h⟩
  intro command hCommand part hPart
  cases part with
  | token => cases hPart
  | child id => exact hTrees id command hPart (hLow command hCommand)

/-- It is enough for a production to have the trees that are lower. -/
theorem build_lower {p : Production} (h : p.build sorts trees = .ok t)
    (hTrees : ∀ id tree, trees id = .ok tree → tree.height < t.height → trees' id = .ok tree) :
    p.build sorts trees' = .ok t := by
  cases p with
  | blank => cases h
  | sequence nested items current =>
    obtain ⟨ts, hItems, h⟩ := Descent.bind_ok.1 h
    refine Descent.bind_ok.2 ⟨ts, mapM_congr_ok hItems fun item hItem parts hParts => ?_, h⟩
    have hLow := height_lt_of_buildNode h item hItem
    exact buildItem_lower hParts fun id tree hTree hLe => hTrees id tree hTree (by omega)
  | command parts =>
    obtain ⟨ts, hParts, h⟩ := Descent.bind_ok.1 h
    refine Descent.bind_ok.2 ⟨ts, mapM_congr_ok hParts fun tree hTree id hId => ?_, h⟩
    exact hTrees id tree hId (height_lt_of_buildNode h tree hTree)
  | assignment name value =>
    cases name with
    | none => cases h
    | some name =>
      cases value with
      | none => exact h
      | some value =>
        obtain ⟨tree, hValue, h⟩ := Descent.bind_ok.1 h
        cases h
        refine Descent.bind_ok.2 ⟨tree, hTrees value tree hValue ?_, rfl⟩
        exact Tree.height_lt_node tree (List.mem_cons_of_mem _ (List.mem_singleton_self tree))
  | word role parts =>
    change buildWord trees role parts = _ at h
    show buildWord trees' role parts = _
    unfold buildWord at h ⊢
    split at h
    · exact h
    · obtain ⟨ts, hParts, h⟩ := Descent.bind_ok.1 h
      refine Descent.bind_ok.2 ⟨ts, mapM_congr_ok hParts fun tree hTree part hPart => ?_, h⟩
      cases part with
      | token => exact hPart
      | child id => exact hTrees id tree hPart (height_lt_of_buildNode h tree hTree)
  | quotation opener parts =>
    cases opener with
    | none => cases h
    | some opener => exact h
  | substitution parts =>
    cases parts with
    | nil => cases h
    | cons inner others =>
      obtain ⟨tree, hInner, h⟩ := Descent.bind_ok.1 h
      cases h
      refine Descent.bind_ok.2 ⟨tree, hTrees inner tree hInner ?_, rfl⟩
      exact Tree.height_lt_node tree (List.mem_singleton_self tree)

end Production

/-- The tree of a production is put together with room for as many calls as it is high. -/
theorem Machine.treeWithin_of_height {m : Machine} {fuel n : Nat} {id : ProductionId} {tree : Tree}
    (h : m.treeWithin fuel id = .ok tree) (hHeight : tree.height ≤ n) :
    m.treeWithin n id = .ok tree := by
  induction n generalizing fuel id tree with
  | zero =>
    have hHigh := tree.height_pos
    omega
  | succ n ih =>
    cases fuel with
    | zero => cases h
    | succ fuel =>
      exact Production.build_lower h fun id part hPart hLess => ih hPart (by omega)

-- ---------------------------------------------------------------------------
-- Token lists
-- ---------------------------------------------------------------------------

/-- **The limit bounds the height of a tree**, whatever the length of the token list: every way
from the tree down to a token, and the calls inside one another that it takes to put the tree
together, to write it as a command line or line by line, to outline it and to walk it. -/
theorem parseTokens_height {tokens : List Token} {limit : Int} {tree : Tree}
    (h : parseTokens tokens limit = .ok tree) :
    (∀ path, tree.Way path → (path.length : Int) ≤ heightLimit limit) ∧
      (machineOf (Machine.readTree (.start tokens limit))).treeWithin
        (heightLimit limit).toNat 0 = .ok tree ∧
      tree.Shallow (heightLimit limit).toNat := by
  have hHeight := height_le_of_parseTokens h
  have hCalls : tree.height ≤ (heightLimit limit).toNat := by omega
  refine ⟨fun path hWay => ?_, ?_, Tree.shallow_of_height hCalls⟩
  · have hLength := hWay.length_le_height
    omega
  · unfold parseTokens at h
    cases hRead : Machine.readTree (.start tokens limit) with
    | error why m =>
      rw [hRead] at h
      cases h
    | ok built m =>
      rw [hRead] at h
      cases h
      obtain ⟨root, first, hSpawn, -, hTree⟩ := Machine.readTree_ok hRead
      obtain ⟨rfl, -⟩ := Machine.Orderly.start hSpawn
      exact Machine.treeWithin_of_height hTree hCalls

/-- Two operators and a word of two pieces: under a limit of three no way down a tree is longer
than eight, and there is one in this tree that is as long as that. -/
theorem parseTokens_height_chain :
    heightLimit 3 = 8 ∧ ∃ tree path, parseTokens (tokenize "=a|b|c".toList) 3 = .ok tree ∧
      tree.Way path ∧ path.length = 8 ∧ (path.length : Int) ≤ heightLimit 3 := by
  let part : Tree := .leaf .argumentPart ⟨.equals, ['='], 0⟩ none
  let word : Tree := .node .argument part [.leaf .argumentPart ⟨.word, ['a'], 1⟩ none] none
  let command : Tree := .node .command word [] none
  let left : Tree := .node .lhs command [] none
  let right (t : Token) : Tree :=
    .node .rhs (.node .command (.leaf .argument t none) [] none) [] none
  let inner : Tree := .node .pipe left [right ⟨.word, ['b'], 3⟩] none
  let outer : Tree := .node .lhs inner [] none
  let chain : Tree := .node .pipe outer [right ⟨.word, ['c'], 5⟩] none
  let tree : Tree := .node .root chain [] none
  let path : List Tree := [tree, chain, outer, inner, left, command, word, part]
  have hTree : parseTokens (tokenize "=a|b|c".toList) 3 = .ok tree := by cbv
  have hWay : tree.Way path := by
    have hFirst {kind : Tree.Kind} {first : Tree} {rest : List Tree} {quote : Option Text} :
        first ∈ (Tree.node kind first rest quote).children := List.mem_cons_self ..
    exact .child hFirst <| .child hFirst <| .child hFirst <| .child hFirst <| .child hFirst <|
      .child hFirst <| .child hFirst <| .token ..
  exact ⟨by decide, tree, path, hTree, hWay, rfl, (parseTokens_height hTree).1 path hWay⟩

end ShellReader
