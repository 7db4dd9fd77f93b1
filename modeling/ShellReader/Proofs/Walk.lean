import ShellReader.Proofs.Numbering

/-!
# ShellReader — the walk of a tree and its productions

Every production becomes one tree, and the walk of the whole tree comes upon these trees in the
order of the productions' numbers. What else it comes upon are the pieces without a production of
their own: literal parts, names, and the operators that join commands with their two sides. The
right side of an operator and the value of an assignment are of one kind, so what is above a tree
has to be known (`Tree.visits`).

Operators move commands below one another but not past one another: in `a && b | c` the pipeline
is joined first, and still `a` is before `b` and `b` before `c`.

## Results

* `Production.labels_of_build` — the tree of a production, and then the trees of what it has
  recorded.
* `Machine.Spans.labels` — the walk of trees whose productions are numbered in order.
* `Machine.labels_of_readTree` — the walk of the tree of a token list.
-/

namespace ShellReader

open Production (Label)

-- ---------------------------------------------------------------------------
-- Walks
-- ---------------------------------------------------------------------------

namespace Tree

mutual

/-- The walk of a tree below one of the kind `parent`: each tree with the kind of the one above. -/
def visits (parent : Option Kind) : Tree → List (Option Kind × Tree)
  | t@(leaf ..) => [(parent, t)]
  | t@(node kind first rest _) =>
    (parent, t) :: (first.visits (some kind) ++ visitsAll (some kind) rest)

def visitsAll (parent : Option Kind) : List Tree → List (Option Kind × Tree)
  | [] => []
  | t :: rest => t.visits parent ++ visitsAll parent rest

end

mutual

/-- The trees that are visited are those of the walk. -/
theorem map_snd_visits (parent : Option Kind) : (t : Tree) → (t.visits parent).map Prod.snd = t.walk
  | leaf .. => by rw [visits, walk, List.map_singleton]
  | node kind first rest _ => by
    rw [visits, walk, List.map_cons, List.map_append, map_snd_visits (some kind) first,
      map_snd_visitsAll (some kind) rest]

theorem map_snd_visitsAll (parent : Option Kind) :
    (ts : List Tree) → (visitsAll parent ts).map Prod.snd = walkAll ts
  | [] => rfl
  | t :: rest => by
    rw [visitsAll, walkAll, List.map_append, map_snd_visits parent t,
      map_snd_visitsAll parent rest]

end

/-- The sort of production that a tree comes from, given its kind and the kind above it. -/
def Kind.label? (parent : Option Kind) : Kind → Option Label
  | root         => some .sequence
  | command      => some .command
  | argument     => some .argument
  | assignment   => some .assignment
  | rhs          => if parent = some .assignment then some .value else none
  | string       => some .quotation
  | substitution => some .substitution
  | argumentPart | stringPart | lhs | pipe | andIf | orIf | valuePart => none

/-- The sorts of production that the walk of a tree comes upon. -/
def labels (parent : Option Kind) (t : Tree) : List Label :=
  (t.visits parent).filterMap fun visit => visit.2.kind.label? visit.1

theorem visitsAll_eq (parent : Option Kind) (ts : List Tree) :
    visitsAll parent ts = ts.flatMap (visits parent) := by
  induction ts with
  | nil => rfl
  | cons t rest ih => rw [visitsAll, List.flatMap_cons, ih]

theorem labels_eq (parent : Option Kind) (t : Tree) :
    t.labels parent =
      (t.visits parent).flatMap fun visit => (visit.2.kind.label? visit.1).toList :=
  List.filterMap_eq_flatMap_toList ..

theorem labels_leaf (parent : Option Kind) (k : Kind) (t : Token) (quote : Option Text) :
    (leaf k t quote).labels parent = (k.label? parent).toList := by
  rw [labels_eq, visits, List.flatMap_singleton]
  rfl

theorem labels_node (parent : Option Kind) (k : Kind) (first : Tree) (rest : List Tree)
    (quote : Option Text) :
    (node k first rest quote).labels parent =
      (k.label? parent).toList ++ (first :: rest).flatMap (labels (some k)) := by
  have hLabels := funext (labels_eq (some k))
  rw [labels_eq, visits, List.flatMap_cons, visitsAll_eq, ← List.flatMap_cons,
    List.flatMap_assoc, hLabels]
  rfl

/-- Only below an assignment it matters what is above. -/
theorem labels_below {kind : Kind} (h : kind ≠ .assignment) :
    labels (some kind) = labels none := by
  have hParent (k : Kind) : k.label? (some kind) = k.label? none := by
    cases k <;> simp [Kind.label?, h]
  funext t
  cases t with
  | leaf k t quote => rw [labels_leaf, labels_leaf, hParent]
  | node k first rest quote => rw [labels_node, labels_node, hParent]

end Tree

-- ---------------------------------------------------------------------------
-- The trees of commands
-- ---------------------------------------------------------------------------

namespace Production

open ShellReader.Tree (labels labels_leaf labels_node labels_below)

variable {sorts : ProductionId → Label} {trees : ProductionId → Except Failure Tree}
  {form : ProductionId → Production} {kind : Tree.Kind} {first start t : Tree}
  {more : List (Part × Tree)} {later : List (Tree.Kind × Tree)} {item : List Part}

/-- The kinds that join two trees. -/
def Joins (kind : Tree.Kind) : Prop := kind = .pipe ∨ kind = .andIf ∨ kind = .orIf

theorem joins_operatorKind (kind : Token.Kind) : Joins (operatorKind kind) := by
  cases kind <;> simp [operatorKind, Joins]

/-- Joining two trees puts the one behind the other. -/
theorem labels_binary (h : Joins kind) (left right : Tree) :
    (binary kind left right).labels none = left.labels none ++ right.labels none := by
  rcases h with rfl | rfl | rfl <;>
    simp [binary, labels_node, labels_below, Tree.Kind.label?]

/-- Joining pipelines leaves the commands in their order. -/
theorem labels_pipelines (h : pipelines sorts first more = .ok (start, later)) :
    (∀ link ∈ later, Joins link.1) ∧
      start.labels none ++ later.flatMap (fun link => link.2.labels none) =
        first.labels none ++ more.flatMap (fun operand => operand.2.labels none) := by
  induction more generalizing first start later with
  | nil =>
    rw [pipelines] at h
    cases h
    exact ⟨by simp, rfl⟩
  | cons operand more ih =>
    obtain ⟨part, command⟩ := operand
    cases part with
    | child id => cases h
    | token t =>
      rw [pipelines] at h
      split at h
      · obtain ⟨hJoins, hLabels⟩ := ih h
        refine ⟨hJoins, ?_⟩
        rw [hLabels, labels_binary (.inl rfl), List.flatMap_cons, List.append_assoc]
      · obtain ⟨⟨next, others⟩, hMore, h⟩ := Descent.bind_ok.1 h
        cases h
        obtain ⟨hJoins, hLabels⟩ := ih hMore
        refine ⟨?_, ?_⟩
        · intro link hLink
          rcases List.mem_cons.1 hLink with rfl | hLink
          · exact joins_operatorKind t.kind
          · exact hJoins link hLink
        · rw [List.flatMap_cons, List.flatMap_cons, hLabels]

theorem labels_foldl (h : ∀ link ∈ later, Joins link.1) :
    (later.foldl (fun left (kind, right) => binary kind left right) start).labels none =
      start.labels none ++ later.flatMap (fun link => link.2.labels none) := by
  induction later generalizing start with
  | nil => rw [List.foldl_nil, List.flatMap_nil, List.append_nil]
  | cons link later ih =>
    obtain ⟨hJoins, hLater⟩ := List.forall_mem_cons.1 h
    rw [List.foldl_cons, ih hLater, labels_binary hJoins, List.flatMap_cons, List.append_assoc]

/-- Commands that are joined remain in their order. -/
theorem labels_joinCommands (h : joinCommands sorts first more = .ok t) :
    t.labels none =
      first.labels none ++ more.flatMap (fun operand => operand.2.labels none) := by
  obtain ⟨⟨start, later⟩, hPipelines, h⟩ := Descent.bind_ok.1 h
  cases h
  obtain ⟨hJoins, hLabels⟩ := labels_pipelines hPipelines
  rw [← hLabels]
  exact labels_foldl hJoins

-- ---------------------------------------------------------------------------
-- The tree of a production
-- ---------------------------------------------------------------------------

/-- The productions `ids` have trees, and the walks of these come upon `found`. -/
def Covers (trees : ProductionId → Except Failure Tree) (ids : List ProductionId)
    (found : List Label) : Prop :=
  ∃ ts, List.Forall₂ (fun id t => trees id = .ok t) ids ts ∧ found = ts.flatMap (labels none)

theorem covers_nil : Covers trees [] [] :=
  ⟨[], .nil, rfl⟩

theorem covers_singleton {id : ProductionId} (h : trees id = .ok t) :
    Covers trees [id] (t.labels none) :=
  ⟨[t], .cons h .nil, by rw [List.flatMap_singleton]⟩

theorem Covers.append {ids ids' : List ProductionId} {found found' : List Label}
    (h : Covers trees ids found) (h' : Covers trees ids' found') :
    Covers trees (ids ++ ids') (found ++ found') := by
  obtain ⟨ts, hTrees, rfl⟩ := h
  obtain ⟨ts', hTrees', rfl⟩ := h'
  exact ⟨ts ++ ts', List.rel_append hTrees hTrees', by rw [List.flatMap_append]⟩

/-- Where computing a list one by one succeeds, each of its elements does. -/
theorem forall₂_of_mapM {α β ε : Type} {f : α → Except ε β} {as : List α} {bs : List β}
    (h : as.mapM f = .ok bs) : List.Forall₂ (fun a b => f a = .ok b) as bs := by
  induction as generalizing bs with
  | nil =>
    cases h
    exact .nil
  | cons a as ih =>
    rw [List.mapM_cons] at h
    obtain ⟨b, hFirst, h⟩ := Descent.bind_ok.1 h
    obtain ⟨rest, hRest, h⟩ := Descent.bind_ok.1 h
    cases h
    exact .cons hFirst (ih hRest)

/-- Trees that are made one by one, each out of some productions. -/
theorem covers_flatMap {α : Type} {f : α → Except Failure Tree} {ids : α → List ProductionId}
    {as : List α} {ts : List Tree} (h : List.Forall₂ (fun a t => f a = .ok t) as ts)
    (hEach : ∀ a ∈ as, ∀ t, f a = .ok t → Covers trees (ids a) (t.labels none)) :
    Covers trees (as.flatMap ids) (ts.flatMap (labels none)) := by
  induction h with
  | nil => exact covers_nil
  | cons hFirst _ ih =>
    obtain ⟨hHead, hTail⟩ := List.forall_mem_cons.1 hEach
    rw [List.flatMap_cons, List.flatMap_cons]
    exact (hHead _ hFirst).append (ih hTail)

theorem length_everyOther {α : Type} (as : List α) :
    (everyOther as).length = (as.length + 1) / 2 := by
  fun_induction everyOther as with
  | case1 => simp
  | case2 => simp
  | case3 a b rest ih =>
    simp only [List.length_cons, ih]
    omega

/-- An item has an operator for each command but the first. -/
theorem length_le_everyOther_tail {α : Type} {as : List α} {n : Nat}
    (h : (everyOther as).length = n + 1) : n ≤ (everyOther as.tail).length := by
  rw [length_everyOther] at h
  rw [length_everyOther, List.length_tail]
  omega

/-- The productions of an item are at its even places. -/
theorem filterMap_everyOther (h : Alternates form item) :
    (everyOther item).filterMap Part.id? = item.filterMap Part.id? := by
  fun_induction everyOther item with
  | case1 => rfl
  | case2 => rfl
  | case3 a b rest ih =>
    obtain ⟨t, rfl, -⟩ : ∃ t, b = .token t ∧ _ := h 1 b rfl
    have hRest : Alternates form rest := by
      intro i part hPart
      have hTurn := h (i + 2) part hPart
      rwa [Nat.add_mod_right] at hTurn
    have hSkip : (Part.token t :: rest).filterMap Part.id? = rest.filterMap Part.id? := rfl
    rw [List.filterMap_cons, List.filterMap_cons, ih hRest, hSkip]

theorem covers_buildItem (hTurns : Alternates form item)
    (h : buildItem sorts trees item = .ok t) :
    Covers trees (item.filterMap Part.id?) (t.labels none) := by
  obtain ⟨commands, hCommands, h⟩ := Descent.bind_ok.1 h
  change (everyOther item).mapM (Machine.commandTree trees) = _ at hCommands
  have hForall := forall₂_of_mapM hCommands
  have hCovers : Covers trees ((everyOther item).flatMap fun part => part.id?.toList)
      (commands.flatMap (labels none)) := by
    refine covers_flatMap hForall fun part _ t hPart => ?_
    cases part with
    | token => cases hPart
    | child id => exact covers_singleton hPart
  rw [← List.filterMap_eq_flatMap_toList, filterMap_everyOther hTurns] at hCovers
  cases commands with
  | nil => cases h
  | cons first more =>
    have hOperators := length_le_everyOther_tail (hForall.length_eq.trans List.length_cons)
    have hMore : ((everyOther item.tail).zip more).flatMap
        (fun operand => operand.2.labels none) = more.flatMap (labels none) := by
      rw [← List.flatMap_map, List.map_snd_zip hOperators]
    rwa [labels_joinCommands h, hMore]

theorem labels_of_buildNode {children : List Tree} {quote : Option Text}
    {parent : Option Tree.Kind} (hKind : kind ≠ .assignment)
    (h : buildNode kind children quote = .ok t) :
    t.labels parent = (kind.label? parent).toList ++ children.flatMap (labels none) := by
  cases children with
  | nil => cases h
  | cons first rest =>
    cases h
    rw [labels_node, labels_below hKind]

theorem covers_pieces {role : WordRole} {parts : List Part} {ts : List Tree}
    (h : parts.mapM (Machine.pieceTree role trees) = .ok ts) :
    Covers trees (parts.filterMap Part.id?) (ts.flatMap (labels none)) := by
  rw [List.filterMap_eq_flatMap_toList]
  refine covers_flatMap (forall₂_of_mapM h) fun part _ t hPart => ?_
  cases part with
  | child id => exact covers_singleton hPart
  | token token =>
    cases hPart
    rw [labels_leaf]
    cases role <;> exact covers_nil

/-- What the trees of its parts are below, as far as it matters. -/
def Label.above : Label → Option Tree.Kind
  | .assignment => some .assignment
  | _ => none

theorem covers_build {p : Production} {parent : Option Tree.Kind} (hSound : p.Sound form)
    (hComplete : p.Complete) (hParent : p.label = .value → parent = some .assignment)
    (hLabel : p.label ≠ .assignment) (h : p.build sorts trees = .ok t) :
    ∃ found, Covers trees p.children found ∧ t.labels parent = p.label :: found := by
  cases p with
  | blank => cases h
  | assignment name value => exact absurd rfl hLabel
  | sequence nested items current =>
    obtain ⟨-, rfl⟩ := hComplete
    obtain ⟨ts, hItems, h⟩ := Descent.bind_ok.1 h
    refine ⟨ts.flatMap (labels none), ?_, labels_of_buildNode (by simp) h⟩
    rw [children, List.append_nil, List.filterMap_flatten, ← List.flatMap_def]
    exact covers_flatMap (forall₂_of_mapM hItems) fun item hItem t =>
      covers_buildItem (hSound.2 item hItem).turns
  | command parts =>
    obtain ⟨ts, hParts, h⟩ := Descent.bind_ok.1 h
    exact ⟨_, ⟨ts, forall₂_of_mapM hParts, rfl⟩, labels_of_buildNode (by simp) h⟩
  | word role parts =>
    have hKind : (role.kind.label? parent).toList = [(word role parts).label] := by
      cases role with
      | argument => rfl
      | value =>
        rw [hParent rfl]
        rfl
    change buildWord trees role parts = _ at h
    unfold buildWord at h
    split at h
    · cases h
      exact ⟨[], covers_nil, by rw [labels_leaf, hKind]⟩
    · obtain ⟨ts, hParts, h⟩ := Descent.bind_ok.1 h
      refine ⟨_, covers_pieces hParts, ?_⟩
      rw [labels_of_buildNode (by cases role <;> simp [WordRole.kind]) h, hKind]
      rfl
  | quotation opener parts =>
    cases opener with
    | none => cases h
    | some opener =>
      change buildQuotation opener parts = _ at h
      refine ⟨[], covers_nil, ?_⟩
      unfold buildQuotation at h
      rw [labels_of_buildNode (by simp) h, List.flatMap_map,
        List.flatMap_eq_nil_iff.2 fun t _ => labels_leaf none .stringPart t none]
      rfl
  | substitution parts =>
    obtain ⟨inner, rfl, -⟩ := hSound
    obtain ⟨tree, hInner, h⟩ := Descent.bind_ok.1 h
    cases h
    refine ⟨_, covers_singleton hInner, ?_⟩
    rw [labels_node, labels_below (by simp), List.flatMap_singleton]
    rfl

theorem label_eq_assignment {p : Production} (h : p.label = .assignment) :
    ∃ name value, p = assignment name value := by
  cases p with
  | assignment name value => exact ⟨name, value, rfl⟩
  | word role parts => cases role <;> cases h
  | _ => cases h

/-- The value of an assignment is behind its name, which comes from no production. -/
theorem labels_of_build_assignment {p : Production} {parent : Option Tree.Kind}
    (hLabel : p.label = .assignment) (h : p.build sorts trees = .ok t) :
    ∃ ts, List.Forall₂ (fun id t => trees id = .ok t) p.children ts ∧
      t.labels parent = p.label :: ts.flatMap (labels p.label.above) := by
  obtain ⟨name, value, rfl⟩ := label_eq_assignment hLabel
  cases name with
  | none => cases h
  | some name =>
    cases value with
    | none =>
      cases h
      refine ⟨[], .nil, ?_⟩
      rw [labels_node, List.flatMap_singleton, labels_leaf]
      rfl
    | some value =>
      obtain ⟨tree, hValue, h⟩ := Descent.bind_ok.1 h
      cases h
      refine ⟨[tree], .cons hValue .nil, ?_⟩
      rw [labels_node, List.flatMap_cons, labels_leaf]
      rfl

/-- The walk of the tree of a production comes upon the production first, and then upon what it
has recorded. -/
theorem labels_of_build {p : Production} {parent : Option Tree.Kind} (hSound : p.Sound form)
    (hComplete : p.Complete) (hParent : p.label = .value → parent = some .assignment)
    (h : p.build sorts trees = .ok t) :
    ∃ ts, List.Forall₂ (fun id t => trees id = .ok t) p.children ts ∧
      t.labels parent = p.label :: ts.flatMap (labels p.label.above) := by
  by_cases hLabel : p.label = .assignment
  · exact labels_of_build_assignment hLabel h
  · obtain ⟨_, ⟨ts, hTrees, rfl⟩, hLabels⟩ := covers_build hSound hComplete hParent hLabel h
    have hAbove : p.label.above = none := by
      revert hLabel
      cases p.label <;> simp [Label.above]
    exact ⟨ts, hTrees, by rw [hLabels, hAbove]⟩

end Production

-- ---------------------------------------------------------------------------
-- The tree of a token list
-- ---------------------------------------------------------------------------

namespace Machine

variable {m : Machine} {parent : Label} {lo hi fuel : Nat} {ids : List ProductionId}
  {ts : List Tree} {form : ProductionId → Production} {tokens : List Token} {limit : Int}
  {tree : Tree}

/-- The walk of trees whose productions are numbered in order comes upon these by their
numbers. -/
theorem Spans.labels (h : Spans m parent lo ids hi)
    (hSound : ∀ id < hi, (m.production id).Sound form ∧ (m.production id).Complete)
    (hTrees : List.Forall₂ (fun id t => m.treeWithin fuel id = .ok t) ids ts) :
    ts.flatMap (Tree.labels parent.above) = (List.Ico lo hi).map m.label := by
  induction h generalizing fuel ts with
  | nil =>
    cases hTrees
    rw [List.Ico.self_empty]
    rfl
  | @cons parent id mid hi rest hParent hInside hRest ihInside ihRest =>
    have hMid := hInside.le
    have hHi := hRest.le
    cases hTrees with
    | @cons _ t _ more hTree hMore =>
      cases fuel with
      | zero => cases hTree
      | succ fuel =>
        obtain ⟨hIdSound, hIdComplete⟩ := hSound id (by omega)
        have hAbove (hValue : m.label id = .value) : parent.above = some .assignment := by
          rw [hParent hValue]
          rfl
        obtain ⟨below, hBelow, hLabels⟩ :=
          Production.labels_of_build hIdSound hIdComplete hAbove hTree
        have hFirst := ihInside (fun j hj => hSound j (by omega)) hBelow
        have hOthers := ihRest hSound hMore
        calc
          (t :: more).flatMap (Tree.labels parent.above)
              = m.label id :: below.flatMap (Tree.labels (m.label id).above) ++
                  more.flatMap (Tree.labels parent.above) := by
                rw [List.flatMap_cons, hLabels]
                rfl
          _ = (id :: List.Ico (id + 1) mid ++ List.Ico mid hi).map m.label := by
                rw [hFirst, hOthers, List.map_append, List.map_cons]
          _ = (List.Ico id hi).map m.label := by
                rw [List.cons_append, List.Ico.append_consecutive hMid hHi,
                  ← List.Ico.eq_cons (by omega)]

theorem map_label_range (m : Machine) :
    (List.range m.productions.length).map m.label = m.productions.map Production.label := by
  refine List.ext_getElem (by simp) fun i hi _ => ?_
  have hMade : i < m.productions.length := by simpa using hi
  simp [label, production, hMade]

/-- What it takes to have a tree: the outermost sequence is opened, the run succeeds, and its
tree can be built. -/
theorem readTree_ok {start : Machine} (h : readTree start = .ok tree m) :
    ∃ root first, spawn (.freshSequence false) start = .ok root first ∧
      run first = .ok () m ∧ m.tree root = .ok tree := by
  simp only [readTree, bind_ok, get_ok] at h
  obtain ⟨root, first, hSpawn, _, last, hRun, _, _, ⟨rfl, rfl⟩, h⟩ := h
  refine ⟨root, first, hSpawn, ?_⟩
  cases hLast : last.cursor.last? with
  | none =>
    rw [hLast] at h
    exact absurd h throw_ok
  | some t =>
    rw [hLast] at h
    dsimp only at h
    split at h
    · exact absurd h throw_ok
    cases hRest : last.cursor.rest with
    | cons next more =>
      rw [hRest] at h
      exact absurd h throw_ok
    | nil =>
      rw [hRest] at h
      cases hTree : last.tree root with
      | error why =>
        rw [hTree] at h
        cases h
      | ok built =>
        rw [hTree] at h
        cases h
        exact ⟨hRun, hTree⟩

/-- The walk of the tree of a token list comes upon the productions in the order in which they
were made. -/
theorem labels_of_readTree (h : readTree (.start tokens limit) = .ok tree m) :
    m.stack = [] ∧ tree.labels none = m.productions.map Production.label := by
  obtain ⟨root, first, hSpawn, hRun, hTree⟩ := readTree_ok h
  obtain ⟨rfl, -⟩ := Orderly.start hSpawn
  obtain ⟨hOrderly, hEmpty, hSpans⟩ := spans_of_run hSpawn hRun
  refine ⟨hEmpty, ?_⟩
  have hSound (id : Nat) (hId : id < m.productions.length) :
      (m.production id).Sound m.form ∧ (m.production id).Complete :=
    ⟨hOrderly.sound id hId, hOrderly.closed id hId (by simp [hEmpty])⟩
  have hLabels := hSpans.labels hSound (.cons hTree .nil)
  rwa [List.flatMap_singleton, List.Ico.zero_bot, map_label_range] at hLabels

end Machine

end ShellReader
