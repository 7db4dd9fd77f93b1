import ShellReader.Proofs.Likeness

/-!
# ShellReader — two machines side by side

Two machines are at work on alike token lists. They do the same all along: they read as many
tokens, open and close the same productions, and come to alike trees or to alike failures.

## Results

* `Likeness.handle_like`, `Likeness.run_like` — alike machines remain alike, in a step and in
  a run.
* `Likeness.build_like`, `Likeness.tree_like` — the trees of alike productions are alike.
* `Likeness.readTree_like` — alike token lists are read alike.
-/

namespace ShellReader.Likeness

open Production (Response)

variable {L : Likeness}

-- ---------------------------------------------------------------------------
-- Machines
-- ---------------------------------------------------------------------------

/-- Alike machines: at the same place of alike token lists, with alike productions and the same
stack. What they have logged does not count. -/
structure LikeMachine (L : Likeness) (m m' : Machine) : Prop where
  done        : List.Forall₂ L.token m.cursor.done m'.cursor.done
  rest        : L.LikeTokens m.cursor.rest m'.cursor.rest
  limit       : m'.limit = m.limit
  productions : List.Forall₂ L.LikeProduction m.productions m'.productions
  stack       : m'.stack = m.stack

/-- Alike results: both succeed with related values or both fail alike, and leave alike machines
behind. -/
inductive LikeResult (L : Likeness) {α β : Type} (R : α → β → Prop) :
    EStateM.Result Failure Machine α → EStateM.Result Failure Machine β → Prop where
  | ok {a : α} {b : β} {m m' : Machine} (hValue : R a b) (hMachine : L.LikeMachine m m') :
      LikeResult L R (.ok a m) (.ok b m')
  | error {why why' : Failure} {m m' : Machine} (hWhy : L.LikeFailure why why')
      (hMachine : L.LikeMachine m m') : LikeResult L R (.error why m) (.error why' m')

section Machines

variable {α β γ δ : Type} {R : α → β → Prop} {m m' : Machine}

theorem getElem?_like {as : List α} {bs : List β} (h : List.Forall₂ R as bs) (i : Nat) :
    Option.Rel R as[i]? bs[i]? := by
  induction h generalizing i with
  | nil => exact .none
  | cons hHead _ ih =>
    cases i with
    | zero => exact .some hHead
    | succ i => exact ih i

theorem set_like {as : List α} {bs : List β} {a : α} {b : β} (h : List.Forall₂ R as bs)
    (i : Nat) (hNew : R a b) : List.Forall₂ R (as.set i a) (bs.set i b) := by
  induction h generalizing i with
  | nil => exact .nil
  | cons hHead hTail ih =>
    cases i with
    | zero => exact .cons hNew hTail
    | succ i => exact .cons hHead (ih i)

namespace LikeMachine

theorem production (h : L.LikeMachine m m') (id : ProductionId) :
    L.LikeProduction (m.production id) (m'.production id) := by
  unfold Machine.production
  have hPlace := getElem?_like h.productions id
  generalize m.productions[id]? = p at hPlace ⊢
  generalize m'.productions[id]? = p' at hPlace ⊢
  cases hPlace with
  | none => exact .blank
  | some hp => exact hp

theorem label (h : L.LikeMachine m m') (id : ProductionId) : m'.label id = m.label id :=
  (h.production id).label

theorem last? (h : L.LikeMachine m m') : Option.Rel L.token m.cursor.last? m'.cursor.last? := by
  rw [Cursor.last?, Cursor.last?, List.head?_eq_getElem?, List.head?_eq_getElem?]
  exact getElem?_like h.done 0

theorem missingEnd (h : L.LikeMachine m m') :
    L.LikeFailure (.fault m.cursor.missingEnd) (.fault m'.cursor.missingEnd) :=
  .fault (.same _) h.last?

theorem update (h : L.LikeMachine m m') (id : ProductionId) {p p' : Production}
    (hp : L.LikeProduction p p') : L.LikeMachine (m.update id p) (m'.update id p') :=
  ⟨h.done, h.rest, h.limit, set_like h.productions id hp, h.stack⟩

theorem remark (h : L.LikeMachine m m') (id : ProductionId)
    (comment comment' : Option Production.Remark) :
    L.LikeMachine (m.remark id comment) (m'.remark id comment') := by
  constructor
  · simpa using h.done
  · simpa using h.rest
  · simpa using h.limit
  · simpa using h.productions
  · simpa using h.stack

theorem skip (h : L.LikeMachine m m') (n : Nat) : L.LikeMachine (m.skip n) (m'.skip n) := by
  obtain ⟨⟨done, rest⟩, limit, productions, stack, log⟩ := m
  obtain ⟨⟨done', rest'⟩, limit', productions', stack', log'⟩ := m'
  induction n generalizing done rest done' rest' with
  | zero => exact h
  | succ n ih =>
    obtain ⟨hDone, hRest, hLimit, hProductions, hStack⟩ := h
    cases hRest with
    | nil => exact ⟨hDone, .nil, hLimit, hProductions, hStack⟩
    | cons ht _ hMore => exact ih _ _ _ _ ⟨.cons ht hDone, hMore, hLimit, hProductions, hStack⟩

end LikeMachine

/-- Two computations, each behind one of two that are alike. -/
theorem LikeResult.bind {S : γ → δ → Prop} {x : Step α} {y : Step β} {f : α → Step γ}
    {g : β → Step δ} (h : L.LikeResult R (x m) (y m'))
    (hNext : ∀ a b next next', x m = .ok a next → R a b → L.LikeMachine next next' →
      L.LikeResult S (f a next) (g b next')) :
    L.LikeResult S ((x >>= f) m) ((y >>= g) m') := by
  simp only [Bind.bind, EStateM.bind]
  generalize x m = r at h hNext ⊢
  generalize y m' = r' at h ⊢
  cases h with
  | ok hValue hMachine => exact hNext _ _ _ _ rfl hValue hMachine
  | error hWhy hMachine => exact .error hWhy hMachine

/-- Two computations that look at their machines and go by what they see. -/
theorem get_bind_like {f : Machine → Step α} {g : Machine → Step β}
    (h : L.LikeResult R (f m m) (g m' m')) :
    L.LikeResult R ((get >>= f) m) ((get >>= g) m') := h

theorem modify_like {f g : Machine → Machine} (h : L.LikeMachine (f m) (g m')) :
    L.LikeResult Eq ((modify f : Step PUnit) m) ((modify g : Step PUnit) m') :=
  .ok rfl h

theorem throw_like {why why' : Failure} (h : L.LikeMachine m m') (hWhy : L.LikeFailure why why') :
    L.LikeResult R ((throw why : Step α) m) ((throw why' : Step β) m') :=
  .error hWhy h

theorem pure_like {a : α} {b : β} (h : L.LikeMachine m m') (hValue : R a b) :
    L.LikeResult R ((pure a : Step α) m) ((pure b : Step β) m') :=
  .ok hValue h

-- ---------------------------------------------------------------------------
-- Operations
-- ---------------------------------------------------------------------------

theorem current_like (h : L.LikeMachine m m') :
    L.LikeResult L.token (Machine.current m) (Machine.current m') := by
  have hRest := h.rest
  have hMissing := h.missingEnd
  unfold Machine.current Cursor.current
  generalize m.cursor.rest = rest at hRest ⊢
  generalize m'.cursor.rest = rest' at hRest ⊢
  cases hRest with
  | nil => exact .error hMissing h
  | cons ht _ _ => exact .ok ht h

theorem consume_like (h : L.LikeMachine m m') :
    L.LikeResult L.token (Machine.consume m) (Machine.consume m') := by
  refine (current_like h).bind fun t u next next' _ ht hNext => ?_
  exact (modify_like (hNext.skip 1)).bind fun _ _ _ _ _ _ hLast => pure_like hLast ht

theorem expect_like (h : L.LikeMachine m m') (kind : Token.Kind) :
    L.LikeResult L.token (Machine.expect kind m) (Machine.expect kind m') := by
  refine (current_like h).bind fun t u next next' _ ht hNext => ?_
  rw [L.kind_eq ht]
  split
  · exact consume_like hNext
  · exact throw_like hNext (.fault (.same _) (.some ht))

theorem starve_like (h : L.LikeMachine m m') :
    L.LikeResult R (Machine.starve m) (Machine.starve m') := by
  have hSkip := h.skip m.cursor.rest.length
  unfold Machine.starve
  rw [h.rest.length_eq]
  exact .error hSkip.missingEnd hSkip

theorem push_like (h : L.LikeMachine m m') (id : ProductionId) :
    L.LikeResult Eq (Machine.push id m) (Machine.push id m') := by
  show L.LikeResult Eq
    ((if m.limit ≤ m.stack.length then _ else _ : Step Unit) m)
    ((if m'.limit ≤ m'.stack.length then _ else _ : Step Unit) m')
  rw [h.limit, h.stack]
  split
  · refine (current_like h).bind fun t u next next' _ ht hNext => ?_
    exact throw_like hNext (.fault (.same _) (.some ht))
  · exact .ok rfl ⟨h.done, h.rest, rfl, h.productions, rfl⟩

theorem pop_like (h : L.LikeMachine m m') (id : ProductionId) :
    L.LikeResult Eq (Machine.pop id m) (Machine.pop id m') := by
  cases hStack : m.stack with
  | nil =>
    rw [Machine.pop_empty hStack, Machine.pop_empty (h.stack.trans hStack)]
    exact .error (.misuse (by simp)) h
  | cons top below =>
    have hStack' : m'.stack = top :: below := h.stack.trans hStack
    by_cases hTop : top = id
    · subst hTop
      rw [Machine.pop_ok (u := ()).2 ⟨below, hStack, rfl⟩,
        Machine.pop_ok (u := ()).2 ⟨below, hStack', rfl⟩]
      exact .ok rfl ⟨h.done, h.rest, h.limit, h.productions, rfl⟩
    · rw [Machine.pop_other hStack hTop, Machine.pop_other hStack' hTop, h.label, h.label]
      exact .error (.misuse (by simp)) h

theorem place_like (h : L.LikeMachine m m') {p p' : Production} (hp : L.LikeProduction p p') :
    L.LikeResult Eq (Machine.place p m) (Machine.place p' m') := by
  have hMake : L.LikeResult Eq (Machine.make p m) (Machine.make p' m') :=
    .ok h.productions.length_eq
      ⟨h.done, h.rest, h.limit, concat_like h.productions hp, h.stack⟩
  refine hMake.bind fun id id' next next' _ hId hNext => ?_
  obtain rfl := hId
  exact (push_like hNext id).bind fun _ _ _ _ _ _ hLast => pure_like hLast rfl

theorem freshSequence_like (nested : Bool) :
    L.LikeProduction (.freshSequence nested) (.freshSequence nested) :=
  .sequence nested .nil .nil

theorem enter_like (h : L.LikeMachine m m') (id : ProductionId) :
    L.LikeResult Eq (Machine.enter id m) (Machine.enter id m') := by
  have hp := h.production id
  refine get_bind_like ?_
  generalize m.production id = p at hp ⊢
  generalize m'.production id = p' at hp ⊢
  cases hp with
  | assignment hName value =>
    refine (expect_like h .word).bind fun t u next next' _ ht hNext => ?_
    have hNamed : L.LikeProduction (.assignment (some t) value) (.assignment (some u) value) :=
      .assignment (.some ht) value
    refine (modify_like (hNext.update id hNamed)).bind fun _ _ _ _ _ _ hMid => ?_
    exact (expect_like hMid .equals).bind fun _ _ _ _ _ _ hLast => pure_like hLast rfl
  | quotation hOpener hParts =>
    refine (consume_like h).bind fun t u next next' _ ht hNext => ?_
    exact modify_like ((hNext.update id (.quotation (.some ht) hParts)).remark id _ _)
  | substitution parts =>
    refine (expect_like h .dollar).bind fun _ _ _ _ _ _ hFirst => ?_
    refine (expect_like hFirst .leftParenthesis).bind fun _ _ _ _ _ _ hSecond => ?_
    refine (place_like hSecond (freshSequence_like true)).bind
      fun inner inner' _ _ _ hInner hLast => ?_
    obtain rfl := hInner
    exact modify_like (hLast.update id (.substitution _))
  | blank => exact pure_like h rfl
  | sequence => exact pure_like h rfl
  | command parts => exact pure_like h rfl
  | word => exact pure_like h rfl

theorem spawn_like (h : L.LikeMachine m m') {p p' : Production} (hp : L.LikeProduction p p') :
    L.LikeResult Eq (Machine.spawn p m) (Machine.spawn p' m') := by
  refine (place_like h hp).bind fun id id' next next' _ hId hNext => ?_
  obtain rfl := hId
  exact (enter_like hNext id).bind fun _ _ _ _ _ _ hLast => pure_like hLast rfl

theorem perform_like (h : L.LikeMachine m m') (id : ProductionId) {p p' : Production}
    (hp : L.LikeProduction p p') {r r' : Response} (hr : L.LikeResponse r r') :
    L.LikeResult Eq (Machine.perform id p r m) (Machine.perform id p' r' m') := by
  cases hr with
  | fail hWhy => exact throw_like h hWhy
  | starve => exact starve_like h
  | advance count hNext comment leave =>
    have hRead := ((h.skip count).update id hNext).remark id comment comment
    refine (modify_like hRead).bind fun _ _ _ _ _ _ hLast => ?_
    split
    · exact pop_like hLast id
    · exact pure_like hLast rfl
  | spawn hChild =>
    refine (spawn_like h hChild).bind fun opened opened' _ _ _ hOpened hLast => ?_
    obtain rfl := hOpened
    exact modify_like (hLast.update id (hp.adopt opened))

/-- Alike machines remain alike when a production reads on. -/
theorem handle_like (h : L.LikeMachine m m') (id : ProductionId) :
    L.LikeResult Eq (Machine.handle id m) (Machine.handle id m') := by
  have hp := h.production id
  have hr := respond_like m.limit hp h.rest
  show L.LikeResult Eq
    (Machine.perform id (m.production id) ((m.production id).respond m.limit m.cursor.rest) m)
    (Machine.perform id (m'.production id)
      ((m'.production id).respond m'.limit m'.cursor.rest) m')
  rw [h.limit]
  exact perform_like h id hp hr

theorem handleTop_like (h : L.LikeMachine m m') :
    L.LikeResult Eq (Machine.handleTop m) (Machine.handleTop m') := by
  refine get_bind_like ?_
  rw [h.stack]
  cases m.stack with
  | nil => exact throw_like h (.misuse (by simp))
  | cons top below => exact handle_like h top

/-- Alike machines remain alike for a whole run. -/
theorem run_like (h : L.LikeMachine m m') :
    L.LikeResult Eq (Machine.run m) (Machine.run m') := by
  induction hPotential : m.potential using Nat.strongRecOn generalizing m m' with
  | ind n ih =>
    rw [Machine.run_eq, Machine.run_eq, h.stack]
    split
    · exact .ok rfl h
    · refine (handleTop_like h).bind fun _ _ next next' hTop _ hNext => ?_
      exact ih next.potential (hPotential ▸ Machine.potential_handleTop hTop) hNext rfl

end Machines

-- ---------------------------------------------------------------------------
-- Trees
-- ---------------------------------------------------------------------------

/-- Alike trees: the same kinds all over, with alike tokens and quotes. -/
inductive LikeTree (L : Likeness) : Tree → Tree → Prop where
  | leaf (kind : Tree.Kind) {t u : Token} (hToken : L.token t u) :
      LikeTree L (.leaf kind t none) (.leaf kind u none)
  | node (kind : Tree.Kind) {first first' : Tree} {rest rest' : List Tree}
      {quote quote' : Option Text} (hFirst : LikeTree L first first')
      (hRest : List.Forall₂ (LikeTree L) rest rest') (hQuote : Option.Rel L.text quote quote') :
      LikeTree L (.node kind first rest quote) (.node kind first' rest' quote')

/-- Alike outcomes: both succeed with related values, or both fail alike. -/
inductive LikeOutcome (L : Likeness) {α β : Type} (R : α → β → Prop) :
    Except Failure α → Except Failure β → Prop where
  | ok {a : α} {b : β} (h : R a b) : LikeOutcome L R (.ok a) (.ok b)
  | error {why why' : Failure} (h : L.LikeFailure why why') :
      LikeOutcome L R (.error why) (.error why')

section Trees

variable {α β γ δ : Type} {R : α → β → Prop} {S : γ → δ → Prop}
  {label : ProductionId → Production.Label} {tree tree' : ProductionId → Except Failure Tree}

theorem LikeOutcome.bind {x : Except Failure α} {y : Except Failure β}
    {f : α → Except Failure γ} {g : β → Except Failure δ} (h : L.LikeOutcome R x y)
    (hNext : ∀ a b, R a b → L.LikeOutcome S (f a) (g b)) :
    L.LikeOutcome S (x >>= f) (y >>= g) := by
  cases h with
  | ok h => exact hNext _ _ h
  | error h => exact .error h

theorem mapM_like {as : List α} {bs : List β} {f : α → Except Failure γ}
    {g : β → Except Failure δ} (h : List.Forall₂ R as bs)
    (hEach : ∀ a b, R a b → L.LikeOutcome S (f a) (g b)) :
    L.LikeOutcome (List.Forall₂ S) (as.mapM f) (bs.mapM g) := by
  induction h with
  | nil => exact .ok .nil
  | cons hHead _ ih =>
    rw [List.mapM_cons, List.mapM_cons]
    refine (hEach _ _ hHead).bind fun _ _ hFirst => ih.bind fun _ _ hRest => ?_
    exact .ok (.cons hFirst hRest)

theorem binary_like (kind : Tree.Kind) {left left' right right' : Tree}
    (hLeft : L.LikeTree left left') (hRight : L.LikeTree right right') :
    L.LikeTree (Production.binary kind left right) (Production.binary kind left' right') :=
  .node kind (.node .lhs hLeft .nil .none) (.cons (.node .rhs hRight .nil .none) .nil) .none

/-- An operator and the command behind it. -/
structure LikeOperand (L : Likeness) (a b : Part × Tree) : Prop where
  operator : L.LikePart a.1 b.1
  command  : L.LikeTree a.2 b.2

/-- A pipeline and the kind that joins it to what is before it. -/
structure LikeLink (L : Likeness) (a b : Tree.Kind × Tree) : Prop where
  kind : b.1 = a.1
  tree : L.LikeTree a.2 b.2

theorem pipelines_like {first first' : Tree} {more more' : List (Part × Tree)}
    (hFirst : L.LikeTree first first') (h : List.Forall₂ L.LikeOperand more more') :
    L.LikeOutcome (fun a b => L.LikeTree a.1 b.1 ∧ List.Forall₂ L.LikeLink a.2 b.2)
      (Production.pipelines label first more) (Production.pipelines label first' more') := by
  induction h generalizing first first' with
  | nil => exact .ok ⟨hFirst, .nil⟩
  | @cons a b _ _ hHead _ ih =>
    obtain ⟨part, operand⟩ := a
    obtain ⟨part', operand'⟩ := b
    obtain ⟨hPart, hOperand⟩ := hHead
    cases hPart with
    | child id => exact .error (.misuse (by simp))
    | @token t u ht =>
      rw [Production.pipelines, Production.pipelines, L.kind_eq ht]
      split
      · exact ih (binary_like .pipe hFirst hOperand)
      · refine (ih hOperand).bind fun _ _ hLater => ?_
        exact .ok ⟨hFirst, .cons ⟨rfl, hLater.1⟩ hLater.2⟩

theorem joinAll_like {later later' : List (Tree.Kind × Tree)} {start start' : Tree}
    (hStart : L.LikeTree start start') (h : List.Forall₂ L.LikeLink later later') :
    L.LikeTree (later.foldl (fun left (kind, right) => Production.binary kind left right) start)
      (later'.foldl (fun left (kind, right) => Production.binary kind left right) start') := by
  induction h generalizing start start' with
  | nil => exact hStart
  | @cons a b _ _ hHead _ ih =>
    obtain ⟨kind, right⟩ := a
    obtain ⟨kind', right'⟩ := b
    obtain rfl : kind' = kind := hHead.kind
    exact ih (binary_like kind' hStart hHead.tree)

theorem everyOther_like {as : List α} {bs : List β} (h : List.Forall₂ R as bs) :
    List.Forall₂ R (Production.everyOther as) (Production.everyOther bs) := by
  fun_induction Production.everyOther as generalizing bs with
  | case1 =>
    cases h
    exact .nil
  | case2 a =>
    cases h with
    | cons hHead hTail =>
      cases hTail
      exact .cons hHead .nil
  | case3 a _ rest ih =>
    cases h with
    | cons hHead hTail =>
      cases hTail with
      | cons _ hRest => exact .cons hHead (ih hRest)

theorem zip_like {parts parts' : List Part} {trees trees' : List Tree}
    (hParts : L.LikeParts parts parts') (hTrees : List.Forall₂ L.LikeTree trees trees') :
    List.Forall₂ L.LikeOperand (parts.zip trees) (parts'.zip trees') := by
  induction hParts generalizing trees trees' with
  | nil => exact .nil
  | cons hPart _ ih =>
    cases hTrees with
    | nil => exact .nil
    | cons hTree hTrees => exact .cons ⟨hPart, hTree⟩ (ih hTrees)

section Build

variable (hTrees : ∀ id, L.LikeOutcome L.LikeTree (tree id) (tree' id))
include hTrees

theorem buildItem_like {item item' : List Part} (h : L.LikeParts item item') :
    L.LikeOutcome L.LikeTree (Production.buildItem label tree item)
      (Production.buildItem label tree' item') := by
  have hTail : L.LikeParts item.tail item'.tail := by
    cases h with
    | nil => exact .nil
    | cons _ hTail => exact hTail
  have hCommands : L.LikeOutcome (List.Forall₂ L.LikeTree)
      ((Production.everyOther item).mapM (Machine.commandTree tree))
      ((Production.everyOther item').mapM (Machine.commandTree tree')) := by
    refine mapM_like (everyOther_like h) fun part part' hPart => ?_
    cases hPart with
    | token _ => exact .error (.misuse (by simp))
    | child id => exact hTrees id
  refine hCommands.bind fun commands commands' hCommands => ?_
  cases hCommands with
  | nil => exact .error (.misuse (by simp))
  | cons hFirst hMore =>
    refine (pipelines_like hFirst (zip_like (everyOther_like hTail) hMore)).bind
      fun _ _ hJoined => ?_
    exact .ok (joinAll_like hJoined.1 hJoined.2)

omit hTrees in
theorem buildNode_like (kind : Tree.Kind) {children children' : List Tree}
    (h : List.Forall₂ L.LikeTree children children') {quote quote' : Option Text}
    (hQuote : Option.Rel L.text quote quote') :
    L.LikeOutcome L.LikeTree (Production.buildNode kind children quote)
      (Production.buildNode kind children' quote') := by
  cases h with
  | nil => exact .error (.misuse (by simp))
  | cons hFirst hRest => exact .ok (.node kind hFirst hRest hQuote)

theorem ids_like (ids : List ProductionId) :
    L.LikeOutcome (List.Forall₂ L.LikeTree) (ids.mapM tree) (ids.mapM tree') := by
  have hSame : List.Forall₂ Eq ids ids := List.forall₂_same.2 fun _ _ => rfl
  refine mapM_like hSame fun id id' hId => ?_
  obtain rfl := hId
  exact hTrees id

theorem buildWord_like (role : WordRole) {parts parts' : List Part}
    (h : L.LikeParts parts parts') :
    L.LikeOutcome L.LikeTree (Production.buildWord tree role parts)
      (Production.buildWord tree' role parts') := by
  -- A token by itself is the whole word; anything else has one child for each part.
  have hPieces : L.LikeOutcome L.LikeTree
      (parts.mapM (Machine.pieceTree role tree) >>= (Production.buildNode role.kind · none))
      (parts'.mapM (Machine.pieceTree role tree') >>=
        (Production.buildNode role.kind · none)) := by
    have hEach : ∀ part part', L.LikePart part part' →
        L.LikeOutcome L.LikeTree (Machine.pieceTree role tree part)
          (Machine.pieceTree role tree' part') := by
      intro part part' hPart
      cases hPart with
      | token ht => exact .ok (.leaf role.partKind ht)
      | child id => exact hTrees id
    exact (mapM_like h hEach).bind fun _ _ hChildren => buildNode_like role.kind hChildren .none
  cases h with
  | nil => exact hPieces
  | cons hPart hMore =>
    cases hPart with
    | child id => exact hPieces
    | token ht =>
      cases hMore with
      | nil => exact .ok (.leaf role.kind ht)
      | cons => exact hPieces

omit hTrees in
theorem buildQuotation_like {opener opener' : Token} (hOpener : L.token opener opener')
    {parts parts' : List Token} (h : List.Forall₂ L.token parts parts') :
    L.LikeOutcome L.LikeTree (Production.buildQuotation opener parts)
      (Production.buildQuotation opener' parts') := by
  have hTokens : List.Forall₂ L.token
      (if parts.isEmpty then [⟨opener.kind, [], opener.offset + 1⟩] else parts)
      (if parts'.isEmpty then [⟨opener'.kind, [], opener'.offset + 1⟩] else parts') := by
    rw [isEmpty_like h]
    split
    · exact .cons (L.behind hOpener) .nil
    · exact h
  refine buildNode_like .string ?_ (.some (L.text_of_token hOpener))
  rw [List.forall₂_map_left_iff, List.forall₂_map_right_iff]
  exact hTokens.imp fun _ _ ht => .leaf .stringPart ht

/-- Alike productions have alike trees, if the productions they refer to have. -/
theorem build_like {p p' : Production} (hp : L.LikeProduction p p') :
    L.LikeOutcome L.LikeTree (p.build label tree) (p'.build label tree') := by
  cases hp with
  | blank => exact .error (.misuse (by simp))
  | sequence nested hItems hCurrent =>
    refine (mapM_like hItems fun _ _ hItem => buildItem_like hTrees hItem).bind
      fun _ _ hChildren => buildNode_like .root hChildren .none
  | command parts =>
    exact (ids_like hTrees parts).bind fun _ _ hChildren => buildNode_like .command hChildren .none
  | assignment hName value =>
    cases hName with
    | none => exact .error (.misuse (by simp))
    | some hName =>
      cases value with
      | none => exact .ok (.node .assignment (.leaf .lhs hName) .nil .none)
      | some value =>
        refine (hTrees value).bind fun _ _ hValue => ?_
        exact .ok (.node .assignment (.leaf .lhs hName) (.cons hValue .nil) .none)
  | word role hParts => exact buildWord_like hTrees role hParts
  | quotation hOpener hParts =>
    cases hOpener with
    | none => exact .error (.misuse (by simp))
    | some hOpener => exact buildQuotation_like hOpener hParts
  | substitution parts =>
    cases parts with
    | nil => exact .error (.misuse (by simp))
    | cons first more =>
      refine (hTrees first).bind fun _ _ hFirst => ?_
      exact .ok (.node .substitution hFirst .nil .none)

end Build

variable {m m' : Machine}

theorem treeWithin_like (h : L.LikeMachine m m') (fuel : Nat) (id : ProductionId) :
    L.LikeOutcome L.LikeTree (m.treeWithin fuel id) (m'.treeWithin fuel id) := by
  induction fuel generalizing id with
  | zero => exact .error (.misuse (by simp))
  | succ fuel ih =>
    have hLabel : m'.label = m.label := funext h.label
    rw [Machine.treeWithin, Machine.treeWithin, hLabel]
    exact build_like ih (h.production id)

/-- Alike machines find alike trees. -/
theorem tree_like (h : L.LikeMachine m m') (id : ProductionId) :
    L.LikeOutcome L.LikeTree (m.tree id) (m'.tree id) := by
  rw [Machine.tree, Machine.tree, h.productions.length_eq]
  exact treeWithin_like h _ id

theorem ofExcept_like {x : Except Failure α} {y : Except Failure β} (h : L.LikeMachine m m')
    (hValue : L.LikeOutcome R x y) :
    L.LikeResult R ((MonadExcept.ofExcept x : Step α) m)
      ((MonadExcept.ofExcept y : Step β) m') := by
  cases hValue with
  | ok hValue => exact .ok hValue h
  | error hWhy => exact .error hWhy h

end Trees

-- ---------------------------------------------------------------------------
-- Whole token lists
-- ---------------------------------------------------------------------------

/-- Alike token lists are read alike. -/
theorem readTree_like {tokens tokens' : List Token} (limit : Int)
    (h : L.LikeTokens tokens tokens') :
    L.LikeResult L.LikeTree (Machine.readTree (.start tokens limit))
      (Machine.readTree (.start tokens' limit)) := by
  have hStart : L.LikeMachine (.start tokens limit) (.start tokens' limit) :=
    ⟨.nil, h, rfl, .nil, rfl⟩
  refine (spawn_like hStart (freshSequence_like false)).bind
    fun root root' first first' _ hRoot hFirst => ?_
  obtain rfl := hRoot
  refine (run_like hFirst).bind fun _ _ m m' _ _ hMachine => get_bind_like ?_
  have hTree := tree_like hMachine root
  have hMissing := hMachine.missingEnd
  have hLast := hMachine.last?
  have hRest := hMachine.rest
  generalize m.cursor.last? = last at hLast ⊢
  generalize m'.cursor.last? = last' at hLast ⊢
  cases hLast with
  | none => exact throw_like hMachine hMissing
  | some ht =>
    dsimp only
    rw [L.kind_eq ht]
    split
    · exact .error hMissing hMachine
    · generalize m.cursor.rest = rest at hRest ⊢
      generalize m'.cursor.rest = rest' at hRest ⊢
      cases hRest with
      | nil => exact ofExcept_like hMachine hTree
      | cons hNext _ _ => exact throw_like hMachine (.fault (.same _) (.some hNext))

end ShellReader.Likeness
