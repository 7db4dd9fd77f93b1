import ShellReader.Proofs.Marking

/-!
# ShellReader — where the tokens of a tree come from

A tree holds tokens of the list it was read from, in their order, and only the part of an
empty string is made up. What the tree leaves out is what it has a form for: quotes,
brackets and `=` show in the sorts of its nodes, operators in the kinds of its nodes, and
layout nowhere.

That nothing is lost, doubled or moved follows from two facts about the marks of a reading.
The marks of leaves give the leaves of the trees (`Marking.Yields.leafTokens`), and every
mark agrees with the token it stands at and with the one behind (`Marking.Yields.fit`).

## Results

* `Marking.Yields.leafTokens` — the leaves of the trees, in order.
* `Mark.Fits.omitted_iff` — which tokens are no leaves, said of the tokens.
* `parseTokens_provenance` — both, for a whole token list.
-/

namespace ShellReader

open Production (atWordEnd binary)

-- ---------------------------------------------------------------------------
-- Leaves of trees
-- ---------------------------------------------------------------------------

namespace Tree

/-- The tokens of terminal trees, in order. -/
def leafTokens (trees : List Tree) : List Token := (walkAll trees).filterMap token?

@[simp] theorem leafTokens_nil : leafTokens [] = [] := by
  simp [leafTokens, walkAll]

@[simp] theorem leafTokens_leaf (kind : Kind) (t : Token) (quote : Option Text)
    (rest : List Tree) : leafTokens (.leaf kind t quote :: rest) = t :: leafTokens rest := by
  simp [leafTokens, walkAll, walk, token?]

@[simp] theorem leafTokens_node (kind : Kind) (first : Tree) (others : List Tree)
    (quote : Option Text) (rest : List Tree) :
    leafTokens (.node kind first others quote :: rest) =
      leafTokens (first :: others) ++ leafTokens rest := by
  rw [leafTokens, leafTokens, leafTokens, walkAll, walkAll, walk, List.cons_append,
    List.filterMap_cons_none rfl, List.filterMap_append]

/-- One tree and those behind it. -/
theorem leafTokens_cons (t : Tree) (rest : List Tree) :
    leafTokens (t :: rest) = leafTokens [t] ++ leafTokens rest := by
  simp [leafTokens, walkAll]

theorem leafTokens_binary (kind : Kind) (left right : Tree) :
    leafTokens [binary kind left right] = leafTokens [left] ++ leafTokens [right] := by
  simp [binary]

theorem leafTokens_wordTree (role : WordRole) (first : Tree) (others : List Tree) :
    leafTokens [Descent.wordTree role first others] = leafTokens (first :: others) := by
  unfold Descent.wordTree
  split <;> simp

theorem leafTokens_leaves (kind : Kind) (ts : List Token) :
    leafTokens (ts.map fun t => .leaf kind t none) = ts := by
  induction ts with
  | nil => rfl
  | cons t ts ih => simp [ih]

end Tree

-- ---------------------------------------------------------------------------
-- Marks and tokens
-- ---------------------------------------------------------------------------

/-- Whether the token belongs to a string. -/
def Role.isInString : Role → Bool
  | quoted | madeUp | quote => true
  | _ => false

namespace Mark

/-- The token is left out of the tree: it is the end; or, outside strings, it separates words,
commands or items or is the backslash of a line continuation; or it is a quote of a string, a
bracket of a substitution or the `=` of an assignment. -/
def Omitted (m : Mark) (behind : List Token) : Prop :=
  m.token.kind = .endOfInput ∨
    (m.role.isInString = false ∧
      m.token.kind ∈ [.space, .newline, .semicolon, .pipe, .andIf, .orIf]) ∨
    (m.role.isInString = false ∧ m.token.kind = .backslash ∧
      behind.head?.map (·.kind) = some .newline) ∨
    (m.role = .quote ∧ m.token.kind.isQuote = true) ∨
    (m.role = .bracket ∧ m.token.kind ∈ [.dollar, .leftParenthesis, .rightParenthesis]) ∨
    (m.role = .equals ∧ m.token.kind = .equals)

/-- The role agrees with the token and with those behind it. -/
def Fits (m : Mark) (behind : List Token) : Prop :=
  match m.role with
  | .literal => atWordEnd m.token behind = false
  | .quoted => m.token.kind ≠ .endOfInput
  | .madeUp => True
  | .layout | .quote | .bracket | .equals => m.Omitted behind

/-- Which tokens are no leaves of the tree. -/
theorem Fits.omitted_iff {m : Mark} {behind : List Token} (h : m.Fits behind)
    (hWritten : m.role.isWritten = true) : m.role.isLeaf = false ↔ m.Omitted behind := by
  obtain ⟨role, t⟩ := m
  cases role with
  | madeUp => cases hWritten
  | literal =>
    have h : atWordEnd t behind = false := h
    rw [Descent.atWordEnd_eq_false, Descent.startsContinuation_cons] at h
    obtain ⟨hSpace, hContinuation, hSeparator, hOperator, hEnd, -⟩ := h
    refine iff_of_false (by simp [Role.isLeaf]) ?_
    rintro (hKind | ⟨-, hKind⟩ | ⟨-, hKind, hBehind⟩ | ⟨hRole, -⟩ | ⟨hRole, -⟩ | ⟨hRole, -⟩)
    · exact hEnd hKind
    · simp only [List.mem_cons, List.not_mem_nil, or_false] at hKind
      rcases hKind with hKind | hKind | hKind | hKind | hKind | hKind <;>
        simp [hKind, Token.Kind.isSeparator, Token.Kind.isOperator] at *
    · have hKind : t.kind = .backslash := hKind
      simp [hKind, hBehind] at hContinuation
    all_goals cases hRole
  | quoted =>
    have h : t.kind ≠ .endOfInput := h
    simp [Role.isLeaf, Omitted, Role.isInString, h]
  | layout => exact iff_of_true rfl h
  | quote => exact iff_of_true rfl h
  | bracket => exact iff_of_true rfl h
  | equals => exact iff_of_true rfl h

end Mark

namespace Marking

open Grammar (Rule Gap Quoted)

variable {form : Form} {ts rest : List Token} {trees : List Tree} {ms : List Mark}

/-- The marks of leaves. -/
def leaves (ms : List Mark) : List Mark := ms.filter (·.role.isLeaf)

/-- The marks of tokens that stand there. -/
def placed (ms : List Mark) : List Mark := ms.filter (·.role.isWritten)

theorem leaves_append (as bs : List Mark) : leaves (as ++ bs) = leaves as ++ leaves bs :=
  List.filter_append ..

theorem leaves_layout (ts : List Token) : leaves (ts.map (Mark.mk .layout)) = [] := by
  induction ts with
  | nil => rfl
  | cons t ts ih => exact ih

theorem leaves_quoted (ts : List Token) :
    leaves (ts.map (Mark.mk .quoted)) = ts.map (Mark.mk .quoted) := by
  induction ts with
  | nil => rfl
  | cons t ts ih => exact congrArg (Mark.mk .quoted t :: ·) ih

theorem leaves_inside (opener : Token) (parts : List Token) :
    (leaves (inside opener parts)).map (·.token) =
      Tree.leafTokens [Descent.stringTree opener parts] := by
  cases parts with
  | nil => rfl
  | cons part parts =>
    rw [inside, leaves_quoted, List.map_map, Descent.stringTree, Tree.leafTokens_node,
      Tree.leafTokens_leaf, Tree.leafTokens_leaves, Tree.leafTokens_nil, List.append_nil]
    exact List.map_id _

/-- The leaves of the trees are the tokens that are marked as leaves, in order. -/
theorem Yields.leafTokens (h : Yields form ts trees ms rest) :
    Tree.leafTokens trees = (leaves ms).map (·.token) := by
  induction h with
  | literal => rfl
  | @string _ opener closer _ parts =>
    have hMarks : leaves (⟨.quote, opener⟩ :: inside opener parts ++ [⟨.quote, closer⟩]) =
        leaves (inside opener parts) := by
      rw [leaves_append]
      exact List.append_nil _
    rw [hMarks, leaves_inside]
  | @substitution _ dollar paren close _ _ _ ms _ _ _ _ ih =>
    have hMarks : leaves (⟨.bracket, dollar⟩ :: ⟨.bracket, paren⟩ :: ms ++
        [⟨.bracket, close⟩]) = leaves ms := by
      rw [leaves_append]
      exact List.append_nil _
    rw [hMarks, Tree.leafTokens_node, Tree.leafTokens_nil, List.append_nil, ih]
  | piecesNil => rfl
  | piecesCons _ _ ihFirst ihOthers =>
    rw [Tree.leafTokens_cons, ihFirst, ihOthers, leaves_append, List.map_append]
  | word _ _ ihFirst ihOthers =>
    rw [Tree.leafTokens_wordTree, Tree.leafTokens_cons, ihFirst, ihOthers, leaves_append,
      List.map_append]
  | assignmentEmpty => rfl
  | assignment _ _ ih =>
    rw [Tree.leafTokens_node, Tree.leafTokens_leaf, Tree.leafTokens_nil, List.append_nil, ih]
    rfl
  | argument _ _ ih => exact ih
  | skip _ _ ih => rw [leaves_append, leaves_layout, List.nil_append, ih]
  | partsNil => rfl
  | partsCons _ _ ihFirst ihOthers =>
    rw [Tree.leafTokens_cons, ihFirst, ihOthers, leaves_append, List.map_append]
  | command _ _ ihFirst ihOthers =>
    rw [Tree.leafTokens_node, Tree.leafTokens_nil, List.append_nil, Tree.leafTokens_cons,
      ihFirst, ihOthers, leaves_append, List.map_append]
  | operand _ ih => exact ih
  | pipelineSingle _ ih => exact ih
  | pipelineJoin _ _ _ ihLeft ihRight =>
    rw [Tree.leafTokens_binary, ihLeft, ihRight, leaves_append, List.map_append]
    rfl
  | itemSingle _ ih => exact ih
  | itemJoin _ _ _ ihLeft ihRight =>
    rw [Tree.leafTokens_binary, ihLeft, ihRight, leaves_append, List.map_append]
    rfl
  | finish => rfl
  | close => rfl
  | itemsCons _ _ ihFirst ihOthers =>
    rw [Tree.leafTokens_cons, ihFirst, ihOthers, leaves_append, List.map_append]
  | sequence _ ih => rw [Tree.leafTokens_node, Tree.leafTokens_nil, List.append_nil, ih]

-- ---------------------------------------------------------------------------
-- Marks that fit
-- ---------------------------------------------------------------------------

/-- Every mark fits, `rest` being what stands behind the last of them. -/
def Fit : List Mark → List Token → Prop
  | [], _ => True
  | m :: ms, rest => m.Fits (written ms ++ rest) ∧ Fit ms rest

theorem fit_append {as bs : List Mark} :
    Fit (as ++ bs) rest ↔ Fit as (written bs ++ rest) ∧ Fit bs rest := by
  induction as with
  | nil => simp [Fit]
  | cons m as ih =>
    rw [List.cons_append, Fit, Fit, ih, written_append, List.append_assoc, and_assoc]

/-- Two readings one behind the other. -/
theorem fit_concat {as bs : List Mark} {between : List Token}
    (hBetween : between = written bs ++ rest) (hFirst : Fit as between)
    (hSecond : Fit bs rest) : Fit (as ++ bs) rest :=
  fit_append.2 ⟨hBetween ▸ hFirst, hSecond⟩

/-- Two readings with an operator between them. -/
theorem fit_join {as bs : List Mark} {between : List Token} {operator : Token}
    (hOperator : operator.kind.isOperator = true) (hBetween : between = written bs ++ rest)
    (hLeft : Fit as (operator :: between)) (hRight : Fit bs rest) :
    Fit (as ++ ⟨.layout, operator⟩ :: bs) rest := by
  refine fit_concat (congrArg (operator :: ·) hBetween) hLeft ⟨.inr (.inl ⟨rfl, ?_⟩), hRight⟩
  rcases Descent.eq_of_isOperator hOperator with hKind | hKind | hKind <;> simp [hKind]

/-- An assignment up to its value. -/
theorem fit_assignment {name equals : Token} {bs : List Mark}
    (hStart : Production.startsAssignment name (equals :: ts) = true) (h : Fit bs rest) :
    Fit (⟨.literal, name⟩ :: ⟨.equals, equals⟩ :: bs) rest := by
  obtain ⟨hName, -, equals', ts', hTs, hEquals⟩ := Descent.startsAssignment_iff.1 hStart
  obtain ⟨rfl, rfl⟩ := List.cons.inj hTs
  exact ⟨Grammar.atWordEnd_of_kind (.inr hName),
    .inr (.inr (.inr (.inr (.inr ⟨rfl, hEquals⟩)))), h⟩

theorem fit_singleton {m : Mark} (h : m.Fits rest) : Fit [m] rest := ⟨h, trivial⟩

theorem Form.Skips.gap {gap : List Token} (h : form.Skips gap) : ∃ rule, Gap rule gap := by
  cases form with
  | parts => exact ⟨_, h⟩
  | operand => exact ⟨_, h⟩
  | items nested => exact ⟨_, h⟩
  | _ => cases h

/-- What is skipped is layout. -/
theorem fit_gap {gap : List Token} (h : form.Skips gap) :
    Fit (gap.map (Mark.mk .layout)) rest := by
  obtain ⟨rule, h⟩ := h.gap
  cases h with
  | space _ hKind => exact fit_singleton (.inr (.inl ⟨rfl, by simp [hKind]⟩))
  | continuation _ hBackslash hNewline =>
    exact ⟨.inr (.inr (.inl ⟨rfl, hBackslash, congrArg some hNewline⟩)),
      fit_singleton (.inr (.inl ⟨rfl, by simp [hNewline]⟩))⟩
  | newline hKind => exact fit_singleton (.inr (.inl ⟨rfl, by simp [hKind]⟩))
  | @separator _ t hKind =>
    refine fit_singleton (.inr (.inl ⟨rfl, ?_⟩))
    by_cases hNewline : t.kind = .newline
    · simp [hNewline]
    · simp [Descent.eq_semicolon hKind hNewline]

theorem fit_inside {opener closer : Token} {parts : List Token}
    (h : Quoted opener.kind ts parts closer rest) (behind : List Token) :
    Fit (inside opener parts) behind := by
  have hEnds : ∀ part ∈ parts, part.kind ≠ .endOfInput := fun part hPart =>
    h.ne_end part (List.mem_append_left _ hPart)
  cases parts with
  | nil => exact ⟨trivial, trivial⟩
  | cons part parts =>
    rw [inside]
    generalize part :: parts = all at hEnds
    induction all with
    | nil => trivial
    | cons part parts ih =>
      exact ⟨hEnds part (List.mem_cons_self ..), ih fun p hp =>
        hEnds p (List.mem_cons_of_mem _ hp)⟩

/-- Every mark of a reading fits. -/
theorem Yields.fit (h : Yields form ts trees ms rest) : Fit ms rest := by
  induction h with
  | literal hOpen => exact fit_singleton hOpen
  | @string _ opener closer _ parts rest hQuote h =>
    have hClose : closer.kind.isQuote = true := h.closer_kind ▸ hQuote
    refine ⟨.inr (.inr (.inr (.inl ⟨rfl, hQuote⟩))), fit_append.2 ⟨fit_inside h _, ?_⟩⟩
    exact fit_singleton (.inr (.inr (.inr (.inl ⟨rfl, hClose⟩))))
  | @substitution _ dollar paren close _ _ _ ms hDollar hParen hClose _ ih =>
    have hBracket {t : Token} {behind : List Token}
        (hKind : t.kind ∈ [.dollar, .leftParenthesis, .rightParenthesis]) :
        (Mark.mk .bracket t).Fits behind := .inr (.inr (.inr (.inr (.inl ⟨rfl, hKind⟩))))
    refine ⟨hBracket (by simp [hDollar]), hBracket (by simp [hParen]), fit_append.2 ⟨ih, ?_⟩⟩
    exact fit_singleton (hBracket (by simp [hClose]))
  | piecesNil => trivial
  | piecesCons _ hOthers ihFirst ihOthers => exact fit_concat hOthers.tokens ihFirst ihOthers
  | word _ hOthers ihFirst ihOthers => exact fit_concat hOthers.tokens ihFirst ihOthers
  | assignmentEmpty hStart => exact fit_assignment hStart trivial
  | assignment hStart _ ih => exact fit_assignment hStart ih
  | argument _ _ ih => exact ih
  | skip hGap _ ih => exact fit_append.2 ⟨fit_gap hGap, ih⟩
  | partsNil => trivial
  | partsCons _ hOthers ihFirst ihOthers => exact fit_concat hOthers.tokens ihFirst ihOthers
  | command _ hOthers ihFirst ihOthers => exact fit_concat hOthers.tokens ihFirst ihOthers
  | operand _ ih => exact ih
  | pipelineSingle _ ih => exact ih
  | pipelineJoin _ hOperator hRight ihLeft ihRight =>
    exact fit_join (by rw [hOperator]; rfl) hRight.tokens ihLeft ihRight
  | itemSingle _ ih => exact ih
  | itemJoin _ hOperator hRight ihLeft ihRight =>
    refine fit_join ?_ hRight.tokens ihLeft ihRight
    rcases hOperator with hKind | hKind <;> rw [hKind] <;> rfl
  | finish hKind => exact fit_singleton (.inl hKind)
  | close => trivial
  | itemsCons _ hOthers ihFirst ihOthers => exact fit_concat hOthers.tokens ihFirst ihOthers
  | sequence _ ih => exact ih

-- ---------------------------------------------------------------------------
-- Places
-- ---------------------------------------------------------------------------

/-- The mark at a place fits what stands behind the place. -/
theorem Fit.at_place (h : Fit ms rest) {i : Nat} {m : Mark} (hm : (placed ms)[i]? = some m) :
    m.Fits ((written ms).drop (i + 1) ++ rest) := by
  induction ms generalizing i with
  | nil => cases hm
  | cons mark ms ih =>
    rw [placed, List.filter_cons] at hm
    rw [written_cons]
    split at hm
    · rename_i hWritten
      rw [if_pos hWritten, List.drop_succ_cons]
      cases i with
      | zero =>
        obtain rfl : mark = m := Option.some.inj hm
        exact h.1
      | succ i => exact ih h.2 hm
    · rename_i hWritten
      rw [if_neg hWritten]
      exact ih h.2 hm

end Marking

/-- The elements at the places of a list where `p` holds. -/
theorem getElem?_findIdxs {α : Type} (p : α → Bool) (l : List α) :
    (l.findIdxs p).map (l[·]?) = (l.filter p).map some := by
  induction l with
  | nil => rfl
  | cons a l ih =>
    have hRest : ((l.findIdxs p).map (· + 1)).map ((a :: l)[·]?) = (l.filter p).map some := by
      rw [List.map_map, ← ih]
      rfl
    rw [List.findIdxs_cons, List.findIdxs_start, List.filter_cons]
    split
    · rw [List.map_cons, hRest]
      rfl
    · exact hRest

-- ---------------------------------------------------------------------------
-- Whole lists
-- ---------------------------------------------------------------------------

open Marking (Yields written leaves placed)

/-- How the tokens of a list and the leaves of its tree belong together: `marks` says what
each token is there for, and `kept` are the places of those that are in the tree. -/
structure Provenance (tokens : List Token) (tree : Tree) (marks : List Mark)
    (kept : List Nat) : Prop where
  /-- The tokens are read as the marks say, to the end. -/
  yields  : Yields (.sequence false) tokens [tree] marks []
  /-- The marks are those of the tokens, one by one, and of the parts of empty strings. -/
  written : written marks = tokens
  /-- The leaves of the tree, in order. -/
  leaves  : tree.walk.filterMap Tree.token? = (leaves marks).map (·.token)
  rising  : kept.Pairwise (· < ·)
  /-- The leaves, those made up aside, are the tokens at the places that are kept. -/
  real    : kept.map (tokens[·]?) = (placed (Marking.leaves marks)).map (some ·.token)
  /-- The other places, said of the tokens there. -/
  omitted : ∀ i mark, (placed marks)[i]? = some mark →
    (i ∉ kept ↔ mark.Omitted (tokens.drop (i + 1)))

/-- **Where the tokens of a tree come from**: the leaves of a tree, the parts of empty strings
aside, are tokens of its list at rising places, and the places left out are those of the end,
of layout outside strings, of quotes, of brackets and of the `=` of assignments. -/
theorem parseTokens_provenance {tokens : List Token} {limit : Int} {tree : Tree}
    (h : parseTokens tokens limit = .ok tree) :
    ∃ marks kept, Provenance tokens tree marks kept := by
  obtain ⟨marks, hYields⟩ := Marking.yields_of_parseTokens h
  have hWritten : written marks = tokens := by
    rw [hYields.tokens, List.append_nil]
  refine ⟨marks, (placed marks).findIdxs (·.role.isLeaf), hYields, hWritten, ?_,
    List.pairwise_findIdxs, ?_, ?_⟩
  · rw [← hYields.leafTokens]
    simp [Tree.leafTokens, Tree.walkAll]
  · have hPlace (i : Nat) : tokens[i]? = ((placed marks)[i]?).map (·.token) := by
      rw [← hWritten]
      exact List.getElem?_map
    calc ((placed marks).findIdxs (·.role.isLeaf)).map (tokens[·]?)
      _ = (((placed marks).findIdxs (·.role.isLeaf)).map ((placed marks)[·]?)).map
          (Option.map (·.token)) := by simp [hPlace]
      _ = ((placed marks).filter (·.role.isLeaf)).map (some ·.token) := by
        rw [getElem?_findIdxs, List.map_map]
        rfl
      _ = (placed (leaves marks)).map (some ·.token) := by
        rw [placed, placed, leaves, List.filter_filter, List.filter_filter]
        simp only [Bool.and_comm]
  · intro i mark hMark
    have hFits := hYields.fit.at_place hMark
    rw [List.append_nil, hWritten] at hFits
    have hRole : mark.role.isWritten = true :=
      (List.mem_filter.1 (List.mem_of_getElem? hMark)).2
    obtain ⟨hLength, rfl⟩ := List.getElem?_eq_some_iff.1 hMark
    rw [← hFits.omitted_iff hRole, List.mem_findIdxs_iff_pos_getElem hLength,
      Bool.not_eq_true]

/-- Every sort of token that is left out, an empty string, whose part stands where its closing
quote does, and an escape pair. -/
theorem parseTokens_provenance_every_role :
    ∃ tree marks kept,
      parseTokens (tokenize "A=''\\\n \"\\\"\"|$(b;c)".toList) 9 = .ok tree ∧
        (tree.walk.filterMap Tree.token?).map (·.offset) = [0, 3, 8, 9, 14, 16] ∧
        Provenance (tokenize "A=''\\\n \"\\\"\"|$(b;c)".toList) tree marks kept := by
  have hLeaves : (parseTokens (tokenize "A=''\\\n \"\\\"\"|$(b;c)".toList) 9).map
      (fun tree => (tree.walk.filterMap Tree.token?).map (·.offset)) =
      .ok [0, 3, 8, 9, 14, 16] := by cbv
  obtain ⟨tree, hTree, hOffsets⟩ := Marking.exists_tree_of_map hLeaves
  obtain ⟨marks, kept, hProvenance⟩ := parseTokens_provenance hTree
  exact ⟨tree, marks, kept, hTree, hOffsets, hProvenance⟩

end ShellReader
