import ShellReader.Proofs.Refinement
import ShellReader.Tree.Source

/-!
# ShellReader — the grammar

Which token lists a rule reads, as a relation. `Reads limit rule depth ts phrases
rest` says that `rule`, at `depth` open productions, reads the tokens `ts` up to
`rest` and finds `phrases` there. A phrase is a tree together with the tokens that
are written for it in the canonical layout: its own tokens, one blank between the
words of a command, one around an operator, `; ` between items.

The relation is about what tokens are, not about where they stand, so it is used on
*bare* tokens and trees, whose offsets are all zero.

## Results

* `sequence_sound` — what recursive descent reads is read by the grammar.
* `sequence_complete` — what the grammar reads is read by recursive descent, whatever
  the offsets.
-/

namespace ShellReader

open Production (startsAssignment atWordEnd startsEscape binary)

-- ---------------------------------------------------------------------------
-- Without offsets
-- ---------------------------------------------------------------------------

/-- A token that stands nowhere. -/
def Token.bare (t : Token) : Token := { t with offset := 0 }

@[simp] theorem Token.bare_kind (t : Token) : t.bare.kind = t.kind := rfl
@[simp] theorem Token.bare_text (t : Token) : t.bare.text = t.text := rfl
@[simp] theorem Token.bare_bare (t : Token) : t.bare.bare = t.bare := rfl

theorem Token.bare_eq_iff {a b : Token} :
    a.bare = b.bare ↔ a.kind = b.kind ∧ a.text = b.text := by
  simp [Token.bare]

namespace Tree

mutual

/-- A tree of tokens that stand nowhere. -/
def bare : Tree → Tree
  | leaf kind token quote => .leaf kind token.bare quote
  | node kind first rest quote => .node kind first.bare (bareAll rest) quote

def bareAll : List Tree → List Tree
  | [] => []
  | t :: rest => t.bare :: bareAll rest

end

@[simp] theorem bareAll_eq_map (ts : List Tree) : bareAll ts = ts.map bare := by
  induction ts with
  | nil => simp [bareAll]
  | cons t rest ih => simp [bareAll, ih]

mutual

/-- Trees that agree without their offsets are the same. -/
theorem same_of_bare_eq : {a b : Tree} → a.bare = b.bare → a.same b = true
  | leaf k t q, leaf k' t' q', h => by
    obtain ⟨rfl, hToken, rfl⟩ : k = k' ∧ t.bare = t'.bare ∧ q = q' := by simpa [bare] using h
    simp [same, Token.same_iff.2 (Token.bare_eq_iff.1 hToken)]
  | node k first rest q, node k' first' rest' q', h => by
    rw [bare, bare] at h
    obtain ⟨rfl, hFirst, hRest, rfl⟩ := Tree.node.inj h
    simp [same, same_of_bare_eq hFirst, sameAll_of_bareAll_eq hRest]
  | leaf .., node .., h => by simp [bare] at h
  | node .., leaf .., h => by simp [bare] at h

theorem sameAll_of_bareAll_eq : {as bs : List Tree} → bareAll as = bareAll bs →
    sameAll as bs = true
  | [], [], _ => rfl
  | a :: as, b :: bs, h => by
    rw [bareAll, bareAll] at h
    obtain ⟨hHead, hTail⟩ := List.cons.inj h
    simp [sameAll, same_of_bare_eq hHead, sameAll_of_bareAll_eq hTail]
  | [], _ :: _, h => by simp [bareAll] at h
  | _ :: _, [], h => by simp [bareAll] at h

end

mutual

/-- What is written for a tree does not depend on its offsets. -/
theorem source_bare : (t : Tree) → t.bare.source = t.source
  | leaf .. => rfl
  | node kind first rest quote => by
    rw [bare, source, source, source_bare first, sources_bareAll rest]

theorem sources_bareAll : (ts : List Tree) → sources (bareAll ts) = sources ts
  | [] => rfl
  | t :: rest => by rw [bareAll, sources, sources, source_bare t, sources_bareAll rest]

end

end Tree

namespace Descent

/-- An item of bare trees. -/
def Item.bare (i : Item) : Item :=
  ⟨i.left.map fun (kind, tree) => (kind, tree.bare), i.pipeline.bare, i.operands⟩

theorem bare_binary (kind : Tree.Kind) (left right : Tree) :
    (binary kind left right).bare = binary kind left.bare right.bare := by
  simp [binary, Tree.bare]

theorem Item.bare_single (tree : Tree) : (Item.single tree).bare = .single tree.bare := rfl

theorem Item.bare_tree (i : Item) : i.tree.bare = i.bare.tree := by
  obtain ⟨left, pipeline, operands⟩ := i
  cases left with
  | none => rfl
  | some l => exact bare_binary l.1 l.2 pipeline

theorem Item.bare_join (i : Item) (operator : Token.Kind) (command : Tree) :
    (i.join operator command).bare = i.bare.join operator command.bare := by
  rw [join, join]
  by_cases hPipe : operator = .pipe
  · rw [if_pos hPipe, if_pos hPipe]
    simp [Item.bare, bare_binary]
  · rw [if_neg hPipe, if_neg hPipe]
    simp [Item.bare, Item.bare_tree]

theorem bare_wordTree (role : WordRole) (first : Tree) (others : List Tree) :
    (wordTree role first others).bare = wordTree role first.bare (others.map Tree.bare) := by
  cases first with
  | leaf kind t quote =>
    cases others with
    | nil => rfl
    | cons other others => simp [wordTree, Tree.bare]
  | node kind first rest quote => simp [wordTree, Tree.bare]

theorem bare_stringTree (opener : Token) (parts : List Token) :
    (stringTree opener parts).bare = (stringTree opener.bare (parts.map Token.bare)).bare := by
  cases parts with
  | nil => rfl
  | cons first others => simp [stringTree, Tree.bare]

end Descent

-- ---------------------------------------------------------------------------
-- Rules
-- ---------------------------------------------------------------------------

namespace Grammar

open Descent (Context Reading Item wordTree stringTree startsSubstitution)

/-- The blank of the canonical layout. -/
def blank : Token := ⟨.space, [' '], 0⟩

/-- The separator of the canonical layout. -/
def semicolon : Token := ⟨.semicolon, [';'], 0⟩

/-- A tree, and the tokens that are written for it. -/
structure Phrase where
  tree   : Tree
  tokens : List Token

/-- What can be read. -/
inductive Rule where
  | piece (role : WordRole)
  | pieces (role : WordRole)
  | word (role : WordRole)
  | part
  | parts
  | command
  | operand
  /-- The operators behind a command, given the item so far and its tokens. -/
  | chain (item : Item) (tokens : List Token)
  | items (nested : Bool)
  | sequence (nested : Bool)

/-- Tokens that a rule skips. -/
inductive Gap : Rule → List Token → Prop where
  | space {rule : Rule} {t : Token}
      (hRule : rule = .parts ∨ rule = .operand ∨ ∃ nested, rule = .items nested)
      (h : t.kind = .space) : Gap rule [t]
  | continuation {rule : Rule} {t u : Token}
      (hRule : rule = .parts ∨ rule = .operand ∨ ∃ nested, rule = .items nested)
      (h : t.kind = .backslash) (hNewline : u.kind = .newline) : Gap rule [t, u]
  | newline {t : Token} (h : t.kind = .newline) : Gap .operand [t]
  | separator {nested : Bool} {t : Token} (h : t.kind.isSeparator = true) :
      Gap (.items nested) [t]

/-- The tokens of a string, up to the quote that closes it. -/
inductive Quoted (opener : Token.Kind) :
    List Token → List Token → Token → List Token → Prop where
  | close {t : Token} {more : List Token} (hEnd : t.kind ≠ .endOfInput)
      (h : t.kind = opener) : Quoted opener (t :: more) [] t more
  | escape {t u closer : Token} {more parts rest : List Token} (hEnd : t.kind ≠ .endOfInput)
      (hClose : t.kind ≠ opener) (hOpener : opener = .doubleQuote)
      (hEscape : startsEscape t (u :: more) = true) (h : Quoted opener more parts closer rest) :
      Quoted opener (t :: u :: more) (t :: u :: parts) closer rest
  | plain {t closer : Token} {more parts rest : List Token} (hEnd : t.kind ≠ .endOfInput)
      (hClose : t.kind ≠ opener)
      (hEscape : ¬ (opener = .doubleQuote ∧ startsEscape t more = true))
      (h : Quoted opener more parts closer rest) :
      Quoted opener (t :: more) (t :: parts) closer rest

/-- `Reads limit rule depth ts phrases rest`: the rule reads `ts` up to `rest`, inside
`depth` open productions, and finds `phrases`. -/
inductive Reads (limit : Int) :
    Rule → Nat → List Token → List Phrase → List Token → Prop where
  | literal {role : WordRole} {depth : Nat} {t : Token} {more : List Token}
      (hOpen : atWordEnd t more = false) (hQuote : t.kind.isQuote = false)
      (hSubstitution : startsSubstitution t more = false) :
      Reads limit (.piece role) depth (t :: more) [⟨.leaf role.partKind t none, [t]⟩] more
  | string {role : WordRole} {depth : Nat} {t closer : Token} {more parts rest : List Token}
      (hQuote : t.kind.isQuote = true) (hRoom : ¬ limit ≤ depth)
      (h : Quoted t.kind more parts closer rest) :
      Reads limit (.piece role) depth (t :: more)
        [⟨(stringTree t parts).bare, t :: parts ++ [closer]⟩] rest
  | substitution {role : WordRole} {depth : Nat} {dollar paren close : Token}
      {inside rest : List Token} {root : Phrase} (hDollar : dollar.kind = .dollar)
      (hParen : paren.kind = .leftParenthesis) (hRoom : ¬ limit ≤ depth)
      (h : Reads limit (.sequence true) (depth + 1) inside [root] (close :: rest))
      (hClose : close.kind = .rightParenthesis) :
      Reads limit (.piece role) depth (dollar :: paren :: inside)
        [⟨.node .substitution root.tree [] none,
          dollar :: paren :: root.tokens ++ [close]⟩] rest
  | piecesNil {role : WordRole} {depth : Nat} {t : Token} {more : List Token}
      (h : atWordEnd t more = true) : Reads limit (.pieces role) depth (t :: more) [] (t :: more)
  | piecesCons {role : WordRole} {depth : Nat} {ts between rest : List Token}
      {first : Phrase} {others : List Phrase}
      (hFirst : Reads limit (.piece role) depth ts [first] between)
      (hOthers : Reads limit (.pieces role) depth between others rest) :
      Reads limit (.pieces role) depth ts (first :: others) rest
  | word {role : WordRole} {depth : Nat} {ts between rest : List Token} {first : Phrase}
      {others : List Phrase} (hRoom : ¬ limit ≤ depth)
      (hFirst : Reads limit (.piece role) (depth + 1) ts [first] between)
      (hOthers : Reads limit (.pieces role) (depth + 1) between others rest) :
      Reads limit (.word role) depth ts
        [⟨wordTree role first.tree (others.map (·.tree)),
          first.tokens ++ others.flatMap (·.tokens)⟩] rest
  | assignmentEmpty {depth : Nat} {name equals t : Token} {more : List Token}
      (hStart : startsAssignment name (equals :: t :: more) = true) (hRoom : ¬ limit ≤ depth)
      (hEnd : atWordEnd t more = true) :
      Reads limit .part depth (name :: equals :: t :: more)
        [⟨.node .assignment (.leaf .lhs name none) [] none, [name, equals]⟩] (t :: more)
  | assignment {depth : Nat} {name equals : Token} {ts rest : List Token} {value : Phrase}
      (hStart : startsAssignment name (equals :: ts) = true) (hRoom : ¬ limit ≤ depth)
      (h : Reads limit (.word .value) (depth + 1) ts [value] rest) :
      Reads limit .part depth (name :: equals :: ts)
        [⟨.node .assignment (.leaf .lhs name none) [value.tree] none,
          name :: equals :: value.tokens⟩] rest
  | argument {depth : Nat} {t : Token} {more rest : List Token} {argument : Phrase}
      (hStart : startsAssignment t more = false)
      (h : Reads limit (.word .argument) depth (t :: more) [argument] rest) :
      Reads limit .part depth (t :: more) [argument] rest
  | skip {rule : Rule} {depth : Nat} {gap ts rest : List Token} {phrases : List Phrase}
      (hGap : Gap rule gap) (h : Reads limit rule depth ts phrases rest) :
      Reads limit rule depth (gap ++ ts) phrases rest
  | partsNil {depth : Nat} {t : Token} {more : List Token} (h : t.kind.endsCommand = true) :
      Reads limit .parts depth (t :: more) [] (t :: more)
  | partsCons {depth : Nat} {ts between rest : List Token} {first : Phrase}
      {others : List Phrase} (hFirst : Reads limit .part depth ts [first] between)
      (hOthers : Reads limit .parts depth between others rest) :
      Reads limit .parts depth ts (first :: others) rest
  | command {depth : Nat} {ts between rest : List Token} {first : Phrase}
      {others : List Phrase} (hRoom : ¬ limit ≤ depth)
      (hFirst : Reads limit .part (depth + 1) ts [first] between)
      (hOthers : Reads limit .parts (depth + 1) between others rest) :
      Reads limit .command depth ts
        [⟨.node .command first.tree (others.map (·.tree)) none,
          first.tokens ++ others.flatMap fun p => blank :: p.tokens⟩] rest
  | operand {depth : Nat} {ts rest : List Token} {command : Phrase}
      (h : Reads limit .command depth ts [command] rest) :
      Reads limit .operand depth ts [command] rest
  | chainStop {item : Item} {tokens : List Token} {depth : Nat} {t : Token}
      {more : List Token} (h : t.kind.isOperator = false) :
      Reads limit (.chain item tokens) depth (t :: more) [⟨item.tree, tokens⟩] (t :: more)
  | chainLink {item : Item} {tokens : List Token} {depth : Nat} {t : Token}
      {more between rest : List Token} {next whole : Phrase}
      (hOperator : t.kind.isOperator = true) (hCount : ¬ limit ≤ item.operands)
      (hNext : Reads limit .operand depth more [next] between)
      (hRest : Reads limit (.chain (item.join t.kind next.tree)
        (tokens ++ blank :: t :: blank :: next.tokens)) depth between [whole] rest) :
      Reads limit (.chain item tokens) depth (t :: more) [whole] rest
  | finish {depth : Nat} {t : Token} {more : List Token} (h : t.kind = .endOfInput) :
      Reads limit (.items false) depth (t :: more) [] more
  | close {depth : Nat} {t : Token} {more : List Token} (h : t.kind = .rightParenthesis) :
      Reads limit (.items true) depth (t :: more) [] (t :: more)
  | item {nested : Bool} {depth : Nat} {ts behind between rest : List Token}
      {first whole : Phrase} {others : List Phrase}
      (hFirst : Reads limit .command depth ts [first] behind)
      (hChain : Reads limit (.chain (.single first.tree) first.tokens) depth behind [whole]
        between)
      (hOthers : Reads limit (.items nested) depth between others rest) :
      Reads limit (.items nested) depth ts (whole :: others) rest
  | sequence {nested : Bool} {depth : Nat} {ts rest : List Token} {first : Phrase}
      {others : List Phrase} (hRoom : ¬ limit ≤ depth)
      (h : Reads limit (.items nested) (depth + 1) ts (first :: others) rest) :
      Reads limit (.sequence nested) depth ts
        [⟨.node .root first.tree (others.map (·.tree)) none,
          first.tokens ++ others.flatMap fun p => semicolon :: blank :: p.tokens⟩] rest

-- ---------------------------------------------------------------------------
-- Looking at bare tokens
-- ---------------------------------------------------------------------------

section Bare

variable (t : Token) (more : List Token)

@[simp] theorem startsContinuation_bare :
    Token.startsContinuation (t.bare :: more.map Token.bare) =
      Token.startsContinuation (t :: more) := by
  cases more <;> rfl

@[simp] theorem atWordEnd_bare :
    atWordEnd t.bare (more.map Token.bare) = atWordEnd t more := by
  simp [atWordEnd]

theorem kind_head?_bare :
    (more.map Token.bare).head?.map (·.kind) = more.head?.map (·.kind) := by
  cases more <;> rfl

@[simp] theorem startsAssignment_bare :
    startsAssignment t.bare (more.map Token.bare) = startsAssignment t more := by
  rw [startsAssignment, startsAssignment, kind_head?_bare]
  rfl

@[simp] theorem startsSubstitution_bare :
    startsSubstitution t.bare (more.map Token.bare) = startsSubstitution t more := by
  rw [startsSubstitution, startsSubstitution, kind_head?_bare]
  rfl

@[simp] theorem startsEscape_bare :
    startsEscape t.bare (more.map Token.bare) = startsEscape t more := by
  rw [startsEscape, startsEscape, kind_head?_bare]
  rfl

end Bare

-- ---------------------------------------------------------------------------
-- Soundness of recursive descent
-- ---------------------------------------------------------------------------

variable {c : Context} {depth n : Nat} {t : Token} {more ts : List Token} {role : WordRole}

/-- The rule finds one phrase with the tree that was read. -/
def Found (c : Context) (rule : Rule) (depth : Nat) (ts : List Token) (tree : Tree)
    (rest : List Token) : Prop :=
  ∃ p, Reads c.limit rule depth (ts.map Token.bare) [p] (rest.map Token.bare) ∧
    p.tree = tree.bare

/-- The rule finds phrases with the trees that were read. -/
def FoundAll (c : Context) (rule : Rule) (depth : Nat) (ts : List Token) (trees : List Tree)
    (rest : List Token) : Prop :=
  ∃ ps, Reads c.limit rule depth (ts.map Token.bare) ps (rest.map Token.bare) ∧
    ps.map (·.tree) = trees.map Tree.bare

theorem FoundAll.skip {rule : Rule} {rest : List Token} {trees : List Tree} (gap : List Token)
    (hGap : Gap rule (gap.map Token.bare)) (h : FoundAll c rule depth ts trees rest) :
    FoundAll c rule depth (gap ++ ts) trees rest := by
  obtain ⟨ps, hReads, hTrees⟩ := h
  rw [FoundAll, List.map_append]
  exact ⟨ps, .skip hGap hReads, hTrees⟩

theorem Found.skip {rule : Rule} {rest : List Token} {tree : Tree} (gap : List Token)
    (hGap : Gap rule (gap.map Token.bare)) (h : Found c rule depth ts tree rest) :
    Found c rule depth (gap ++ ts) tree rest := by
  obtain ⟨p, hReads, hTree⟩ := h
  rw [Found, List.map_append]
  exact ⟨p, .skip hGap hReads, hTree⟩

/-- A production that is entered has room. -/
theorem enter_ok {u : Unit} (h : c.enter depth t = .ok u) : ¬ c.limit ≤ depth := by
  intro hFull
  rw [Context.enter, if_pos hFull] at h
  cases h

theorem quoted_sound {opener : Token} {r : Reading (List Token) ts.length}
    (h : Descent.quoted c opener ts = .ok r) :
    ∃ closer, Quoted opener.kind (ts.map Token.bare) (r.value.map Token.bare) closer
      (r.rest.map Token.bare) := by
  fun_induction Descent.quoted c opener ts with
  | case1 => cases h
  | case2 t more hEnd => cases h
  | case3 t more hEnd hClose =>
    obtain rfl := Except.ok.inj h
    exact ⟨t.bare, .close hEnd hClose⟩
  | case4 t more hEnd hClose hEscape ih =>
    obtain ⟨r', hr, h⟩ := Descent.bind_ok.1 h
    obtain rfl := Except.ok.inj h
    obtain ⟨closer, hQuoted⟩ := ih hr
    cases more with
    | nil => simp [startsEscape] at hEscape
    | cons u more =>
      exact ⟨closer, .escape hEnd hClose hEscape.1
        ((startsEscape_bare t (u :: more)).trans hEscape.2) hQuoted⟩
  | case5 t more hEnd hClose hEscape ih =>
    obtain ⟨r', hr, h⟩ := Descent.bind_ok.1 h
    obtain rfl := Except.ok.inj h
    obtain ⟨closer, hQuoted⟩ := ih hr
    exact ⟨closer, .plain hEnd hClose (by simpa using hEscape) hQuoted⟩

/-- Nested sequences shorter than `n` are read by the grammar. -/
def NestedSound (c : Context) (n : Nat) : Prop :=
  ∀ {depth : Nat} {ts : List Token} {r : Reading Tree ts.length}, ts.length < n →
    Descent.sequence c true depth ts = .ok r →
    Found c (.sequence true) depth ts r.value r.rest

theorem substitution_sound (hNested : NestedSound c n) {dollar paren : Token}
    {inside : List Token} {r : Reading Tree inside.length} (hLength : inside.length < n)
    (hDollar : dollar.kind = .dollar) (hParen : paren.kind = .leftParenthesis)
    (h : Descent.substitution c depth dollar inside = .ok r) :
    Found c (.piece role) depth (dollar :: paren :: inside) r.value r.rest := by
  rw [Descent.substitution] at h
  obtain ⟨u, hEnter, h⟩ := Descent.bind_ok.1 h
  obtain ⟨⟨root, rest, hShort⟩, hSequence, h⟩ := Descent.bind_ok.1 h
  obtain ⟨p, hReads, hTree⟩ := hNested hLength hSequence
  cases rest with
  | nil => cases h
  | cons close rest =>
    rw [Descent.closing] at h
    by_cases hClose : close.kind = .rightParenthesis
    · rw [if_pos hClose] at h
      obtain rfl := Except.ok.inj h
      refine ⟨_, .substitution hDollar hParen (enter_ok hEnter) hReads hClose, ?_⟩
      simp [Tree.bare, hTree]
    · rw [if_neg hClose] at h
      cases h

theorem piece_sound (hNested : NestedSound c n) {r : Reading Tree more.length}
    (hLength : more.length ≤ n) (hOpen : atWordEnd t more = false)
    (h : Descent.piece c role depth t more = .ok r) :
    Found c (.piece role) depth (t :: more) r.value r.rest := by
  rw [Descent.piece] at h
  by_cases hQuote : t.kind.isQuote = true
  · rw [if_pos hQuote] at h
    obtain ⟨u, hEnter, h⟩ := Descent.bind_ok.1 h
    obtain ⟨q, hQuoted, h⟩ := Descent.bind_ok.1 h
    obtain rfl := Except.ok.inj h
    obtain ⟨closer, hQuoted⟩ := quoted_sound hQuoted
    exact ⟨_, .string hQuote (enter_ok hEnter) hQuoted, (Descent.bare_stringTree t q.value).symm⟩
  · rw [if_neg hQuote] at h
    by_cases hStart : startsSubstitution t more = true
    · rw [if_pos hStart] at h
      obtain ⟨hDollar, paren, inside, rfl, hParen⟩ := Descent.startsSubstitution_iff.1 hStart
      rw [List.length_cons] at hLength
      obtain ⟨s, hSubstitution, h⟩ := Descent.bind_ok.1 h
      obtain rfl := Except.ok.inj h
      exact substitution_sound hNested (by omega) hDollar hParen hSubstitution
    · rw [if_neg hStart] at h
      obtain rfl := Except.ok.inj h
      exact ⟨_, .literal (by simpa using hOpen) (by simpa using hQuote) (by simpa using hStart),
        rfl⟩

theorem pieces_sound (hNested : NestedSound c n) {r : Reading (List Tree) ts.length}
    (hLength : ts.length ≤ n) (h : Descent.pieces c role depth ts = .ok r) :
    FoundAll c (.pieces role) depth ts r.value r.rest := by
  obtain ⟨size, hSize⟩ : ∃ size, ts.length = size := ⟨_, rfl⟩
  induction size using Nat.strongRecOn generalizing ts with
  | ind size ih =>
    cases ts with
    | nil =>
      rw [Descent.pieces] at h
      cases h
    | cons t more =>
      rw [List.length_cons] at hLength hSize
      rw [Descent.pieces] at h
      by_cases hEnd : atWordEnd t more = true
      · rw [if_pos hEnd] at h
        obtain rfl := Except.ok.inj h
        exact ⟨[], .piecesNil (by simpa using hEnd), rfl⟩
      · rw [if_neg hEnd] at h
        obtain ⟨first, hFirst, h⟩ := Descent.bind_ok.1 h
        obtain ⟨others, hOthers, h⟩ := Descent.bind_ok.1 h
        obtain rfl := Except.ok.inj h
        have hShort := first.short
        obtain ⟨p, hPiece, hTree⟩ :=
          piece_sound hNested (by omega) (by simpa using hEnd) hFirst
        obtain ⟨ps, hPieces, hTrees⟩ := ih first.rest.length (by omega) (by omega) hOthers rfl
        exact ⟨p :: ps, .piecesCons hPiece hPieces, by simp [hTree, hTrees]⟩

theorem word_sound (hNested : NestedSound c n) {r : Reading Tree more.length}
    (hLength : more.length ≤ n) (hOpen : atWordEnd t more = false)
    (h : Descent.word c role depth t more = .ok r) :
    Found c (.word role) depth (t :: more) r.value r.rest := by
  rw [Descent.word] at h
  obtain ⟨u, hEnter, h⟩ := Descent.bind_ok.1 h
  obtain ⟨first, hFirst, h⟩ := Descent.bind_ok.1 h
  obtain ⟨others, hOthers, h⟩ := Descent.bind_ok.1 h
  obtain rfl := Except.ok.inj h
  have hShort := first.short
  obtain ⟨p, hPiece, hTree⟩ := piece_sound hNested hLength hOpen hFirst
  obtain ⟨ps, hPieces, hTrees⟩ := pieces_sound hNested (by omega) hOthers
  refine ⟨_, .word (enter_ok hEnter) hPiece hPieces, ?_⟩
  rw [Descent.bare_wordTree, hTree, hTrees]

theorem assignment_sound (hNested : NestedSound c n) {name equals : Token}
    {r : Reading Tree ts.length} (hLength : ts.length ≤ n)
    (hStart : startsAssignment name (equals :: ts) = true)
    (h : Descent.assignment c depth name ts = .ok r) :
    Found c .part depth (name :: equals :: ts) r.value r.rest := by
  have hBare := (startsAssignment_bare name (equals :: ts)).trans hStart
  rw [Descent.assignment.eq_def] at h
  cases ts with
  | nil =>
    obtain ⟨u, -, h⟩ := Descent.bind_ok.1 h
    cases h
  | cons t more =>
    rw [List.length_cons] at hLength
    obtain ⟨u, hEnter, h⟩ := Descent.bind_ok.1 h
    by_cases hEnd : atWordEnd t more = true
    · rw [if_pos hEnd] at h
      obtain rfl := Except.ok.inj h
      refine ⟨_, .assignmentEmpty hBare (enter_ok hEnter) (by simpa using hEnd), ?_⟩
      simp [Tree.bare]
    · rw [if_neg hEnd] at h
      obtain ⟨value, hWord, h⟩ := Descent.bind_ok.1 h
      obtain rfl := Except.ok.inj h
      obtain ⟨p, hValue, hTree⟩ := word_sound hNested (by omega) (by simpa using hEnd) hWord
      refine ⟨_, .assignment hBare (enter_ok hEnter) hValue, ?_⟩
      simp [Tree.bare, hTree]

theorem part_sound (hNested : NestedSound c n) {r : Reading Tree more.length}
    (hLength : more.length ≤ n) (hOpen : atWordEnd t more = false)
    (h : Descent.part c depth t more = .ok r) :
    Found c .part depth (t :: more) r.value r.rest := by
  rw [Descent.part] at h
  by_cases hStart : startsAssignment t more = true
  · rw [if_pos hStart] at h
    obtain ⟨-, -, equals, rest, rfl, -⟩ := Descent.startsAssignment_iff.1 hStart
    obtain ⟨a, hAssignment, h⟩ := Descent.bind_ok.1 h
    obtain rfl := Except.ok.inj h
    exact assignment_sound hNested (Nat.le_of_succ_le hLength) hStart hAssignment
  · rw [if_neg hStart] at h
    obtain ⟨p, hWord, hTree⟩ := word_sound hNested hLength hOpen h
    exact ⟨p, .argument (by simpa using hStart) hWord, hTree⟩

/-- The blanks that commands and sequences skip. -/
theorem gap_continuation {rule : Rule}
    (hRule : rule = .parts ∨ rule = .operand ∨ ∃ nested, rule = .items nested)
    (h : Token.startsContinuation (t :: more) = true) :
    ∃ u rest, more = u :: rest ∧ Gap rule ([t, u].map Token.bare) := by
  cases more with
  | nil => cases h
  | cons u rest =>
    obtain ⟨hBackslash, hNewline⟩ : t.kind = .backslash ∧ u.kind = .newline := by
      simpa [Token.startsContinuation] using h
    exact ⟨u, rest, rfl, .continuation hRule hBackslash hNewline⟩

theorem parts_sound (hNested : NestedSound c n) {r : Reading (List Tree) ts.length}
    (hLength : ts.length ≤ n) (h : Descent.parts c depth ts = .ok r) :
    FoundAll c .parts depth ts r.value r.rest := by
  obtain ⟨size, hSize⟩ : ∃ size, ts.length = size := ⟨_, rfl⟩
  induction size using Nat.strongRecOn generalizing ts with
  | ind size ih =>
    cases ts with
    | nil =>
      rw [Descent.parts] at h
      cases h
    | cons t more =>
      rw [List.length_cons] at hLength hSize
      cases Descent.commandFront t more with
      | ends hEnds =>
        rw [Descent.parts_ends hEnds] at h
        obtain rfl := Except.ok.inj h
        exact ⟨[], .partsNil hEnds, rfl⟩
      | space hSpace =>
        rw [Descent.parts_space hSpace] at h
        obtain ⟨r', hr, rfl⟩ := Descent.within_ok.1 h
        exact FoundAll.skip [t] (.space (.inl rfl) hSpace)
          (ih more.length (by omega) (by omega) hr rfl)
      | continuation _ hContinuation =>
        rw [Descent.parts_continuation hContinuation] at h
        obtain ⟨r', hr, rfl⟩ := Descent.within_ok.1 h
        obtain ⟨u, rest, rfl, hGap⟩ := gap_continuation (.inl rfl) hContinuation
        rw [List.length_cons] at hLength hSize
        exact FoundAll.skip [t, u] hGap (ih rest.length (by omega) (by omega) hr rfl)
      | word hOpen =>
        rw [Descent.parts_word hOpen] at h
        obtain ⟨first, hFirst, h⟩ := Descent.bind_ok.1 h
        obtain ⟨others, hOthers, h⟩ := Descent.bind_ok.1 h
        obtain rfl := Except.ok.inj h
        have hShort := first.short
        obtain ⟨p, hPart, hTree⟩ := part_sound hNested (by omega) hOpen hFirst
        obtain ⟨ps, hParts, hTrees⟩ := ih first.rest.length (by omega) (by omega) hOthers rfl
        exact ⟨p :: ps, .partsCons hPart hParts, by simp [hTree, hTrees]⟩

theorem command_sound (hNested : NestedSound c n) {r : Reading Tree more.length}
    (hLength : more.length ≤ n) (hOpen : atWordEnd t more = false)
    (h : Descent.command c depth t more = .ok r) :
    Found c .command depth (t :: more) r.value r.rest := by
  rw [Descent.command] at h
  obtain ⟨u, hEnter, h⟩ := Descent.bind_ok.1 h
  obtain ⟨first, hFirst, h⟩ := Descent.bind_ok.1 h
  obtain ⟨others, hOthers, h⟩ := Descent.bind_ok.1 h
  obtain rfl := Except.ok.inj h
  have hShort := first.short
  obtain ⟨p, hPart, hTree⟩ := part_sound hNested hLength hOpen hFirst
  obtain ⟨ps, hParts, hTrees⟩ := parts_sound hNested (by omega) hOthers
  refine ⟨_, .command (enter_ok hEnter) hPart hParts, ?_⟩
  simp [Tree.bare, hTree, hTrees]

theorem operand_sound (hNested : NestedSound c n) {nested : Bool} {operator : Token}
    {r : Reading Tree ts.length} (hLength : ts.length ≤ n)
    (h : Descent.operand c nested depth operator ts = .ok r) :
    Found c .operand depth ts r.value r.rest := by
  obtain ⟨size, hSize⟩ : ∃ size, ts.length = size := ⟨_, rfl⟩
  induction size using Nat.strongRecOn generalizing ts with
  | ind size ih =>
    cases ts with
    | nil =>
      rw [Descent.operand] at h
      cases h
    | cons t more =>
      rw [List.length_cons] at hLength hSize
      cases Descent.front t more with
      | space hSpace =>
        rw [Descent.operand_space hSpace] at h
        obtain ⟨r', hr, rfl⟩ := Descent.within_ok.1 h
        exact Found.skip [t] (.space (.inr (.inl rfl)) hSpace)
          (ih more.length (by omega) (by omega) hr rfl)
      | continuation _ hContinuation =>
        rw [Descent.operand_continuation hContinuation] at h
        obtain ⟨r', hr, rfl⟩ := Descent.within_ok.1 h
        obtain ⟨u, rest, rfl, hGap⟩ := gap_continuation (.inr (.inl rfl)) hContinuation
        rw [List.length_cons] at hLength hSize
        exact Found.skip [t, u] hGap (ih rest.length (by omega) (by omega) hr rfl)
      | separator hSeparator =>
        by_cases hNewline : t.kind = .newline
        · rw [Descent.operand_newline hNewline] at h
          obtain ⟨r', hr, rfl⟩ := Descent.within_ok.1 h
          exact Found.skip [t] (.newline hNewline)
            (ih more.length (by omega) (by omega) hr rfl)
        · rw [Descent.operand_semicolon (Descent.eq_semicolon hSeparator hNewline)] at h
          cases h
      | operator hOperator =>
        rw [Descent.operand_operator hOperator] at h
        cases h
      | finish hEnd =>
        rw [Descent.operand_finish hEnd] at h
        cases nested <;> cases h
      | close hParen =>
        rw [Descent.operand_close hParen] at h
        cases nested <;> cases h
      | word hOpen =>
        rw [Descent.operand_word hOpen] at h
        obtain ⟨r', hr, rfl⟩ := Descent.within_ok.1 h
        obtain ⟨p, hCommand, hTree⟩ := command_sound hNested (by omega) hOpen hr
        exact ⟨p, .operand hCommand, hTree⟩

theorem chain_sound (hNested : NestedSound c n) {nested : Bool} {item : Item}
    {r : Reading Tree ts.length} (hLength : ts.length ≤ n)
    (h : Descent.chain c nested depth item ts = .ok r) (tokens : List Token) :
    Found c (.chain item.bare tokens) depth ts r.value r.rest := by
  obtain ⟨size, hSize⟩ : ∃ size, ts.length = size := ⟨_, rfl⟩
  induction size using Nat.strongRecOn generalizing ts item tokens with
  | ind size ih =>
    cases ts with
    | nil =>
      rw [Descent.chain] at h
      cases h
    | cons t more =>
      rw [List.length_cons] at hLength hSize
      rw [Descent.chain] at h
      by_cases hOperator : t.kind.isOperator = true
      · rw [if_pos hOperator] at h
        by_cases hMany : c.limit ≤ item.operands
        · rw [if_pos hMany] at h
          cases h
        rw [if_neg hMany] at h
        obtain ⟨next, hNext, h⟩ := Descent.bind_ok.1 h
        obtain ⟨r', hr, h⟩ := Descent.bind_ok.1 h
        obtain rfl := Except.ok.inj h
        have hShort := next.short
        obtain ⟨p, hOperand, hTree⟩ := operand_sound hNested (by omega) hNext
        obtain ⟨whole, hChain, hWhole⟩ := ih next.rest.length (by omega) (by omega) hr
          (tokens ++ blank :: t.bare :: blank :: p.tokens) rfl
        rw [Item.bare_join, ← hTree] at hChain
        exact ⟨whole, .chainLink hOperator hMany hOperand hChain, hWhole⟩
      · rw [if_neg hOperator] at h
        obtain rfl := Except.ok.inj h
        exact ⟨_, .chainStop (by simpa using hOperator), (Item.bare_tree item).symm⟩

/-- The root of the trees that are done and of those that are still to come. -/
def IsRoot (tree : Tree) (children : List Tree) : Prop :=
  ∃ first others, children = first :: others ∧ tree = .node .root first others none

theorem items_sound (hNested : NestedSound c n) {nested : Bool} {done : List Tree}
    {r : Reading Tree ts.length} (hLength : ts.length ≤ n)
    (h : Descent.items c nested depth done ts = .ok r) :
    ∃ ps, Reads c.limit (.items nested) depth (ts.map Token.bare) ps (r.rest.map Token.bare) ∧
      IsRoot r.value.bare (done.map Tree.bare ++ ps.map (·.tree)) := by
  obtain ⟨size, hSize⟩ : ∃ size, ts.length = size := ⟨_, rfl⟩
  induction size using Nat.strongRecOn generalizing ts done with
  | ind size ih =>
    cases ts with
    | nil =>
      rw [Descent.items] at h
      cases h
    | cons t more =>
      rw [List.length_cons] at hLength hSize
      cases Descent.front t more with
      | space hSpace =>
        rw [Descent.items_space hSpace] at h
        obtain ⟨r', hr, rfl⟩ := Descent.within_ok.1 h
        obtain ⟨ps, hReads, hRoot⟩ := ih more.length (by omega) (by omega) hr rfl
        exact ⟨ps, .skip (.space (t := t.bare) (.inr (.inr ⟨nested, rfl⟩)) hSpace) hReads, hRoot⟩
      | continuation _ hContinuation =>
        rw [Descent.items_continuation hContinuation] at h
        obtain ⟨r', hr, rfl⟩ := Descent.within_ok.1 h
        obtain ⟨u, rest, rfl, hGap⟩ := gap_continuation (.inr (.inr ⟨nested, rfl⟩)) hContinuation
        rw [List.length_cons] at hLength hSize
        obtain ⟨ps, hReads, hRoot⟩ :=
          ih rest.length (by omega) (show rest.length ≤ n by omega) hr rfl
        exact ⟨ps, .skip hGap hReads, hRoot⟩
      | separator hSeparator =>
        rw [Descent.items_separator hSeparator] at h
        obtain ⟨r', hr, rfl⟩ := Descent.within_ok.1 h
        obtain ⟨ps, hReads, hRoot⟩ := ih more.length (by omega) (by omega) hr rfl
        exact ⟨ps, .skip (.separator (t := t.bare) hSeparator) hReads, hRoot⟩
      | operator hOperator =>
        rw [Descent.items_operator hOperator] at h
        cases h
      | finish hKind =>
        rw [Descent.items_finish hKind] at h
        cases nested with
        | true => cases h
        | false =>
          cases done with
          | nil => cases h
          | cons first others =>
            obtain rfl := Except.ok.inj h
            exact ⟨[], .finish hKind, first.bare, others.map Tree.bare, by simp,
              by simp [Tree.bare]⟩
      | close hKind =>
        rw [Descent.items_close hKind] at h
        cases nested with
        | false => cases h
        | true =>
          cases done with
          | nil => cases h
          | cons first others =>
            obtain rfl := Except.ok.inj h
            exact ⟨[], .close hKind, first.bare, others.map Tree.bare, by simp,
              by simp [Tree.bare]⟩
      | word hWord =>
        rw [Descent.items_word hWord] at h
        obtain ⟨first, hFirst, h⟩ := Descent.bind_ok.1 h
        obtain ⟨item, hItem, h⟩ := Descent.bind_ok.1 h
        obtain ⟨r', hr, h⟩ := Descent.bind_ok.1 h
        obtain rfl := Except.ok.inj h
        have hShort := first.short
        have hShort' := item.short
        obtain ⟨p, hCommand, hTree⟩ := command_sound hNested (by omega) hWord hFirst
        obtain ⟨whole, hChain, hWhole⟩ := chain_sound hNested (by omega) hItem p.tokens
        rw [Item.bare_single, ← hTree] at hChain
        obtain ⟨ps, hReads, hRoot⟩ := ih item.rest.length (by omega) (by omega) hr rfl
        refine ⟨whole :: ps, .item hCommand hChain hReads, ?_⟩
        show IsRoot r'.value.bare _
        simpa [hWhole] using hRoot

theorem sequence_sound_of (hNested : NestedSound c n) {nested : Bool}
    {r : Reading Tree ts.length} (hLength : ts.length ≤ n)
    (h : Descent.sequence c nested depth ts = .ok r) :
    Found c (.sequence nested) depth ts r.value r.rest := by
  cases ts with
  | nil =>
    rw [Descent.sequence] at h
    cases h
  | cons t more =>
    rw [Descent.sequence] at h
    obtain ⟨u, hEnter, h⟩ := Descent.bind_ok.1 h
    obtain ⟨ps, hReads, first, others, hTrees, hRoot⟩ := items_sound hNested hLength h
    cases ps with
    | nil => cases hTrees
    | cons p ps =>
      obtain ⟨rfl, rfl⟩ := List.cons.inj hTrees
      exact ⟨_, .sequence (enter_ok hEnter) hReads, hRoot.symm⟩

theorem nestedSound (c : Context) (n : Nat) : NestedSound c n := by
  induction n with
  | zero =>
    intro depth ts r hLength
    exact absurd hLength (Nat.not_lt_zero _)
  | succ n ih =>
    intro depth ts r hLength h
    exact sequence_sound_of ih (Nat.le_of_lt_succ hLength) h

/-- What recursive descent reads is read by the grammar. -/
theorem sequence_sound {nested : Bool} {r : Reading Tree ts.length}
    (h : Descent.sequence c nested depth ts = .ok r) :
    Found c (.sequence nested) depth ts r.value r.rest :=
  sequence_sound_of (nestedSound c ts.length) (Nat.le_refl _) h

-- ---------------------------------------------------------------------------
-- Completeness of recursive descent
-- ---------------------------------------------------------------------------

/-- A computation succeeds, with `P` of its value and `rest` left. -/
def Returns {α : Type} {n : Nat} (x : Except Fault (Reading α n)) (P : α → Prop)
    (rest : List Token) : Prop :=
  ∃ r, x = .ok r ∧ P r.value ∧ r.rest.map Token.bare = rest

section Returns

variable {α β : Type} {m k : Nat} {x : Except Fault (Reading α m)} {P : α → Prop}
  {Q : β → Prop} {f : Reading α m → Except Fault (Reading β k)} {rest rest' : List Token}

/-- A computation in two parts returns what the second part makes of the first one's value. -/
theorem Returns.bind (h : Returns x P rest)
    (hNext : ∀ r : Reading α m, P r.value → r.rest.map Token.bare = rest →
      Returns (f r) Q rest') : Returns (x >>= f) Q rest' := by
  obtain ⟨r, hr, hValue, hRest⟩ := h
  obtain ⟨r', hr', hResult⟩ := hNext r hValue hRest
  exact ⟨r', Descent.bind_ok.2 ⟨r, hr, hr'⟩, hResult⟩

/-- What is read may be put to any use. -/
theorem Returns.keep (h : Returns x P rest)
    (hKeep : ∀ r : Reading α m, P r.value →
      ∃ r', f r = .ok r' ∧ Q r'.value ∧ r'.rest = r.rest) : Returns (x >>= f) Q rest := by
  refine h.bind fun r hValue hRest => ?_
  obtain ⟨r', hr', hValue', hRest'⟩ := hKeep r hValue
  exact ⟨r', hr', hValue', by rw [hRest', hRest]⟩

theorem Returns.within (h : Returns x P rest) {hShort : m ≤ k} :
    Returns (x >>= fun r => pure (r.within hShort)) P rest :=
  h.keep fun _ hValue => ⟨_, rfl, hValue, rfl⟩

/-- A production is entered where there is room. -/
theorem Returns.enter (h : Returns x P rest) (hRoom : ¬ c.limit ≤ depth) (t : Token) :
    Returns (c.enter depth t >>= fun _ => x) P rest := by
  rw [Context.enter, if_neg hRoom]
  exact h

end Returns

/-- A production that is entered at a token reads the phrases, whatever the offsets. -/
def Starts (f : (t : Token) → (more : List Token) → Except Fault (Reading Tree more.length))
    (bs : List Token) (ps : List Phrase) (rest : List Token) : Prop :=
  ∀ ts : List Token, ts.map Token.bare = bs → ∃ t more, ts = t :: more ∧
    atWordEnd t more = false ∧
    Returns (f t more) (fun tree => ps.map (·.tree) = [tree.bare]) rest

/-- Recursive descent reads what the rule reads, whatever the offsets. -/
def Complete (c : Context) : Rule → Nat → List Token → List Phrase → List Token → Prop
  | .piece role, depth, bs, ps, rest => Starts (Descent.piece c role depth) bs ps rest
  | .word role, depth, bs, ps, rest => Starts (Descent.word c role depth) bs ps rest
  | .part, depth, bs, ps, rest => Starts (Descent.part c depth) bs ps rest
  | .command, depth, bs, ps, rest => Starts (Descent.command c depth) bs ps rest
  | .pieces role, depth, bs, ps, rest => ∀ ts, ts.map Token.bare = bs →
    Returns (Descent.pieces c role depth ts)
      (fun trees => ps.map (·.tree) = trees.map Tree.bare) rest
  | .parts, depth, bs, ps, rest => ∀ ts, ts.map Token.bare = bs →
    Returns (Descent.parts c depth ts)
      (fun trees => ps.map (·.tree) = trees.map Tree.bare) rest
  | .operand, depth, bs, ps, rest => ∀ nested operator ts, ts.map Token.bare = bs →
    Returns (Descent.operand c nested depth operator ts)
      (fun tree => ps.map (·.tree) = [tree.bare]) rest
  | .chain item _, depth, bs, ps, rest => ∀ nested item' ts, item'.bare = item →
    ts.map Token.bare = bs → Returns (Descent.chain c nested depth item' ts)
      (fun tree => ps.map (·.tree) = [tree.bare]) rest
  | .items nested, depth, bs, ps, rest => ∀ done ts, ts.map Token.bare = bs →
    done.map Tree.bare ++ ps.map (·.tree) ≠ [] →
    Returns (Descent.items c nested depth done ts)
      (fun tree => IsRoot tree.bare (done.map Tree.bare ++ ps.map (·.tree))) rest
  | .sequence nested, depth, bs, ps, rest => ∀ ts, ts.map Token.bare = bs →
    Returns (Descent.sequence c nested depth ts)
      (fun tree => ps.map (·.tree) = [tree.bare]) rest

theorem quoted_complete (opener : Token) {bs parts rest : List Token} {closer : Token}
    (h : Quoted opener.kind bs parts closer rest) (hTs : ts.map Token.bare = bs) :
    Returns (Descent.quoted c opener ts) (fun ps => ps.map Token.bare = parts) rest := by
  induction h generalizing ts with
  | close hEnd hClose =>
    obtain ⟨t, more, rfl, rfl, rfl⟩ := List.map_eq_cons_iff.1 hTs
    rw [Token.bare_kind] at hEnd hClose
    rw [Descent.quoted, if_neg hEnd, if_pos hClose]
    exact ⟨_, rfl, rfl, rfl⟩
  | escape hEnd hClose hOpener hEscape _ ih =>
    obtain ⟨t, more, rfl, rfl, hMore⟩ := List.map_eq_cons_iff.1 hTs
    obtain ⟨u, more, rfl, rfl, rfl⟩ := List.map_eq_cons_iff.1 hMore
    have hBoth : opener.kind = .doubleQuote ∧ startsEscape t (u :: more) = true :=
      ⟨hOpener, (startsEscape_bare t (u :: more)).symm.trans hEscape⟩
    rw [Token.bare_kind] at hEnd hClose
    rw [Descent.quoted, if_neg hEnd, if_neg hClose, if_pos hBoth]
    exact (ih rfl).keep fun r hParts => ⟨_, rfl, by simp [hParts], rfl⟩
  | plain hEnd hClose hEscape _ ih =>
    obtain ⟨t, more, rfl, rfl, rfl⟩ := List.map_eq_cons_iff.1 hTs
    rw [Token.bare_kind] at hEnd hClose
    rw [Descent.quoted, if_neg hEnd, if_neg hClose, if_neg (by simpa using hEscape)]
    exact (ih rfl).keep fun r hParts => ⟨_, rfl, by simp [hParts], rfl⟩

theorem atWordEnd_of_isQuote (h : t.kind.isQuote = true) : atWordEnd t more = false := by
  have hKind : t.kind = .singleQuote ∨ t.kind = .doubleQuote := by
    cases hKind : t.kind <;> simp [hKind, Token.Kind.isQuote] at h ⊢
  rw [Descent.atWordEnd_eq_false]
  rcases hKind with hKind | hKind <;>
    simp [hKind, Token.Kind.isSeparator, Token.Kind.isOperator,
      Descent.startsContinuation_of_ne]

theorem atWordEnd_of_kind (h : t.kind = .dollar ∨ t.kind = .word) :
    atWordEnd t more = false := by
  rw [Descent.atWordEnd_eq_false]
  rcases h with h | h <;>
    simp [h, Token.Kind.isSeparator, Token.Kind.isOperator, Descent.startsContinuation_of_ne]

/-- A continuation, whatever its offsets. -/
theorem continuation_of_bare {t u : Token} {bs : List Token} (hBackslash : t.kind = .backslash)
    (hNewline : u.kind = .newline) (hTs : ts.map Token.bare = t :: u :: bs) :
    ∃ t' u' more, ts = t' :: u' :: more ∧
      Token.startsContinuation (t' :: u' :: more) = true ∧ more.map Token.bare = bs := by
  obtain ⟨t, more, rfl, rfl, hMore⟩ := List.map_eq_cons_iff.1 hTs
  obtain ⟨u, more, rfl, rfl, rfl⟩ := List.map_eq_cons_iff.1 hMore
  exact ⟨t, u, more, rfl,
    Descent.startsContinuation_iff.2 ⟨hBackslash, u, more, rfl, hNewline⟩, rfl⟩

section Complete

variable {bs between rest : List Token} {first : Phrase} {others : List Phrase}

theorem string_complete {quote closer : Token} {parts : List Token}
    (hQuote : quote.kind.isQuote = true) (hRoom : ¬ c.limit ≤ depth)
    (h : Quoted quote.kind bs parts closer rest) :
    Complete c (.piece role) depth (quote :: bs)
      [⟨(stringTree quote parts).bare, quote :: parts ++ [closer]⟩] rest := by
  intro ts hTs
  obtain ⟨t, more, rfl, rfl, rfl⟩ := List.map_eq_cons_iff.1 hTs
  rw [Token.bare_kind] at hQuote
  refine ⟨t, more, rfl, atWordEnd_of_isQuote hQuote, ?_⟩
  rw [Descent.piece, if_pos hQuote]
  refine Returns.enter ((quoted_complete t h rfl).keep ?_) hRoom t
  rintro r rfl
  exact ⟨_, rfl, by simp [← Descent.bare_stringTree], rfl⟩

theorem substitution_complete {dollar paren close : Token} {root : Phrase}
    (hDollar : dollar.kind = .dollar) (hParen : paren.kind = .leftParenthesis)
    (hRoom : ¬ c.limit ≤ depth) (hClose : close.kind = .rightParenthesis)
    (h : Complete c (.sequence true) (depth + 1) bs [root] (close :: rest)) :
    Complete c (.piece role) depth (dollar :: paren :: bs)
      [⟨.node .substitution root.tree [] none, dollar :: paren :: root.tokens ++ [close]⟩]
      rest := by
  intro ts hTs
  obtain ⟨dollar, more, rfl, rfl, hMore⟩ := List.map_eq_cons_iff.1 hTs
  obtain ⟨paren, inside, rfl, rfl, rfl⟩ := List.map_eq_cons_iff.1 hMore
  rw [Token.bare_kind] at hDollar hParen
  have hQuote : ¬ dollar.kind.isQuote = true := by simp [hDollar, Token.Kind.isQuote]
  have hStart : startsSubstitution dollar (paren :: inside) = true :=
    Descent.startsSubstitution_iff.2 ⟨hDollar, paren, inside, rfl, hParen⟩
  refine ⟨dollar, paren :: inside, rfl, atWordEnd_of_kind (.inl hDollar), ?_⟩
  rw [Descent.piece, if_neg hQuote, if_pos hStart, Descent.substitution]
  refine (Returns.enter ((h inside rfl).bind ?_) hRoom dollar).within
  rintro ⟨root', left, hShort⟩ hTree hLeft
  obtain ⟨close, left, rfl, rfl, rfl⟩ := List.map_eq_cons_iff.1 hLeft
  rw [Token.bare_kind] at hClose
  show Returns (Descent.closing c ⟨root', close :: left, hShort⟩) _ _
  rw [Descent.closing, if_pos hClose]
  have hRoot : root.tree = root'.bare := (List.cons.inj hTree).1
  exact ⟨_, rfl, by simp [Tree.bare, hRoot], rfl⟩

theorem pieces_complete (hFirst : Complete c (.piece role) depth bs [first] between)
    (hOthers : Complete c (.pieces role) depth between others rest) :
    Complete c (.pieces role) depth bs (first :: others) rest := by
  intro ts hTs
  obtain ⟨t, more, rfl, hOpen, hPiece⟩ := hFirst ts hTs
  rw [Descent.pieces, if_neg (by simp [hOpen])]
  refine hPiece.bind fun piece hTree hBetween => ?_
  refine (hOthers piece.rest hBetween).keep fun pieces hTrees => ⟨_, rfl, ?_, rfl⟩
  exact congrArg₂ List.cons (List.cons.inj hTree).1 hTrees

theorem word_complete (hRoom : ¬ c.limit ≤ depth)
    (hFirst : Complete c (.piece role) (depth + 1) bs [first] between)
    (hOthers : Complete c (.pieces role) (depth + 1) between others rest) :
    Complete c (.word role) depth bs
      [⟨wordTree role first.tree (others.map (·.tree)),
        first.tokens ++ others.flatMap (·.tokens)⟩] rest := by
  intro ts hTs
  obtain ⟨t, more, rfl, hOpen, hPiece⟩ := hFirst ts hTs
  refine ⟨t, more, rfl, hOpen, ?_⟩
  rw [Descent.word]
  refine Returns.enter (hPiece.bind fun piece hTree hBetween => ?_) hRoom t
  refine (hOthers piece.rest hBetween).keep fun pieces hTrees => ⟨_, rfl, ?_, rfl⟩
  have hFirstTree : first.tree = piece.value.bare := (List.cons.inj hTree).1
  simp [Descent.bare_wordTree, hFirstTree, hTrees]

theorem assignmentEmpty_complete {name equals t : Token}
    (hStart : startsAssignment name (equals :: t :: bs) = true) (hRoom : ¬ c.limit ≤ depth)
    (hEnd : atWordEnd t bs = true) :
    Complete c .part depth (name :: equals :: t :: bs)
      [⟨.node .assignment (.leaf .lhs name none) [] none, [name, equals]⟩] (t :: bs) := by
  intro ts hTs
  obtain ⟨name, more, rfl, rfl, hMore⟩ := List.map_eq_cons_iff.1 hTs
  obtain ⟨equals, ts, rfl, rfl, hMore'⟩ := List.map_eq_cons_iff.1 hMore
  obtain ⟨t, more, rfl, rfl, rfl⟩ := List.map_eq_cons_iff.1 hMore'
  replace hStart := (startsAssignment_bare name (equals :: t :: more)).symm.trans hStart
  have hName := (Descent.startsAssignment_iff.1 hStart).1
  refine ⟨name, _, rfl, atWordEnd_of_kind (.inr hName), ?_⟩
  rw [Descent.part, if_pos hStart]
  apply Returns.within
  show Returns (Descent.assignment c depth name (t :: more)) _ _
  rw [Descent.assignment]
  refine Returns.enter ?_ hRoom name
  rw [if_pos (by simpa using hEnd)]
  exact ⟨_, rfl, by simp [Tree.bare], rfl⟩

theorem assignment_complete {name equals : Token} {value : Phrase}
    (hStart : startsAssignment name (equals :: bs) = true) (hRoom : ¬ c.limit ≤ depth)
    (h : Complete c (.word .value) (depth + 1) bs [value] rest) :
    Complete c .part depth (name :: equals :: bs)
      [⟨.node .assignment (.leaf .lhs name none) [value.tree] none,
        name :: equals :: value.tokens⟩] rest := by
  intro ts hTs
  obtain ⟨name, more, rfl, rfl, hMore⟩ := List.map_eq_cons_iff.1 hTs
  obtain ⟨equals, ts, rfl, rfl, hMore'⟩ := List.map_eq_cons_iff.1 hMore
  obtain ⟨t, more, rfl, hOpen, hWord⟩ := h ts hMore'
  subst hMore'
  replace hStart := (startsAssignment_bare name (equals :: t :: more)).symm.trans hStart
  have hName := (Descent.startsAssignment_iff.1 hStart).1
  refine ⟨name, _, rfl, atWordEnd_of_kind (.inr hName), ?_⟩
  rw [Descent.part, if_pos hStart]
  apply Returns.within
  show Returns (Descent.assignment c depth name (t :: more)) _ _
  rw [Descent.assignment]
  refine Returns.enter ?_ hRoom name
  rw [if_neg (by simp [hOpen])]
  refine hWord.keep fun r hTree => ⟨_, rfl, ?_, rfl⟩
  have hValue : value.tree = r.value.bare := (List.cons.inj hTree).1
  simp [Tree.bare, hValue]

theorem parts_complete (hFirst : Complete c .part depth bs [first] between)
    (hOthers : Complete c .parts depth between others rest) :
    Complete c .parts depth bs (first :: others) rest := by
  intro ts hTs
  obtain ⟨t, more, rfl, hOpen, hPart⟩ := hFirst ts hTs
  rw [Descent.parts_word hOpen]
  refine hPart.bind fun part hTree hBetween => ?_
  refine (hOthers part.rest hBetween).keep fun parts hTrees => ⟨_, rfl, ?_, rfl⟩
  exact congrArg₂ List.cons (List.cons.inj hTree).1 hTrees

theorem command_complete (hRoom : ¬ c.limit ≤ depth)
    (hFirst : Complete c .part (depth + 1) bs [first] between)
    (hOthers : Complete c .parts (depth + 1) between others rest) :
    Complete c .command depth bs
      [⟨.node .command first.tree (others.map (·.tree)) none,
        first.tokens ++ others.flatMap fun p => blank :: p.tokens⟩] rest := by
  intro ts hTs
  obtain ⟨t, more, rfl, hOpen, hPart⟩ := hFirst ts hTs
  refine ⟨t, more, rfl, hOpen, ?_⟩
  rw [Descent.command]
  refine Returns.enter (hPart.bind fun part hTree hBetween => ?_) hRoom t
  refine (hOthers part.rest hBetween).keep fun parts hTrees => ⟨_, rfl, ?_, rfl⟩
  have hFirstTree : first.tree = part.value.bare := (List.cons.inj hTree).1
  simp [Tree.bare, hFirstTree, hTrees]

theorem chain_complete {item : Item} {tokens : List Token} {t : Token} {next whole : Phrase}
    (hOperator : t.kind.isOperator = true) (hCount : ¬ c.limit ≤ item.operands)
    (hNext : Complete c .operand depth bs [next] between)
    (hRest : Complete c (.chain (item.join t.kind next.tree)
      (tokens ++ blank :: t :: blank :: next.tokens)) depth between [whole] rest) :
    Complete c (.chain item tokens) depth (t :: bs) [whole] rest := by
  intro nested item ts hItem hTs
  obtain ⟨t, more, rfl, rfl, rfl⟩ := List.map_eq_cons_iff.1 hTs
  subst hItem
  have hCount : ¬ c.limit ≤ item.operands := hCount
  rw [Token.bare_kind] at hOperator
  rw [Descent.chain, if_pos hOperator, if_neg hCount]
  refine (hNext nested t more rfl).bind fun command hTree hBetween => ?_
  have hJoin : (item.join t.kind command.value).bare = item.bare.join t.kind next.tree :=
    (Item.bare_join item t.kind command.value).trans
      (congrArg (item.bare.join t.kind) (List.cons.inj hTree).1.symm)
  exact (hRest nested _ command.rest hJoin hBetween).within

/-- A sequence closes behind an item. -/
theorem finish_complete {t : Token} (hEnd : t.kind = .endOfInput) :
    Complete c (.items false) depth (t :: bs) [] bs := by
  intro done ts hTs hSome
  obtain ⟨t, more, rfl, rfl, rfl⟩ := List.map_eq_cons_iff.1 hTs
  rw [Token.bare_kind] at hEnd
  rw [Descent.items_finish hEnd]
  cases done with
  | nil => exact absurd rfl hSome
  | cons first others =>
    exact ⟨_, rfl, ⟨first.bare, others.map Tree.bare, by simp, by simp [Tree.bare]⟩, rfl⟩

theorem close_complete {t : Token} (hClose : t.kind = .rightParenthesis) :
    Complete c (.items true) depth (t :: bs) [] (t :: bs) := by
  intro done ts hTs hSome
  obtain ⟨t, more, rfl, rfl, rfl⟩ := List.map_eq_cons_iff.1 hTs
  rw [Token.bare_kind] at hClose
  rw [Descent.items_close hClose]
  cases done with
  | nil => exact absurd rfl hSome
  | cons first others =>
    exact ⟨_, rfl, ⟨first.bare, others.map Tree.bare, by simp, by simp [Tree.bare]⟩, rfl⟩

theorem item_complete {nested : Bool} {behind : List Token} {whole : Phrase}
    (hFirst : Complete c .command depth bs [first] behind)
    (hChain : Complete c (.chain (.single first.tree) first.tokens) depth behind [whole]
      between)
    (hOthers : Complete c (.items nested) depth between others rest) :
    Complete c (.items nested) depth bs (whole :: others) rest := by
  intro done ts hTs hSome
  obtain ⟨t, more, rfl, hOpen, hCommand⟩ := hFirst ts hTs
  rw [Descent.items_word hOpen]
  refine hCommand.bind fun command hTree hBehind => ?_
  have hSingle : (Item.single command.value).bare = .single first.tree :=
    congrArg Item.single (List.cons.inj hTree).1.symm
  refine (hChain nested _ command.rest hSingle hBehind).bind fun item hWhole hBetween => ?_
  have hItem : whole.tree = item.value.bare := (List.cons.inj hWhole).1
  have hRest := hOthers (done ++ [item.value]) item.rest hBetween (by simp)
  refine hRest.keep fun r hRoot => ⟨_, rfl, ?_, rfl⟩
  simpa [hItem] using hRoot

theorem sequence_complete {nested : Bool} (hRoom : ¬ c.limit ≤ depth)
    (h : Complete c (.items nested) (depth + 1) bs (first :: others) rest) :
    Complete c (.sequence nested) depth bs
      [⟨.node .root first.tree (others.map (·.tree)) none,
        first.tokens ++ others.flatMap fun p => semicolon :: blank :: p.tokens⟩] rest := by
  intro ts hTs
  have hItems := h [] ts hTs (by simp)
  cases ts with
  | nil =>
    rw [Descent.items] at hItems
    obtain ⟨r, hr, -⟩ := hItems
    cases hr
  | cons t more =>
    rw [Descent.sequence]
    refine Returns.enter ?_ hRoom t
    obtain ⟨r, hr, ⟨first', others', hTrees, hRoot⟩, hRest⟩ := hItems
    obtain ⟨rfl, rfl⟩ := List.cons.inj hTrees
    exact ⟨r, hr, by simp [hRoot], hRest⟩

/-- Recursive descent skips what a rule skips. -/
theorem skip_complete {rule : Rule} {gap : List Token} {ps : List Phrase}
    (hGap : Gap rule gap) (h : Complete c rule depth bs ps rest) :
    Complete c rule depth (gap ++ bs) ps rest := by
  cases hGap with
  | space hRule hSpace =>
    rcases hRule with rfl | rfl | ⟨nested, rfl⟩
    · intro ts hTs
      obtain ⟨t, more, rfl, rfl, rfl⟩ := List.map_eq_cons_iff.1 hTs
      rw [Token.bare_kind] at hSpace
      rw [Descent.parts_space hSpace]
      exact (h more rfl).within
    · intro nested operator ts hTs
      obtain ⟨t, more, rfl, rfl, rfl⟩ := List.map_eq_cons_iff.1 hTs
      rw [Token.bare_kind] at hSpace
      rw [Descent.operand_space hSpace]
      exact (h nested operator more rfl).within
    · intro done ts hTs hSome
      obtain ⟨t, more, rfl, rfl, rfl⟩ := List.map_eq_cons_iff.1 hTs
      rw [Token.bare_kind] at hSpace
      rw [Descent.items_space hSpace]
      exact (h done more rfl hSome).within
  | continuation hRule hBackslash hNewline =>
    rcases hRule with rfl | rfl | ⟨nested, rfl⟩
    · intro ts hTs
      obtain ⟨t, u, more, rfl, hContinuation, rfl⟩ := continuation_of_bare hBackslash hNewline hTs
      rw [Descent.parts_continuation hContinuation]
      exact (h more rfl).within
    · intro nested operator ts hTs
      obtain ⟨t, u, more, rfl, hContinuation, rfl⟩ := continuation_of_bare hBackslash hNewline hTs
      rw [Descent.operand_continuation hContinuation]
      exact (h nested operator more rfl).within
    · intro done ts hTs hSome
      obtain ⟨t, u, more, rfl, hContinuation, rfl⟩ := continuation_of_bare hBackslash hNewline hTs
      rw [Descent.items_continuation hContinuation]
      exact (h done more rfl hSome).within
  | newline hNewline =>
    intro nested operator ts hTs
    obtain ⟨t, more, rfl, rfl, rfl⟩ := List.map_eq_cons_iff.1 hTs
    rw [Token.bare_kind] at hNewline
    rw [Descent.operand_newline hNewline]
    exact (h nested operator more rfl).within
  | separator hSeparator =>
    intro done ts hTs hSome
    obtain ⟨t, more, rfl, rfl, rfl⟩ := List.map_eq_cons_iff.1 hTs
    rw [Token.bare_kind] at hSeparator
    rw [Descent.items_separator hSeparator]
    exact (h done more rfl hSome).within

/-- What the grammar reads is read by recursive descent. -/
theorem complete {rule : Rule} {ps : List Phrase}
    (h : Reads c.limit rule depth bs ps rest) : Complete c rule depth bs ps rest := by
  induction h with
  | literal hOpen hQuote hSubstitution =>
    intro ts hTs
    obtain ⟨t, more, rfl, rfl, rfl⟩ := List.map_eq_cons_iff.1 hTs
    refine ⟨t, more, rfl, by simpa using hOpen, ?_⟩
    rw [Descent.piece, if_neg (by simpa using hQuote), if_neg (by simpa using hSubstitution)]
    exact ⟨_, rfl, rfl, rfl⟩
  | string hQuote hRoom hQuoted => exact string_complete hQuote hRoom hQuoted
  | substitution hDollar hParen hRoom _ hClose ih =>
    exact substitution_complete hDollar hParen hRoom hClose ih
  | piecesNil hEnd =>
    intro ts hTs
    obtain ⟨t, more, rfl, rfl, rfl⟩ := List.map_eq_cons_iff.1 hTs
    rw [Descent.pieces, if_pos (by simpa using hEnd)]
    exact ⟨_, rfl, rfl, rfl⟩
  | piecesCons _ _ ihFirst ihOthers => exact pieces_complete ihFirst ihOthers
  | word hRoom _ _ ihFirst ihOthers => exact word_complete hRoom ihFirst ihOthers
  | assignmentEmpty hStart hRoom hEnd => exact assignmentEmpty_complete hStart hRoom hEnd
  | assignment hStart hRoom _ ih => exact assignment_complete hStart hRoom ih
  | argument hStart _ ih =>
    intro ts hTs
    obtain ⟨t, more, rfl, hOpen, hWord⟩ := ih ts hTs
    refine ⟨t, more, rfl, hOpen, ?_⟩
    obtain ⟨rfl, rfl⟩ := List.cons.inj hTs
    rw [Descent.part, if_neg (by simpa using hStart)]
    exact hWord
  | skip hGap _ ih => exact skip_complete hGap ih
  | partsNil hEnds =>
    intro ts hTs
    obtain ⟨t, more, rfl, rfl, rfl⟩ := List.map_eq_cons_iff.1 hTs
    rw [Token.bare_kind] at hEnds
    rw [Descent.parts_ends hEnds]
    exact ⟨_, rfl, rfl, rfl⟩
  | partsCons _ _ ihFirst ihOthers => exact parts_complete ihFirst ihOthers
  | command hRoom _ _ ihFirst ihOthers => exact command_complete hRoom ihFirst ihOthers
  | operand _ ih =>
    intro nested operator ts hTs
    obtain ⟨t, more, rfl, hOpen, hCommand⟩ := ih ts hTs
    rw [Descent.operand_word hOpen]
    exact hCommand.within
  | chainStop hOther =>
    intro nested item ts hItem hTs
    obtain ⟨t, more, rfl, rfl, rfl⟩ := List.map_eq_cons_iff.1 hTs
    rw [Descent.chain, if_neg (by simpa using hOther)]
    exact ⟨_, rfl, by simp [Item.bare_tree, hItem], rfl⟩
  | chainLink hOperator hCount _ _ ihNext ihRest =>
    exact chain_complete hOperator hCount ihNext ihRest
  | finish hEnd => exact finish_complete hEnd
  | close hClose => exact close_complete hClose
  | item _ _ _ ihFirst ihChain ihOthers => exact item_complete ihFirst ihChain ihOthers
  | sequence hRoom _ ih => exact sequence_complete hRoom ih

end Complete

-- ---------------------------------------------------------------------------
-- Whole lists
-- ---------------------------------------------------------------------------

variable {tokens : List Token} {limit : Int} {tree : Tree}

/-- A list that has a tree is read by the grammar, to its end. -/
theorem reads_of_parseTokens (h : parseTokens tokens limit = .ok tree) :
    ∃ p, Reads limit (.sequence false) 0 (tokens.map Token.bare) [p] [] ∧
      p.tree = tree.bare := by
  rw [parseTokens, Machine.outcome_readTree, Descent.parseTokens] at h
  cases hSequence : Descent.sequence ⟨limit, tokens.getLast?⟩ false 0 tokens with
  | error fault =>
    rw [hSequence] at h
    cases h
  | ok r =>
    rw [hSequence] at h
    obtain ⟨p, hReads, hTree⟩ := sequence_sound hSequence
    change (Descent.checkEnd tokens r).mapError Failure.fault = .ok tree at h
    rw [Descent.checkEnd] at h
    split at h
    · cases h
    · cases hRest : r.rest with
      | nil =>
        rw [hRest] at h hReads
        obtain rfl : r.value = tree := Except.ok.inj h
        exact ⟨p, hReads, hTree⟩
      | cons next more =>
        rw [hRest] at h
        cases h

/-- A list that the grammar reads to its end has the tree that the grammar finds. -/
theorem parseTokens_of_reads {p : Phrase}
    (h : Reads limit (.sequence false) 0 (tokens.map Token.bare) [p] [])
    (hEnd : tokens.getLast?.map (·.kind) = some .endOfInput) :
    ∃ tree, parseTokens tokens limit = .ok tree ∧ tree.bare = p.tree := by
  obtain ⟨r, hSequence, hTree, hRest⟩ :=
    complete (c := ⟨limit, tokens.getLast?⟩) h tokens rfl
  have hRest : r.rest = [] := List.map_eq_nil_iff.1 hRest
  refine ⟨r.value, ?_, (List.cons.inj hTree).1.symm⟩
  have hCheck : Descent.checkEnd tokens r = .ok r.value := by
    rw [Descent.checkEnd]
    simp [hRest, hEnd]
  rw [parseTokens, Machine.outcome_readTree, Descent.parseTokens]
  show ((Descent.sequence _ false 0 tokens >>= Descent.checkEnd tokens).mapError _) = _
  rw [hSequence]
  show (Descent.checkEnd tokens r).mapError Failure.fault = _
  rw [hCheck]
  rfl

end Grammar

end ShellReader
