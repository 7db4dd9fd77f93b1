import ShellReader.Proofs.Marking

/-!
# ShellReader — the trees that are returned

Which trees can come out of a token list. What a tree of a given kind looks like is said of
the tree and its children (`Tree.Obeys`); a string also refers to the tokens, since its quote
and its parts are those of a stretch of the list. Words need some care: a word of a single
literal token is that token by itself, so a word with children never has a single literal
one.

## Results

* `Marking.Yields.admits` — what the trees of a form are by themselves.
* `Marking.Yields.formed` — their descendants, too, are as their kinds have it.
* `parseTokens_formed` — every part of the tree of a token list is.
-/

namespace ShellReader

open Production (binary operatorKind)

namespace Tree

/-- A command, or commands joined by operators. -/
def Kind.isItem : Kind → Bool
  | command | pipe | andIf | orIf => true
  | _ => false

/-- One side of an operator: a node around a command or around joined commands. -/
def IsSide (kind : Kind) (t : Tree) : Prop :=
  t.kind = kind ∧ ∃ c, t.children = [c] ∧ c.kind.isItem = true

/-- A piece of a word: a literal token, a string or a substitution. -/
def IsPiece (role : WordRole) (t : Tree) : Prop :=
  (t.isTerminal = true ∧ t.kind = role.partKind) ∨
    (t.isTerminal = false ∧ (t.kind = .string ∨ t.kind = .substitution))

/-- A word: a token by itself, or pieces that are not a single literal token. -/
def IsWord (role : WordRole) (t : Tree) : Prop :=
  t.kind = role.kind ∧ (t.isTerminal = true ∨
    (∀ c ∈ t.children, c.IsPiece role) ∧ ∀ c, t.children = [c] → c.kind ≠ role.partKind)

/-- The name of an assignment. -/
def IsName (t : Tree) : Prop :=
  t.kind = .lhs ∧ ∃ name, t.token? = some name ∧ name.kind = .word ∧
    name.text.isIdentifier = true

/-- A string of the list: the tokens between two quotes are its parts, and the text of the
first quote is its own. The part of an empty string is made up, right behind that quote. -/
def IsString (tokens : List Token) (t : Tree) : Prop :=
  t.isTerminal = false ∧ (∀ c ∈ t.children, c.kind = .stringPart ∧ c.isTerminal = true) ∧
    ∃ opener parts closer, opener :: parts ++ [closer] <:+: tokens ∧
      opener.kind.isQuote = true ∧ closer.kind = opener.kind ∧ t.quote = some opener.text ∧
      t.children.filterMap token? =
        if parts = [] then [⟨opener.kind, [], opener.offset + 1⟩] else parts

/-- What a tree looks like, by its kind. -/
def Obeys (tokens : List Token) (t : Tree) : Prop :=
  match t.kind with
  | .root => t.isTerminal = false ∧ ∀ c ∈ t.children, c.kind.isItem = true
  | .pipe | .andIf | .orIf =>
    ∃ left right, t.children = [left, right] ∧ left.IsSide .lhs ∧ right.IsSide .rhs
  | .command =>
    t.isTerminal = false ∧ ∀ c ∈ t.children, c.kind = .argument ∨ c.kind = .assignment
  | .assignment => ∃ name, name.IsName ∧
    (t.children = [name] ∨ ∃ value, t.children = [name, value] ∧ value.IsWord .value)
  | .argument => t.IsWord .argument
  | .lhs => t.IsName ∨ t.IsSide .lhs
  | .rhs => t.IsWord .value ∨ t.IsSide .rhs
  | .string => t.IsString tokens
  | .substitution => ∃ root, t.children = [root] ∧ root.kind = .root
  | .argumentPart | .valuePart | .stringPart => t.isTerminal = true

/-- A tree as it should be: it looks like its kind, it has a quote only if it is a string, and
if it is a literal token of a word, the token is no quote and nothing that ends a word. -/
structure Formed (tokens : List Token) (t : Tree) : Prop where
  obeys : t.Obeys tokens
  quote : t.kind ≠ .string → t.quote = none
  plain : t.kind ∈ [.argument, .argumentPart, .rhs, .valuePart] →
    ∀ token, t.token? = some token →
      token.kind.isQuote = false ∧ token.kind.endsArgument = false

/-- Trees all parts of which are as they should be. -/
def AllFormed (tokens : List Token) (trees : List Tree) : Prop :=
  ∀ t ∈ walkAll trees, t.Formed tokens

variable {tokens tokens' : List Token} {t first : Tree} {others : List Tree} {kind : Kind}
  {quote : Option Text} {role : WordRole}

theorem allFormed_nil : AllFormed tokens [] := by
  simp [AllFormed, walkAll]

theorem allFormed_cons : AllFormed tokens (t :: others) ↔
    AllFormed tokens [t] ∧ AllFormed tokens others := by
  simp [AllFormed, walkAll, or_imp, forall_and]

theorem allFormed_leaf {token : Token} :
    AllFormed tokens [.leaf kind token quote] ↔ Formed tokens (.leaf kind token quote) := by
  simp [AllFormed, walkAll, walk]

theorem allFormed_node : AllFormed tokens [.node kind first others quote] ↔
    Formed tokens (.node kind first others quote) ∧ AllFormed tokens (first :: others) := by
  simp [AllFormed, walkAll, walk, or_imp, forall_and]

theorem IsString.mono (h : t.IsString tokens) (hInfix : tokens <:+: tokens') :
    t.IsString tokens' := by
  obtain ⟨hNode, hParts, opener, parts, closer, hTokens, hString⟩ := h
  exact ⟨hNode, hParts, opener, parts, closer, hTokens.trans hInfix, hString⟩

/-- Only strings refer to the list. -/
theorem Obeys.mono (h : t.Obeys tokens) (hInfix : tokens <:+: tokens') : t.Obeys tokens' := by
  unfold Obeys at h ⊢
  cases hKind : t.kind with
  | string =>
    rw [hKind] at h
    exact IsString.mono h hInfix
  | _ =>
    rw [hKind] at h
    exact h

theorem AllFormed.mono {trees : List Tree} (h : AllFormed tokens trees)
    (hInfix : tokens <:+: tokens') : AllFormed tokens' trees :=
  fun t ht => ⟨(h t ht).obeys.mono hInfix, (h t ht).quote, (h t ht).plain⟩

/-- A tree with children is as it should be if it obeys its kind, its quote aside. -/
theorem formed_node (h : Obeys tokens (.node kind first others quote))
    (hQuote : kind ≠ .string → quote = none) : Formed tokens (.node kind first others quote) := by
  refine ⟨h, hQuote, ?_⟩
  intro _ token hToken
  cases hToken

-- ---------------------------------------------------------------------------
-- Words, strings and operators
-- ---------------------------------------------------------------------------

/-- A string or a substitution is no literal token. -/
theorem IsPiece.kind_ne (h : t.IsPiece role) (hNode : t.isTerminal = false) :
    t.kind ≠ role.partKind := by
  rcases h with ⟨hLeaf, -⟩ | ⟨-, hKind⟩
  · rw [hNode] at hLeaf
    cases hLeaf
  · rcases hKind with hKind | hKind <;> rw [hKind] <;> cases role <;> exact Kind.noConfusion

theorem isWord_wordTree (hFirst : first.IsPiece role) (hOthers : ∀ t ∈ others, t.IsPiece role) :
    (Descent.wordTree role first others).IsWord role := by
  have hAll : ∀ t ∈ first :: others, t.IsPiece role := by
    intro t ht
    rcases List.mem_cons.1 ht with rfl | ht
    · exact hFirst
    · exact hOthers t ht
  cases first with
  | leaf kind token quote =>
    cases others with
    | nil => exact ⟨rfl, .inl rfl⟩
    | cons other others =>
      refine ⟨rfl, .inr ⟨hAll, fun c hChild => ?_⟩⟩
      cases hChild
  | node kind first rest quote =>
    refine ⟨rfl, .inr ⟨hAll, fun c hChild => ?_⟩⟩
    obtain ⟨rfl, -⟩ := List.cons.inj hChild
    exact hFirst.kind_ne rfl

/-- A word is as it should be if its pieces are. -/
theorem allFormed_wordTree (hFirst : first.IsPiece role)
    (hOthers : ∀ t ∈ others, t.IsPiece role) (h : AllFormed tokens (first :: others)) :
    AllFormed tokens [Descent.wordTree role first others] := by
  have hWord := isWord_wordTree hFirst hOthers
  have hObeys : (Descent.wordTree role first others).Obeys tokens := by
    unfold Obeys
    rw [hWord.1]
    cases role with
    | argument => exact hWord
    | value => exact .inl hWord
  cases first with
  | node kind first rest quote => exact allFormed_node.2 ⟨formed_node hObeys fun _ => rfl, h⟩
  | leaf kind token quote =>
    cases others with
    | cons other others => exact allFormed_node.2 ⟨formed_node hObeys fun _ => rfl, h⟩
    | nil =>
      -- The token of a literal piece becomes the token of the word.
      obtain rfl : kind = role.partKind := by
        rcases hFirst with ⟨-, hKind⟩ | ⟨hNode, -⟩
        · exact hKind
        · cases hNode
      have hLiteral : role.partKind ∈ [.argument, .argumentPart, .rhs, .valuePart] := by
        cases role <;> simp [WordRole.partKind]
      have hPlain := (allFormed_leaf.1 h).plain hLiteral
      exact allFormed_leaf.2 ⟨hObeys, fun _ => rfl, fun _ => hPlain⟩

/-- The parts of a string, and the string itself. -/
theorem allFormed_stringTree {opener closer : Token} {parts : List Token}
    (hTokens : opener :: parts ++ [closer] <:+: tokens) (hQuote : opener.kind.isQuote = true)
    (hClose : closer.kind = opener.kind) :
    AllFormed tokens [Descent.stringTree opener parts] := by
  have hPart (part : Token) : Formed tokens (.leaf .stringPart part none) :=
    ⟨rfl, fun _ => rfl, fun hKind => by simp [Tree.kind] at hKind⟩
  have hParts (parts : List Token) :
      AllFormed tokens (parts.map fun part => .leaf .stringPart part none) := by
    induction parts with
    | nil => exact allFormed_nil
    | cons part parts ih => exact allFormed_cons.2 ⟨allFormed_leaf.2 (hPart part), ih⟩
  have hOnly : Kind.string ≠ .string → some opener.text = none := fun hKind => absurd rfl hKind
  cases parts with
  | nil =>
    refine allFormed_node.2 ⟨formed_node ?_ hOnly, allFormed_leaf.2 (hPart _)⟩
    refine ⟨rfl, ?_, opener, [], closer, hTokens, hQuote, hClose, rfl, rfl⟩
    simp [children, Tree.kind, isTerminal, token?]
  | cons part parts =>
    refine allFormed_node.2 ⟨formed_node ?_ hOnly, hParts (part :: parts)⟩
    refine ⟨rfl, ?_, opener, part :: parts, closer, hTokens, hQuote, hClose, rfl, ?_⟩
    · simp [children, Tree.kind, isTerminal, token?]
    · simp [children, token?, List.filterMap_map, Function.comp_def]

/-- Two sides joined by an operator. -/
theorem allFormed_binary {left right : Tree} (hKind : kind = .pipe ∨ kind = .andIf ∨ kind = .orIf)
    (hLeft : left.kind.isItem = true) (hRight : right.kind.isItem = true)
    (hLefts : AllFormed tokens [left]) (hRights : AllFormed tokens [right]) :
    AllFormed tokens [binary kind left right] := by
  have hSides : Obeys tokens (binary kind left right) := by
    rcases hKind with rfl | rfl | rfl <;>
      exact ⟨_, _, rfl, ⟨rfl, left, rfl, hLeft⟩, rfl, right, rfl, hRight⟩
  refine allFormed_node.2 ⟨formed_node hSides fun _ => rfl, allFormed_cons.2 ⟨?_, ?_⟩⟩
  · exact allFormed_node.2 ⟨formed_node (.inr ⟨rfl, left, rfl, hLeft⟩) fun _ => rfl, hLefts⟩
  · exact allFormed_node.2 ⟨formed_node (.inr ⟨rfl, right, rfl, hRight⟩) fun _ => rfl, hRights⟩

/-- The name of an assignment and what stands behind it. -/
theorem allFormed_assignment {name : Token} (hName : name.kind = .word)
    (hText : name.text.isIdentifier = true)
    (hValue : others = [] ∨ ∃ value, others = [value] ∧ value.IsWord .value)
    (h : AllFormed tokens others) :
    AllFormed tokens [.node .assignment (.leaf .lhs name none) others none] := by
  have hIsName : (Tree.leaf .lhs name none).IsName := ⟨rfl, name, rfl, hName, hText⟩
  refine allFormed_node.2 ⟨formed_node ⟨_, hIsName, ?_⟩ fun _ => rfl, allFormed_cons.2 ⟨?_, h⟩⟩
  · rcases hValue with rfl | ⟨value, rfl, hWord⟩
    · exact .inl rfl
    · exact .inr ⟨value, rfl, hWord⟩
  · exact allFormed_leaf.2 ⟨.inl hIsName, fun _ => rfl, fun hKind => by simp [Tree.kind] at hKind⟩

end Tree

namespace Marking

open ShellReader.Tree (AllFormed allFormed_nil allFormed_cons allFormed_leaf allFormed_node
  formed_node)

variable {form : Form} {ts rest : List Token} {trees : List Tree} {ms : List Mark}

-- ---------------------------------------------------------------------------
-- Forms
-- ---------------------------------------------------------------------------

/-- What a form reads, its descendants aside. -/
def Form.Admits : Form → Tree → Prop
  | .piece role, t => t.IsPiece role
  | .pieces role, t => t.IsPiece role
  | .word role, t => t.IsWord role
  | .part, t => t.kind = .argument ∨ t.kind = .assignment
  | .parts, t => t.kind = .argument ∨ t.kind = .assignment
  | .command, t => t.kind = .command
  | .operand, t => t.kind = .command
  | .pipeline, t => t.kind.isItem = true
  | .item, t => t.kind.isItem = true
  | .items _, t => t.kind.isItem = true
  | .sequence _, t => t.kind = .root

/-- An operator joins commands to what can be joined again. -/
theorem operatorKind_of_later {operator : Token}
    (h : operator.kind = .andIf ∨ operator.kind = .orIf) :
    operatorKind operator.kind = .andIf ∨ operatorKind operator.kind = .orIf := by
  rcases h with h | h
  · exact .inl (by rw [h]; rfl)
  · exact .inr (by rw [h]; rfl)

/-- What the trees of a form are by themselves. -/
theorem Yields.admits (h : Yields form ts trees ms rest) : ∀ t ∈ trees, form.Admits t := by
  induction h with
  | literal => exact List.forall_mem_singleton.2 (.inl ⟨rfl, rfl⟩)
  | @string _ _ _ _ parts =>
    refine List.forall_mem_singleton.2 (.inr ?_)
    cases parts <;> exact ⟨rfl, .inl rfl⟩
  | substitution => exact List.forall_mem_singleton.2 (.inr ⟨rfl, .inr rfl⟩)
  | piecesNil => exact List.forall_mem_nil _
  | piecesCons _ _ ihFirst ihOthers =>
    exact List.forall_mem_cons.2 ⟨List.forall_mem_singleton.1 ihFirst, ihOthers⟩
  | word _ _ ihFirst ihOthers =>
    exact List.forall_mem_singleton.2
      (Tree.isWord_wordTree (List.forall_mem_singleton.1 ihFirst) ihOthers)
  | assignmentEmpty => exact List.forall_mem_singleton.2 (.inr rfl)
  | assignment => exact List.forall_mem_singleton.2 (.inr rfl)
  | argument _ _ ih =>
    exact List.forall_mem_singleton.2 (.inl (List.forall_mem_singleton.1 ih).1)
  | skip _ _ ih => exact ih
  | partsNil => exact List.forall_mem_nil _
  | partsCons _ _ ihFirst ihOthers =>
    exact List.forall_mem_cons.2 ⟨List.forall_mem_singleton.1 ihFirst, ihOthers⟩
  | command => exact List.forall_mem_singleton.2 rfl
  | operand _ ih => exact ih
  | @pipelineSingle _ _ tree _ _ ih =>
    have hKind : tree.kind = .command := ih tree (List.mem_singleton_self _)
    refine List.forall_mem_singleton.2 ?_
    show tree.kind.isItem = true
    rw [hKind]
    rfl
  | pipelineJoin => exact List.forall_mem_singleton.2 rfl
  | itemSingle _ ih => exact ih
  | itemJoin _ hOperator =>
    refine List.forall_mem_singleton.2 ?_
    show (operatorKind _).isItem = true
    rcases operatorKind_of_later hOperator with hKind | hKind <;> rw [hKind] <;> rfl
  | finish => exact List.forall_mem_nil _
  | close => exact List.forall_mem_nil _
  | itemsCons _ _ ihFirst ihOthers =>
    exact List.forall_mem_cons.2 ⟨List.forall_mem_singleton.1 ihFirst, ihOthers⟩
  | sequence => exact List.forall_mem_singleton.2 rfl

/-- The single tree of a form. -/
theorem Yields.admits_one {tree : Tree} (h : Yields form ts [tree] ms rest) :
    form.Admits tree :=
  List.forall_mem_singleton.1 h.admits

/-- Readings one behind the other. -/
theorem allFormed_concat {first : Tree} {others : List Tree} {as bs : List Mark}
    (hFirst : AllFormed (written as) [first]) (hOthers : AllFormed (written bs) others) :
    AllFormed (written (as ++ bs)) (first :: others) := by
  rw [written_append]
  exact allFormed_cons.2 ⟨hFirst.mono (List.prefix_append ..).isInfix,
    hOthers.mono (List.suffix_append ..).isInfix⟩

/-- Readings with an operator between them. -/
theorem allFormed_join {left right : Tree} {kind : Tree.Kind} {as bs : List Mark} {m : Mark}
    (hKind : kind = .pipe ∨ kind = .andIf ∨ kind = .orIf) (hLeft : left.kind.isItem = true)
    (hRight : right.kind.isItem = true) (hLefts : AllFormed (written as) [left])
    (hRights : AllFormed (written bs) [right]) :
    AllFormed (written (as ++ m :: bs)) [binary kind left right] := by
  have hSuffix : written bs <:+: written (m :: bs) := by
    rw [written_cons]
    split
    · exact (List.suffix_cons ..).isInfix
    · exact List.infix_rfl
  obtain ⟨hLefts, hRights⟩ := allFormed_cons.1 (allFormed_concat hLefts (hRights.mono hSuffix))
  exact Tree.allFormed_binary hKind hLeft hRight hLefts hRights

/-- The descendants of the trees of a form are as their kinds have it. -/
theorem Yields.formed (h : Yields form ts trees ms rest) : AllFormed (written ms) trees := by
  induction h with
  | @literal role t more hOpen hQuote =>
    have hEnds : t.kind.endsArgument = false := by
      simp only [Production.atWordEnd, Bool.or_eq_false_iff] at hOpen
      exact hOpen.1
    refine allFormed_leaf.2 ⟨?_, fun _ => rfl, fun _ token hToken => ?_⟩
    · cases role <;> rfl
    · obtain rfl := Option.some.inj hToken
      exact ⟨hQuote, hEnds⟩
  | @string _ opener closer _ parts _ hQuote hQuoted =>
    have hWritten : written (⟨.quote, opener⟩ :: inside opener parts ++ [⟨.quote, closer⟩]) =
        opener :: parts ++ [closer] := by simp [Role.isWritten]
    rw [hWritten]
    exact Tree.allFormed_stringTree List.infix_rfl hQuote hQuoted.closer_kind
  | @substitution _ dollar paren close _ _ root ms _ _ _ hInner ih =>
    refine allFormed_node.2 ⟨formed_node ⟨root, rfl, hInner.admits_one⟩ fun _ => rfl, ih.mono ?_⟩
    exact ⟨[dollar, paren], [close], by simp [Role.isWritten]⟩
  | piecesNil => exact allFormed_nil
  | piecesCons _ _ ihFirst ihOthers => exact allFormed_concat ihFirst ihOthers
  | word hFirst hOthers ihFirst ihOthers =>
    exact Tree.allFormed_wordTree hFirst.admits_one hOthers.admits
      (allFormed_concat ihFirst ihOthers)
  | assignmentEmpty hStart =>
    obtain ⟨hName, hText, -⟩ := Descent.startsAssignment_iff.1 hStart
    exact Tree.allFormed_assignment hName hText (.inl rfl) allFormed_nil
  | @assignment name equals _ _ value ms hStart hValue ih =>
    obtain ⟨hName, hText, -⟩ := Descent.startsAssignment_iff.1 hStart
    refine Tree.allFormed_assignment hName hText (.inr ⟨value, rfl, hValue.admits_one⟩)
      (ih.mono ?_)
    exact ⟨[name, equals], [], by simp [Role.isWritten]⟩
  | argument _ _ ih => exact ih
  | skip _ _ ih =>
    rw [written_append]
    exact ih.mono (List.suffix_append ..).isInfix
  | partsNil => exact allFormed_nil
  | partsCons _ _ ihFirst ihOthers => exact allFormed_concat ihFirst ihOthers
  | command hFirst hOthers ihFirst ihOthers =>
    refine allFormed_node.2 ⟨formed_node ⟨rfl, ?_⟩ fun _ => rfl,
      allFormed_concat ihFirst ihOthers⟩
    exact List.forall_mem_cons.2 ⟨hFirst.admits_one, hOthers.admits⟩
  | operand _ ih => exact ih
  | pipelineSingle _ ih => exact ih
  | pipelineJoin hLeft _ hRight ihLeft ihRight =>
    exact allFormed_join (.inl rfl) hLeft.admits_one (Yields.pipelineSingle hRight).admits_one
      ihLeft ihRight
  | itemSingle _ ih => exact ih
  | itemJoin hLeft hOperator hRight ihLeft ihRight =>
    exact allFormed_join (.inr (operatorKind_of_later hOperator)) hLeft.admits_one
      hRight.admits_one ihLeft ihRight
  | finish => exact allFormed_nil
  | close => exact allFormed_nil
  | itemsCons _ _ ihFirst ihOthers => exact allFormed_concat ihFirst ihOthers
  | sequence hItems ih =>
    exact allFormed_node.2 ⟨formed_node ⟨rfl, hItems.admits⟩ fun _ => rfl, ih⟩

end Marking

/-- **The trees that are returned**: every part of the tree of a token list looks as its kind
has it, only strings have a quote, and no literal token of a word is a quote or ends a
word. -/
theorem parseTokens_formed {tokens : List Token} {limit : Int} {tree : Tree}
    (h : parseTokens tokens limit = .ok tree) :
    tree.kind = .root ∧ ∀ t ∈ tree.walk, t.Formed tokens := by
  obtain ⟨ms, hYields⟩ := Marking.yields_of_parseTokens h
  have hFormed := hYields.formed
  rw [show Marking.written ms = tokens by rw [hYields.tokens, List.append_nil]] at hFormed
  refine ⟨hYields.admits_one, fun t ht => hFormed t ?_⟩
  rw [Tree.walkAll, Tree.walkAll, List.append_nil]
  exact ht

/-- Words with and without children, an empty string and one that is not, and an operator. -/
theorem parseTokens_formed_words :
    ∃ tree, parseTokens (tokenize "A=1 B=x'' \"q\"|c$(d)".toList) 9 = .ok tree ∧
      tree.walk.map Tree.kind = [.root, .pipe, .lhs, .command, .assignment, .lhs, .rhs,
        .assignment, .lhs, .rhs, .valuePart, .string, .stringPart, .argument, .string,
        .stringPart, .rhs, .command, .argument, .argumentPart, .substitution, .root,
        .command, .argument] ∧
      ∀ t ∈ tree.walk, t.Formed (tokenize "A=1 B=x'' \"q\"|c$(d)".toList) := by
  have hKinds : (parseTokens (tokenize "A=1 B=x'' \"q\"|c$(d)".toList) 9).map
      (fun tree => tree.walk.map Tree.kind) = .ok [.root, .pipe, .lhs, .command, .assignment,
        .lhs, .rhs, .assignment, .lhs, .rhs, .valuePart, .string, .stringPart, .argument,
        .string, .stringPart, .rhs, .command, .argument, .argumentPart, .substitution, .root,
        .command, .argument] := by cbv
  obtain ⟨tree, hTree, hWalk⟩ := Marking.exists_tree_of_map hKinds
  exact ⟨tree, hTree, hWalk, (parseTokens_formed hTree).2⟩

end ShellReader
