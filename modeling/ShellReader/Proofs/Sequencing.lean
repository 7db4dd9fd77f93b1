import ShellReader.Proofs.RoundTrip

/-!
# ShellReader — sequences in other surroundings

What is read up to the end of a line is read in the same way up to any other token that ends an
item. Nothing looks further ahead than to the first token behind it, and there the end, a `;`
and a `)` are all the same. So the items of a line can be followed by more items, and they can
stand in a substitution, where there is as much room left as there was at the top.

## Results

* `Reads.before` — what is read before an end is read before whatever ends an item.
* `Reads.items_before` — the items of a line are read before more items, or in a substitution.
* `Reads.deeper` — what is read under a limit is read further down under a greater one.
* `parse_substitution` — a line in `$(…)` is read as the line is.
* `parse_separated` — two lines with `; ` between them are read as the one, then the other.
-/

namespace ShellReader

namespace Grammar

open Production (startsAssignment atWordEnd)
open Descent (startsSubstitution)
open Token (fits spelling shape WellFormed)

variable {limit : Int} {rule : Rule} {depth : Nat} {ts rest tail left behind : List Token}
  {ps qs : List Phrase} {t last : Token}

-- ---------------------------------------------------------------------------
-- In place of the end
-- ---------------------------------------------------------------------------

section Before

variable (hLast : last.kind = .endOfInput) (hTail : EndsItem tail)

include hLast

/-- A token that is in neither of two places is in front of both lists or of none. -/
theorem frontKind_before (left : List Token) {kind : Token.Kind} (hKind : kind ≠ .endOfInput)
    (hFront : frontKind tail ≠ some kind) :
    (frontKind (left ++ tail) == some kind) = (frontKind (left ++ [last]) == some kind) := by
  cases left with
  | nil =>
    rw [List.nil_append, List.nil_append, beq_eq_false_iff_ne.2 hFront]
    simp [frontKind, hLast, hKind.symm]
  | cons t left => rfl

include hTail

theorem atWordEnd_before (t : Token) (left : List Token) :
    atWordEnd t (left ++ tail) = atWordEnd t (left ++ [last]) := by
  have hFront := frontKind_before hLast left (by simp) hTail.endsCommand.endsWord.frontKind_ne.1
  rw [frontKind, frontKind] at hFront
  rw [atWordEnd, atWordEnd, Descent.startsContinuation_cons, Descent.startsContinuation_cons,
    hFront]

theorem startsSubstitution_before (t : Token) (left : List Token) :
    startsSubstitution t (left ++ tail) = startsSubstitution t (left ++ [last]) := by
  have hFront := frontKind_before hLast left (by simp) hTail.endsCommand.endsWord.frontKind_ne.2.1
  rw [frontKind, frontKind] at hFront
  rw [startsSubstitution, startsSubstitution, hFront]

theorem startsAssignment_before (t : Token) (left : List Token) :
    startsAssignment t (left ++ tail) = startsAssignment t (left ++ [last]) := by
  have hFront := frontKind_before hLast left (by simp) hTail.endsCommand.endsWord.frontKind_ne.2.2
  rw [frontKind, frontKind] at hFront
  rw [startsAssignment, startsAssignment, hFront]

/-- Where a token stands in front, it still does, or what is in place of the end does. -/
theorem exists_front (h : t :: ts = left ++ [last]) :
    (∃ f more, left = [] ∧ t = last ∧ tail = f :: more ∧ f.kind.endsCommand = true ∧
        f.kind.isOperator = false) ∨
      ∃ left', left = t :: left' ∧ ts = left' ++ [last] := by
  cases left with
  | nil =>
    obtain ⟨f, more, rfl, hEnds, -, hOperator⟩ := hTail
    obtain ⟨rfl, -⟩ := List.cons.inj h
    exact .inl ⟨f, more, rfl, rfl, rfl, hEnds, hOperator⟩
  | cons u left =>
    obtain ⟨rfl, rfl⟩ := List.cons.inj h
    exact .inr ⟨left, rfl, rfl⟩

end Before

/-- Every rule but those of the outermost sequence, which reads the end. -/
def Rule.Inner : Rule → Prop
  | .items nested | .sequence nested => nested = true
  | _ => True

/-- What is read before an end is read in the same way before whatever ends an item. -/
theorem Reads.before (h : Reads limit rule depth ts ps rest) (hRule : rule.Inner)
    (hLast : last.kind = .endOfInput) (hTail : EndsItem tail) (hRest : rest = behind ++ [last]) :
    ∃ left, ts = left ++ [last] ∧ Reads limit rule depth (left ++ tail) ps (behind ++ tail) := by
  induction h generalizing behind with
  | @literal role depth t more hOpen hQuote hSubstitution =>
    subst hRest
    rw [← atWordEnd_before hLast hTail] at hOpen
    rw [← startsSubstitution_before hLast hTail] at hSubstitution
    exact ⟨t :: behind, rfl, .literal hOpen hQuote hSubstitution⟩
  | @string role depth t closer more parts rest hQuote hRoom hQuoted =>
    subst hRest
    refine ⟨t :: (parts ++ closer :: behind), by simp [hQuoted.eq_append], ?_⟩
    have hAgain : Reads limit (.piece role) depth _ _ _ :=
      .string hQuote hRoom (hQuoted.again (behind ++ tail))
    simpa using hAgain
  | @substitution role depth dollar paren close inside rest root hDollar hParen hRoom _ hClose ih =>
    subst hRest
    obtain ⟨left, rfl, hInside⟩ := ih rfl (List.cons_append).symm
    exact ⟨dollar :: paren :: left, rfl, .substitution hDollar hParen hRoom hInside hClose⟩
  | piecesNil hEnd =>
    refine ⟨behind, hRest, ?_⟩
    rcases exists_front hLast hTail hRest with
      ⟨f, more, rfl, rfl, rfl, hEnds, -⟩ | ⟨left', rfl, rfl⟩
    · exact .piecesNil (by simp [atWordEnd, Token.Kind.endsArgument, hEnds])
    · exact .piecesNil ((atWordEnd_before hLast hTail _ left').trans hEnd)
  | piecesCons _ _ ihFirst ihOthers =>
    obtain ⟨between, hBetween, hOthers⟩ := ihOthers trivial hRest
    obtain ⟨left, hLeft, hFirst⟩ := ihFirst trivial hBetween
    exact ⟨left, hLeft, .piecesCons hFirst hOthers⟩
  | word hRoom _ _ ihFirst ihOthers =>
    obtain ⟨between, hBetween, hOthers⟩ := ihOthers trivial hRest
    obtain ⟨left, hLeft, hFirst⟩ := ihFirst trivial hBetween
    exact ⟨left, hLeft, .word hRoom hFirst hOthers⟩
  | @assignmentEmpty depth name equals t more hStart hRoom hEnd =>
    refine ⟨name :: equals :: behind, by simp [hRest], ?_⟩
    rcases exists_front hLast hTail hRest with
      ⟨f, more, rfl, rfl, rfl, hEnds, -⟩ | ⟨left', rfl, rfl⟩
    · exact .assignmentEmpty hStart hRoom (by simp [atWordEnd, Token.Kind.endsArgument, hEnds])
    · exact .assignmentEmpty hStart hRoom ((atWordEnd_before hLast hTail _ left').trans hEnd)
  | @assignment depth name equals ts rest value hStart hRoom _ ih =>
    obtain ⟨left, rfl, hValue⟩ := ih trivial hRest
    exact ⟨name :: equals :: left, rfl, .assignment hStart hRoom hValue⟩
  | @argument depth t more rest argument hStart _ ih =>
    obtain ⟨left, hLeft, hWord⟩ := ih trivial hRest
    refine ⟨left, hLeft, ?_⟩
    rcases exists_front hLast hTail hLeft with
      ⟨f, others, rfl, rfl, rfl, hEnds, -⟩ | ⟨left', rfl, rfl⟩
    · have hKind : f.kind ≠ .word := by
        intro hKind
        simp [hKind, Token.Kind.endsCommand, Token.Kind.isSeparator, Token.Kind.isOperator] at hEnds
      exact .argument (by simp [startsAssignment, hKind]) hWord
    · exact .argument ((startsAssignment_before hLast hTail t left').trans hStart) hWord
  | @skip rule depth gap ts rest phrases hGap _ ih =>
    obtain ⟨left, rfl, hReads⟩ := ih hRule hRest
    refine ⟨gap ++ left, by simp, ?_⟩
    rw [List.append_assoc]
    exact .skip hGap hReads
  | partsNil hEnd =>
    refine ⟨behind, hRest, ?_⟩
    rcases exists_front hLast hTail hRest with
      ⟨f, more, rfl, rfl, rfl, hEnds, -⟩ | ⟨left', rfl, rfl⟩
    · exact .partsNil hEnds
    · exact .partsNil hEnd
  | partsCons _ _ ihFirst ihOthers =>
    obtain ⟨between, hBetween, hOthers⟩ := ihOthers trivial hRest
    obtain ⟨left, hLeft, hFirst⟩ := ihFirst trivial hBetween
    exact ⟨left, hLeft, .partsCons hFirst hOthers⟩
  | command hRoom _ _ ihFirst ihOthers =>
    obtain ⟨between, hBetween, hOthers⟩ := ihOthers trivial hRest
    obtain ⟨left, hLeft, hFirst⟩ := ihFirst trivial hBetween
    exact ⟨left, hLeft, .command hRoom hFirst hOthers⟩
  | operand _ ih =>
    obtain ⟨left, hLeft, hCommand⟩ := ih trivial hRest
    exact ⟨left, hLeft, .operand hCommand⟩
  | chainStop hStop =>
    refine ⟨behind, hRest, ?_⟩
    rcases exists_front hLast hTail hRest with
      ⟨f, more, rfl, rfl, rfl, -, hOperator⟩ | ⟨left', rfl, rfl⟩
    · exact .chainStop hOperator
    · exact .chainStop hStop
  | @chainLink item tokens depth t more between rest next whole hOperator hCount _ _ ihNext
      ihRest =>
    obtain ⟨between, hBetween, hChain⟩ := ihRest trivial hRest
    obtain ⟨left, rfl, hNext⟩ := ihNext trivial hBetween
    exact ⟨t :: left, rfl, .chainLink hOperator hCount hNext hChain⟩
  | finish => cases hRule
  | @close depth t more hClose =>
    refine ⟨behind, hRest, ?_⟩
    rcases exists_front hLast hTail hRest with ⟨f, more, rfl, rfl, rfl, -, -⟩ | ⟨left', rfl, rfl⟩
    · rw [hLast] at hClose
      cases hClose
    · exact .close hClose
  | item _ _ _ ihFirst ihChain ihOthers =>
    obtain ⟨between, hBetween, hOthers⟩ := ihOthers hRule hRest
    obtain ⟨middle, hMiddle, hChain⟩ := ihChain trivial hBetween
    obtain ⟨left, hLeft, hFirst⟩ := ihFirst trivial hMiddle
    exact ⟨left, hLeft, .item hFirst hChain hOthers⟩
  | sequence hRoom _ ih =>
    obtain ⟨left, hLeft, hItems⟩ := ih hRule hRest
    exact ⟨left, hLeft, .sequence hRoom hItems⟩

/-- What is passed over between the items of a line is passed over between those of any
sequence. -/
theorem Gap.items {gap : List Token} {nested nested' : Bool} (h : Gap (.items nested) gap) :
    Gap (.items nested') gap := by
  cases h with
  | space _ hSpace => exact .space (.inr (.inr ⟨_, rfl⟩)) hSpace
  | continuation _ hBackslash hNewline =>
    exact .continuation (.inr (.inr ⟨_, rfl⟩)) hBackslash hNewline
  | separator hSeparator => exact .separator hSeparator

/-- The items of a line are read before more items, and there may be a `)` in place of the
end. -/
theorem Reads.exists_items_before {nested : Bool}
    (h : Reads limit (.items false) depth ts ps []) (hTail : EndsItem tail)
    (hMore : Reads limit (.items nested) depth tail qs rest) :
    ∃ left last, ts = left ++ [last] ∧ last.kind = .endOfInput ∧
      Reads limit (.items nested) depth (left ++ tail) (ps ++ qs) rest := by
  generalize hRule : Rule.items false = rule at h
  generalize hEmpty : ([] : List Token) = nothing at h
  induction h with
  | @skip _ _ gap _ _ _ hGap _ ih =>
    obtain ⟨left, last, rfl, hLast, hReads⟩ := ih hMore hRule hEmpty
    subst hRule hEmpty
    refine ⟨gap ++ left, last, by simp, hLast, ?_⟩
    rw [List.append_assoc]
    exact .skip hGap.items hReads
  | @finish _ t _ hEnd =>
    subst hEmpty
    exact ⟨[], t, rfl, hEnd, hMore⟩
  | item hFirst hChain _ _ _ ihOthers =>
    obtain ⟨between, last, hBetween, hLast, hOthers⟩ := ihOthers hMore hRule hEmpty
    subst hEmpty
    obtain ⟨middle, hMiddle, hChain⟩ := hChain.before trivial hLast hTail hBetween
    obtain ⟨left, hLeft, hFirst⟩ := hFirst.before trivial hLast hTail hMiddle
    exact ⟨left, last, hLeft, hLast, .item hFirst hChain hOthers⟩
  | _ => simp_all

/-- What is read under a limit is read further down under a limit that is as much greater. -/
theorem Reads.deeper (h : Reads limit rule depth ts ps rest) (k : Nat) :
    Reads (limit + k) rule (depth + k) ts ps rest := by
  have hRoom {depth : Nat} (h : ¬ limit ≤ depth) : ¬ limit + k ≤ (depth + k : Nat) := by omega
  induction h with
  | literal hOpen hQuote hSubstitution => exact .literal hOpen hQuote hSubstitution
  | string hQuote hRoom' hQuoted => exact .string hQuote (hRoom hRoom') hQuoted
  | substitution hDollar hParen hRoom' _ hClose ih =>
    rw [Nat.add_right_comm] at ih
    exact .substitution hDollar hParen (hRoom hRoom') ih hClose
  | piecesNil hEnd => exact .piecesNil hEnd
  | piecesCons _ _ ihFirst ihOthers => exact .piecesCons ihFirst ihOthers
  | word hRoom' _ _ ihFirst ihOthers =>
    rw [Nat.add_right_comm] at ihFirst ihOthers
    exact .word (hRoom hRoom') ihFirst ihOthers
  | assignmentEmpty hStart hRoom' hEnd => exact .assignmentEmpty hStart (hRoom hRoom') hEnd
  | assignment hStart hRoom' _ ih =>
    rw [Nat.add_right_comm] at ih
    exact .assignment hStart (hRoom hRoom') ih
  | argument hStart _ ih => exact .argument hStart ih
  | skip hGap _ ih => exact .skip hGap ih
  | partsNil hEnds => exact .partsNil hEnds
  | partsCons _ _ ihFirst ihOthers => exact .partsCons ihFirst ihOthers
  | command hRoom' _ _ ihFirst ihOthers =>
    rw [Nat.add_right_comm] at ihFirst ihOthers
    exact .command (hRoom hRoom') ihFirst ihOthers
  | operand _ ih => exact .operand ih
  | chainStop hStop => exact .chainStop hStop
  | chainLink hOperator hCount _ _ ihNext ihRest =>
    exact .chainLink hOperator (by omega) ihNext ihRest
  | finish hEnd => exact .finish hEnd
  | close hClose => exact .close hClose
  | item _ _ _ ihFirst ihChain ihOthers => exact .item ihFirst ihChain ihOthers
  | sequence hRoom' _ ih =>
    rw [Nat.add_right_comm] at ih
    exact .sequence (hRoom hRoom') ih

-- ---------------------------------------------------------------------------
-- Command lines
-- ---------------------------------------------------------------------------

variable {line : Text} {tree : Tree} {body : List Token} {first : Phrase} {others : List Phrase}

/-- A sequence is read as its items are. -/
theorem Reads.of_sequence {nested : Bool} {p : Phrase}
    (h : Reads limit (.sequence nested) depth ts [p] rest) :
    ∃ first others, ¬ limit ≤ depth ∧
      Reads limit (.items nested) (depth + 1) ts (first :: others) rest ∧
      p.tree = .node .root first.tree (others.map (·.tree)) none := by
  cases h with
  | skip hGap => simpa using hGap.rule_eq
  | @sequence _ _ _ _ first others hRoom hItems => exact ⟨first, others, hRoom, hItems, rfl⟩

/-- A line that can be read is spelled by tokens that are read as items, up to the end. -/
theorem reads_of_parse (hCore : line.core = line) (h : parse line limit = .ok tree) :
    ∃ body first others, WellFormed body ∧ body.map Token.bare = body ∧ spelling body = line ∧
      ¬ limit ≤ 0 ∧ Reads limit (.items false) 1 (body ++ [ending]) (first :: others) [] ∧
      tree.bare = .node .root first.tree (others.map (·.tree)) none := by
  obtain ⟨body, last, hTokens, hLast, hWell, hSpelling⟩ := tokenize_sound line
  obtain ⟨p, hReads, hTree⟩ := reads_of_parseTokens h
  have hShape : (body.map Token.bare).map shape = body.map shape := by
    rw [List.map_map]
    rfl
  have hEnding : last.bare = ending := Token.bare_eq_iff (b := ending) |>.2 (Prod.mk.inj hLast)
  rw [hTokens, List.map_append, List.map_singleton, hEnding] at hReads
  obtain ⟨first, others, hRoom, hItems, hRoot⟩ := hReads.of_sequence
  refine ⟨body.map Token.bare, first, others, hWell.congr hShape.symm, ?_, ?_, hRoom, hItems,
    hTree.symm.trans hRoot⟩
  · rw [List.map_map]
    rfl
  · rw [Token.spelling_congr hShape, hSpelling, hCore]

/-- What tokens spell is read if the tokens are read as items, up to the end. -/
theorem parse_of_reads (hWell : WellFormed body) (hBare : body.map Token.bare = body)
    (hHead : ∀ c ∈ (spelling body).head?, Text.isOuterBlank c = false)
    (hFinal : ∀ c ∈ (spelling body).getLast?, Text.isOuterBlank c = false) (hRoom : ¬ limit ≤ 0)
    (h : Reads limit (.items false) 1 (body ++ [ending]) (first :: others) []) :
    ∃ tree, parse (spelling body) limit = .ok tree ∧
      tree.bare = .node .root first.tree (others.map (·.tree)) none := by
  have hShape : (tokenize (spelling body)).map shape = (body ++ [ending]).map shape := by
    rw [tokenize_spelling hWell hHead hFinal, List.map_append]
    rfl
  have hTokens : (tokenize (spelling body)).map Token.bare = body ++ [ending] := by
    rw [map_bare_congr hShape, List.map_append, hBare]
    rfl
  have hEnd : (tokenize (spelling body)).getLast?.map (·.kind) = some .endOfInput := by
    have hLast : ((tokenize (spelling body)).map shape).getLast?.map Prod.fst =
        some .endOfInput := by
      rw [hShape, List.map_append]
      simp [shape, ending]
    rw [← hLast, List.getLast?_map, Option.map_map]
    rfl
  have hSequence := Reads.sequence hRoom h
  rw [← hTokens] at hSequence
  exact parseTokens_of_reads hSequence hEnd

/-- The items of a line in other surroundings. -/
theorem Reads.items_before {nested : Bool}
    (h : Reads limit (.items false) depth (body ++ [ending]) ps []) (hTail : EndsItem tail)
    (hMore : Reads limit (.items nested) depth tail qs rest) :
    Reads limit (.items nested) depth (body ++ tail) (ps ++ qs) rest := by
  obtain ⟨left, last, hTokens, -, hReads⟩ := h.exists_items_before hTail hMore
  rwa [List.append_inj_left' hTokens rfl]

/-- The tokens around a substitution. -/
def dollar : Token := ⟨.dollar, ['$'], 0⟩

@[inherit_doc dollar]
def leftParenthesis : Token := ⟨.leftParenthesis, ['('], 0⟩

@[inherit_doc dollar]
def rightParenthesis : Token := ⟨.rightParenthesis, [')'], 0⟩

/-- Tokens in a substitution. -/
def enclosed (body : List Token) : List Token :=
  dollar :: leftParenthesis :: body ++ [rightParenthesis]

theorem spelling_enclosed (body : List Token) :
    spelling (enclosed body) = "$(".toList ++ spelling body ++ ")".toList := by
  simp [enclosed, dollar, leftParenthesis, rightParenthesis]

theorem tight_enclosed (body : List Token) : Tight (enclosed body) :=
  tight_of_ends (leftParenthesis :: body) ⟨by decide, by decide⟩ ⟨by decide, by decide⟩

theorem wellFormed_enclosed (h : WellFormed body) : WellFormed (enclosed body) := by
  obtain ⟨hFits, hApart⟩ := h
  have hRight : Free rightParenthesis := free_of_punctuation? (c := ')') rfl
  have hLeft : Free leftParenthesis := free_of_punctuation? (c := '(') rfl
  have hInner : Apart (body ++ [rightParenthesis]) := Apart.free hApart hRight .nil
  have hOuter : Apart ([dollar] ++ leftParenthesis :: (body ++ [rightParenthesis])) :=
    Apart.free (.singleton dollar) hLeft hInner
  refine ⟨?_, hOuter⟩
  intro t ht
  simp only [enclosed, List.cons_append, List.mem_cons, List.mem_append, List.not_mem_nil,
    or_false] at ht
  rcases ht with rfl | rfl | ht | rfl
  · rfl
  · rfl
  · exact hFits t ht
  · rfl

/-- The items of a line are read in a substitution four productions further down. -/
theorem Reads.in_substitution
    (h : Reads limit (.items false) 1 (body ++ [ending]) (first :: others) [])
    (hRoom : ¬ limit ≤ 0) :
    ∃ whole, Reads (limit + 4) (.items false) 1 (enclosed body ++ [ending]) [whole] [] ∧
      whole.tree = .node .command (.node .argument (.node .substitution
        (.node .root first.tree (others.map (·.tree)) none) [] none) [] none) [] none := by
  have hClose : Reads (limit + 4) (.items true) 5 [rightParenthesis, ending] []
      [rightParenthesis, ending] := .close rfl
  have hItems := (h.deeper 4).items_before ⟨_, _, rfl, rfl, by decide, rfl⟩ hClose
  rw [List.append_nil] at hItems
  have hPiece : Reads (limit + 4) (.piece .argument) 3
      (dollar :: leftParenthesis :: (body ++ [rightParenthesis, ending])) [_] [ending] :=
    .substitution rfl rfl (by omega) (.sequence (by omega) hItems) rfl
  have hWord : Reads (limit + 4) (.word .argument) 2 _ [_] [ending] :=
    .word (by omega) hPiece (.piecesNil rfl)
  have hCommand : Reads (limit + 4) .command 1 _ [_] [ending] :=
    .command (by omega) (.argument rfl hWord) (.partsNil rfl)
  have hWhole : Reads (limit + 4) (.items false) 1 _ [_] [] :=
    .item hCommand (.chainStop rfl) (.finish rfl)
  exact ⟨_, by simpa [enclosed] using hWhole, rfl⟩

theorem wellFormed_separated {body' : List Token} (h : WellFormed body) (h' : WellFormed body') :
    WellFormed (body ++ semicolon :: blank :: body') := by
  have hBetween : ∀ t ∈ [semicolon, blank], Free t := by simp [free_semicolon, free_blank]
  refine ⟨?_, Apart.frees h.2 (List.cons_ne_nil _ _) hBetween h'.2⟩
  intro t ht
  simp only [List.mem_append, List.mem_cons] at ht
  rcases ht with ht | rfl | rfl | ht
  · exact h.1 t ht
  · rfl
  · rfl
  · exact h'.1 t ht

/-- The items of two lines are read one after the other, with a separator between them. -/
theorem Reads.separated {body' : List Token}
    (h : Reads limit (.items false) depth (body ++ [ending]) ps [])
    (h' : Reads limit (.items false) depth (body' ++ [ending]) qs []) :
    Reads limit (.items false) depth (body ++ semicolon :: blank :: body' ++ [ending])
      (ps ++ qs) [] := by
  have hSkip : Reads limit (.items false) depth
      ([semicolon] ++ (blank :: (body' ++ [ending]))) qs [] :=
    .skip (.separator rfl) (h'.skip_blank (.inr (.inr ⟨_, rfl⟩)))
  have hBoth := h.items_before ⟨semicolon, _, rfl, rfl, by decide, rfl⟩ hSkip
  simpa using hBoth

end Grammar

namespace Tree

theorem bare_kind (t : Tree) : t.bare.kind = t.kind := by
  cases t <;> rfl

theorem bare_quote (t : Tree) : t.bare.quote = t.quote := by
  cases t <;> rfl

theorem bare_children (t : Tree) : t.bare.children = t.children.map bare := by
  cases t <;> simp [bare, children]

end Tree

/-- There is no command in an empty line. -/
theorem ne_nil_of_parse {line : Text} {limit : Int} {tree : Tree}
    (h : parse line limit = .ok tree) : line ≠ [] := by
  rintro rfl
  have hItems : Descent.items ⟨limit, some Grammar.ending⟩ false 1 [] [Grammar.ending] =
      .error (.atToken Grammar.ending .noCommand) := by
    rw [Descent.items]
    rfl
  have hTokens : tokenize [] = [Grammar.ending] := by decide
  rw [parse, hTokens, parseTokens, Machine.outcome_readTree, Descent.parseTokens,
    List.getLast?_singleton, Descent.sequence, hItems] at h
  cases hEnter : Descent.Context.enter ⟨limit, some Grammar.ending⟩ 0 Grammar.ending with
  | error fault =>
    rw [hEnter] at h
    cases h
  | ok _ =>
    rw [hEnter] at h
    cases h

open Grammar in
/-- **Substitutions.** A line is read in a substitution as it is by itself, with four
productions more: the outermost sequence, its command, its argument and the substitution. -/
theorem parse_substitution {line : Text} {limit : Int} {root : Tree} (hCore : line.core = line)
    (h : parse line limit = .ok root) :
    ∃ tree, parse ("$(".toList ++ line ++ ")".toList) (limit + 4) = .ok tree ∧
      tree.same (.node .root (.node .command (.node .argument (.node .substitution root [] none)
        [] none) [] none) [] none) = true := by
  obtain ⟨body, first, others, hWell, hBare, rfl, hRoom, hItems, hRoot⟩ := reads_of_parse hCore h
  obtain ⟨whole, hWhole, hCommand⟩ := hItems.in_substitution hRoom
  have hWell := wellFormed_enclosed hWell
  obtain ⟨hHead, hFinal⟩ := (tight_enclosed body).spelling hWell.1
  have hBare : (enclosed body).map Token.bare = enclosed body := by
    rw [enclosed, List.map_append, List.map_cons, List.map_cons, hBare]
    rfl
  obtain ⟨tree, hParse, hTree⟩ := parse_of_reads hWell hBare hHead hFinal (by omega) hWhole
  rw [spelling_enclosed] at hParse
  refine ⟨tree, hParse, Tree.same_of_bare_eq ?_⟩
  rw [hTree, hCommand, ← hRoot]
  simp [Tree.bare]

/-- A separator at the end is left out, and a backslash comes to stand before the
parenthesis. -/
theorem parse_substitution_backslash :
    ∃ root tree, parse ";a=| b;\\".toList 3 = .ok root ∧
      parse "$(;a=| b;\\)".toList 7 = .ok tree ∧
      tree.same (.node .root (.node .command (.node .argument (.node .substitution root [] none)
        [] none) [] none) [] none) = true := by
  obtain ⟨root, hRoot⟩ := exists_of_isOk (show (parse ";a=| b;\\".toList 3).isOk = true by cbv)
  obtain ⟨tree, hTree, hSame⟩ := parse_substitution (by decide) hRoot
  exact ⟨root, tree, hRoot, hTree, hSame⟩

open Grammar in
/-- **Sequencing.** Two lines with `; ` between them are read as the commands of the first,
then those of the second. -/
theorem parse_separated {line line' : Text} {limit : Int} {tree tree' : Tree}
    (hHead : ∀ c ∈ line.head?, Text.isOuterBlank c = false)
    (hFinal : ∀ c ∈ line.getLast?, Text.isOuterBlank c = false)
    (hHead' : ∀ c ∈ line'.head?, Text.isOuterBlank c = false)
    (hFinal' : ∀ c ∈ line'.getLast?, Text.isOuterBlank c = false)
    (h : parse line limit = .ok tree) (h' : parse line' limit = .ok tree') :
    ∃ both, parse (line ++ "; ".toList ++ line') limit = .ok both ∧
      both.kind = .root ∧ both.quote = none ∧
      Tree.sameAll both.children (tree.children ++ tree'.children) = true := by
  have hNil := ne_nil_of_parse h
  have hNil' := ne_nil_of_parse h'
  obtain ⟨body, first, others, hWell, hBare, rfl, hRoom, hItems, hTree⟩ :=
    reads_of_parse (Text.core_eq_self hHead hFinal) h
  obtain ⟨body', first', others', hWell', hBare', rfl, -, hItems', hTree'⟩ :=
    reads_of_parse (Text.core_eq_self hHead' hFinal') h'
  have hSpelling : Token.spelling (body ++ semicolon :: blank :: body') =
      Token.spelling body ++ "; ".toList ++ Token.spelling body' := by
    simp [semicolon, blank]
  have hBare : (body ++ semicolon :: blank :: body').map Token.bare =
      body ++ semicolon :: blank :: body' := by
    rw [List.map_append, List.map_cons, List.map_cons, hBare, hBare']
    rfl
  obtain ⟨both, hParse, hBoth⟩ := parse_of_reads (wellFormed_separated hWell hWell') hBare
    (by rwa [hSpelling, List.append_assoc, List.head?_append_of_ne_nil _ hNil])
    (by rwa [hSpelling, List.getLast?_append_of_ne_nil _ hNil']) hRoom (hItems.separated hItems')
  rw [hSpelling] at hParse
  refine ⟨both, hParse, ?_, ?_, Tree.sameAll_of_bareAll_eq ?_⟩
  · rw [← Tree.bare_kind, hBoth]
    rfl
  · rw [← Tree.bare_quote, hBoth]
    rfl
  · rw [Tree.bareAll_eq_map, Tree.bareAll_eq_map, List.map_append, ← Tree.bare_children,
      ← Tree.bare_children, ← Tree.bare_children, hBoth, hTree, hTree']
    simp [Tree.children]

/-- A chain that is as long as the limit allows, with a backslash before the separator, and
an empty value behind it. -/
theorem parse_separated_joints :
    ∃ tree tree' both, parse "a|b&&c|\\".toList 4 = .ok tree ∧
      parse "d=;;''".toList 4 = .ok tree' ∧ parse "a|b&&c|\\; d=;;''".toList 4 = .ok both ∧
      both.kind = .root ∧ both.quote = none ∧
      Tree.sameAll both.children (tree.children ++ tree'.children) = true := by
  obtain ⟨tree, hTree⟩ := exists_of_isOk (show (parse "a|b&&c|\\".toList 4).isOk = true by cbv)
  obtain ⟨tree', hTree'⟩ := exists_of_isOk (show (parse "d=;;''".toList 4).isOk = true by cbv)
  obtain ⟨both, hBoth, hKind⟩ := parse_separated (by rintro c ⟨⟩; rfl) (by rintro c ⟨⟩; rfl)
    (by rintro c ⟨⟩; rfl) (by rintro c ⟨⟩; rfl) hTree hTree'
  exact ⟨tree, tree', both, hTree, hTree', hBoth, hKind⟩

end ShellReader
