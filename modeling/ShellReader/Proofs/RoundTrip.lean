import ShellReader.Proofs.Layout

/-!
# ShellReader — reading back what is written

The source of a tree is read as that tree again, at the same depth and under the
same limit. The argument goes through the tokens that are written for a phrase:
they are read as the phrase (`Reads.again`), and they are what the source is
scanned to, because they are well formed and spell it.

What follows a phrase matters where reading looks one token ahead: a word goes on
up to a token that ends it, a backslash must not come to stand before a newline,
nor a `$` before a parenthesis, nor a name before an `=`. In the canonical layout a
word is followed by a blank, a semicolon, a closing parenthesis or the end, and
what is inside a word keeps its neighbours.

## Results

* `Reads.again` — the tokens of a phrase are read as that phrase.
* `parse_source` — the source of a tree is read as that tree.
-/

namespace ShellReader

namespace Grammar

open Production (startsAssignment atWordEnd startsEscape)
open Descent (Item startsSubstitution)
open Token (fits mayFollow spelling shape WellFormed)

variable {limit : Int} {rule : Rule} {depth : Nat} {ts rest rest' : List Token}
  {ps : List Phrase} {t : Token} {more : List Token}

-- ---------------------------------------------------------------------------
-- What may follow
-- ---------------------------------------------------------------------------

/-- The kind of the token in front, if there is one. -/
def frontKind (ts : List Token) : Option Token.Kind := ts.head?.map (·.kind)

/-- A word ends here, and not at a newline. -/
def EndsWord (ts : List Token) : Prop :=
  ∃ t more, ts = t :: more ∧ t.kind.endsArgument = true ∧ t.kind ≠ .newline

/-- A command ends here, and not at a newline. -/
def EndsCommand (ts : List Token) : Prop :=
  ∃ t more, ts = t :: more ∧ t.kind.endsCommand = true ∧ t.kind ≠ .newline

/-- An item ends here, and not at a newline. -/
def EndsItem (ts : List Token) : Prop :=
  ∃ t more, ts = t :: more ∧ t.kind.endsCommand = true ∧ t.kind ≠ .newline ∧
    t.kind.isOperator = false

/-- A sequence closes here and leaves `rest`. -/
def Closes (nested : Bool) (ts rest : List Token) : Prop :=
  ∃ t more, ts = t :: more ∧
    if nested then t.kind = .rightParenthesis ∧ rest = ts else t.kind = .endOfInput ∧ rest = more

/-- One blank or none. -/
def Narrow (gap : List Token) : Prop := gap = [] ∨ gap = [blank]

theorem EndsCommand.endsWord (h : EndsCommand ts) : EndsWord ts := by
  obtain ⟨t, more, rfl, hEnds, hNewline⟩ := h
  exact ⟨t, more, rfl, by simp [Token.Kind.endsArgument, hEnds], hNewline⟩

theorem EndsItem.endsCommand (h : EndsItem ts) : EndsCommand ts := by
  obtain ⟨t, more, rfl, hEnds, hNewline, -⟩ := h
  exact ⟨t, more, rfl, hEnds, hNewline⟩

theorem Closes.endsItem {nested : Bool} (h : Closes nested ts rest) : EndsItem ts := by
  obtain ⟨t, more, rfl, h⟩ := h
  refine ⟨t, more, rfl, ?_⟩
  cases nested with
  | true =>
    rw [h.1]
    decide
  | false =>
    rw [h.1]
    decide

theorem endsWord_blank (ts : List Token) : EndsWord (blank :: ts) :=
  ⟨blank, ts, rfl, rfl, by decide⟩

theorem EndsWord.atWordEnd (h : EndsWord ts) :
    ∃ t more, ts = t :: more ∧ atWordEnd t more = true := by
  obtain ⟨t, more, rfl, hEnds, -⟩ := h
  exact ⟨t, more, rfl, by simp [Production.atWordEnd, hEnds]⟩

/-- What ends a word is none of the tokens that reading looks ahead for. -/
theorem EndsWord.frontKind_ne (h : EndsWord ts) :
    frontKind ts ≠ some .newline ∧ frontKind ts ≠ some .leftParenthesis ∧
      frontKind ts ≠ some .equals := by
  obtain ⟨t, more, rfl, hEnds, hNewline⟩ := h
  refine ⟨by simpa [frontKind] using hNewline, ?_, ?_⟩ <;>
  · intro hKind
    rw [frontKind, List.head?_cons, Option.map_some, Option.some.injEq] at hKind
    rw [hKind] at hEnds
    cases hEnds

/-- A token of a word stays one, and stays what it is, before a token of the same kind
as before or at the end of the word. -/
theorem literal_again (hFront : frontKind rest' = frontKind more ∨ EndsWord rest')
    (hOpen : atWordEnd t more = false) (hSubstitution : startsSubstitution t more = false) :
    atWordEnd t rest' = false ∧ startsSubstitution t rest' = false := by
  simp only [atWordEnd, Descent.startsContinuation_cons, Bool.or_eq_false_iff,
    startsSubstitution] at hOpen hSubstitution ⊢
  rcases hFront with hFront | hEnds
  · rw [frontKind, frontKind] at hFront
    rw [hFront]
    exact ⟨hOpen, hSubstitution⟩
  · obtain ⟨hNewline, hParen, -⟩ := hEnds.frontKind_ne
    rw [frontKind, ← beq_eq_false_iff_ne] at hNewline hParen
    simp [hOpen.1, hNewline, hParen, -Option.map_eq_some_iff]

/-- What is written for pieces begins as what was read, or there are none and the word
ends. -/
theorem pieces_front {role : WordRole}
    (h : Reads limit (.pieces role) depth ts ps rest) (hEnds : EndsWord rest') :
    frontKind (written ps ++ rest') = frontKind ts ∨ EndsWord (written ps ++ rest') := by
  obtain ⟨hNil, hHead⟩ := h.startsAlike
  by_cases hEmpty : ps = []
  · rw [hEmpty]
    exact .inr hEnds
  · left
    rw [List.head?_append_of_ne_nil _ (hNil hEmpty)] at hHead
    rw [frontKind, frontKind, List.head?_append_of_ne_nil _ (hNil hEmpty), hHead]

/-- Nothing is skipped inside a command. -/
theorem not_gap_of_word {role : WordRole} {gap : List Token} : ¬ Gap (.word role) gap := by
  rintro (⟨hRule, -⟩ | ⟨hRule, -, -⟩) <;> simp at hRule

theorem not_gap_of_piece {role : WordRole} {gap : List Token} : ¬ Gap (.piece role) gap := by
  rintro (⟨hRule, -⟩ | ⟨hRule, -, -⟩) <;> simp at hRule

/-- A token that opens neither a string nor a substitution is a piece of its own. -/
theorem Reads.piece_word {role : WordRole} {p : Phrase}
    (h : Reads limit (.piece role) depth ts [p] rest) (hFront : ts = t :: more)
    (hKind : t.kind = .word) : p.tokens = [t] ∧ rest = more := by
  cases h with
  | literal =>
    obtain ⟨rfl, rfl⟩ := List.cons.inj hFront
    exact ⟨rfl, rfl⟩
  | string hQuote =>
    obtain ⟨rfl, -⟩ := List.cons.inj hFront
    simp [hKind, Token.Kind.isQuote] at hQuote
  | substitution hDollar =>
    obtain ⟨rfl, -⟩ := List.cons.inj hFront
    simp [hKind] at hDollar
  | skip hGap => exact absurd hGap not_gap_of_piece

/-- Behind a name, what is written for the rest of its word begins as what was read, or
the word is the name. -/
theorem Reads.word_front {role : WordRole} {p : Phrase}
    (h : Reads limit (.word role) depth ts [p] rest) (hFront : ts = t :: more)
    (hKind : t.kind = .word) (hEnds : EndsWord rest') :
    ∃ us, p.tokens ++ rest' = t :: us ∧ (frontKind us = frontKind more ∨ EndsWord us) := by
  cases h with
  | @word _ _ _ _ _ first others _ hFirst hOthers =>
    obtain ⟨hTokens, rfl⟩ := hFirst.piece_word hFront hKind
    refine ⟨written others ++ rest', ?_, pieces_front hOthers hEnds⟩
    simp [hTokens, written]
  | skip hGap => exact absurd hGap not_gap_of_word

/-- A word that is no assignment stays none. -/
theorem argument_again {role : WordRole} {p : Phrase}
    (h : Reads limit (.word role) depth (t :: more) [p] rest)
    (hStart : startsAssignment t more = false) (hEnds : EndsWord rest') :
    ∃ us, p.tokens ++ rest' = t :: us ∧ startsAssignment t us = false := by
  by_cases hKind : t.kind = .word
  · obtain ⟨us, hTokens, hFront⟩ := h.word_front rfl hKind hEnds
    refine ⟨us, hTokens, ?_⟩
    change (_ && frontKind us == some .equals && _) = false
    rcases hFront with hFront | hEnds
    · rw [hFront]
      exact hStart
    · simp [hEnds.frontKind_ne.2.2]
  · obtain ⟨hNil, hHead⟩ := h.startsAlike
    simp only [written_cons, written_nil, List.append_nil] at hNil hHead
    obtain ⟨us, hTokens⟩ := List.head?_eq_some_iff.1 hHead
    exact ⟨us ++ rest', by simp [hTokens], by simp [startsAssignment, hKind]⟩

-- ---------------------------------------------------------------------------
-- Reading again
-- ---------------------------------------------------------------------------

/-- A string is read from its parts, whatever follows. -/
theorem Quoted.again {opener : Token.Kind} {parts : List Token} {closer : Token}
    (h : Quoted opener ts parts closer rest) (rest' : List Token) :
    Quoted opener (parts ++ closer :: rest') parts closer rest' := by
  induction h with
  | close hEnd hClose => exact .close hEnd hClose
  | escape hEnd hClose hOpener hEscape _ ih => exact .escape hEnd hClose hOpener hEscape ih
  | @plain t closer more parts rest hEnd hClose hEscape h ih =>
    refine .plain hEnd hClose ?_ ih
    rintro ⟨hOpener, hStart⟩
    refine hEscape ⟨hOpener, ?_⟩
    rw [h.eq_append]
    cases parts <;> exact hStart

/-- The tokens of items, with the separators of the canonical layout. -/
def listed : List Phrase → List Token
  | [] => []
  | p :: ps => p.tokens ++ ps.flatMap fun q => semicolon :: blank :: q.tokens

/-- What is written for phrases is read as these phrases before whatever may follow. -/
def Again (limit : Int) (depth : Nat) : Rule → List Phrase → List Token → Prop
  | .piece role, ps, rest => ∀ rest', frontKind rest' = frontKind rest ∨ EndsWord rest' →
    Reads limit (.piece role) depth (written ps ++ rest') ps rest'
  | .pieces role, ps, _ => ∀ rest', EndsWord rest' →
    Reads limit (.pieces role) depth (written ps ++ rest') ps rest'
  | .word role, ps, _ => ∀ rest', EndsWord rest' →
    Reads limit (.word role) depth (written ps ++ rest') ps rest'
  | .part, ps, _ => ∀ rest', EndsWord rest' →
    Reads limit .part depth (written ps ++ rest') ps rest'
  | .parts, ps, _ => ∀ gap rest', Narrow gap → EndsCommand rest' →
    Reads limit .parts depth ((ps.flatMap fun p => blank :: p.tokens) ++ (gap ++ rest')) ps rest'
  | .command, ps, _ => ∀ gap rest', Narrow gap → EndsCommand rest' →
    Reads limit .command depth (written ps ++ (gap ++ rest')) ps rest'
  | .operand, ps, _ => ∀ gap rest', Narrow gap → EndsCommand rest' →
    Reads limit .operand depth (written ps ++ (gap ++ rest')) ps rest'
  | .chain item tokens, ps, _ => ∃ gap links, written ps = tokens ++ (gap ++ links) ∧
    Narrow gap ∧ ∀ rest', EndsItem rest' → EndsCommand (links ++ rest') ∧
      Reads limit (.chain item tokens) depth (links ++ rest') ps rest'
  | .items nested, ps, _ => ∀ tail rest', Closes nested tail rest' →
    Reads limit (.items nested) depth (listed ps ++ tail) ps rest'
  | .sequence nested, ps, _ => ∀ tail rest', Closes nested tail rest' →
    Reads limit (.sequence nested) depth (written ps ++ tail) ps rest'

theorem Narrow.endsWord {gap : List Token} (h : Narrow gap) (hEnds : EndsCommand rest') :
    EndsWord (gap ++ rest') := by
  rcases h with rfl | rfl
  · exact hEnds.endsWord
  · exact endsWord_blank rest'

/-- Behind a part there is a blank, or a command ends. -/
theorem endsWord_parts (ps : List Phrase) {gap : List Token} (hGap : Narrow gap)
    (hEnds : EndsCommand rest') :
    EndsWord ((ps.flatMap fun p => blank :: p.tokens) ++ (gap ++ rest')) := by
  cases ps with
  | nil => exact hGap.endsWord hEnds
  | cons p ps => exact endsWord_blank _

/-- Behind an item there is a separator, or the sequence closes. -/
theorem endsItem_items (ps : List Phrase) (hEnds : EndsItem rest') :
    EndsItem ((ps.flatMap fun p => semicolon :: blank :: p.tokens) ++ rest') := by
  cases ps with
  | nil => exact hEnds
  | cons p ps => exact ⟨semicolon, _, rfl, rfl, by decide, rfl⟩

theorem Reads.skip_blank
    (hRule : rule = .parts ∨ rule = .operand ∨ ∃ nested, rule = .items nested)
    (h : Reads limit rule depth ts ps rest) : Reads limit rule depth (blank :: ts) ps rest :=
  Reads.skip (.space (t := blank) hRule rfl) h

/-- A separator before the first of the items is skipped. -/
theorem items_skip {nested : Bool} {tail : List Token}
    (h : Reads limit (.items nested) depth (listed ps ++ tail) ps rest') :
    Reads limit (.items nested) depth
      ((ps.flatMap fun p => semicolon :: blank :: p.tokens) ++ tail) ps rest' := by
  cases ps with
  | nil => exact h
  | cons p ps =>
    have hItems := h.skip_blank (.inr (.inr ⟨nested, rfl⟩))
    have hSkip := Reads.skip (.separator (t := semicolon) rfl) hItems
    simpa [listed] using hSkip

/-- The tokens of phrases are read as these phrases. -/
theorem Reads.again (h : Reads limit rule depth ts ps rest) :
    Again limit depth rule ps rest := by
  induction h with
  | literal hOpen hQuote hSubstitution =>
    intro rest' hFront
    obtain ⟨hOpen, hSubstitution⟩ := literal_again hFront hOpen hSubstitution
    exact .literal hOpen hQuote hSubstitution
  | @string role _ _ _ _ _ _ hQuote hRoom hQuoted =>
    intro rest' _
    have hAgain : Reads limit (.piece role) _ _ _ _ :=
      .string hQuote hRoom (hQuoted.again rest')
    simpa using hAgain
  | @substitution role _ _ _ close _ _ _ hDollar hParen hRoom _ hClose ih =>
    intro rest' _
    have hInside := ih (close :: rest') (close :: rest') ⟨close, rest', rfl, hClose, rfl⟩
    have hAgain : Reads limit (.piece role) _ _ _ _ :=
      .substitution hDollar hParen hRoom hInside hClose
    simpa using hAgain
  | piecesNil =>
    intro rest' hEnds
    obtain ⟨t, more, rfl, hEnd⟩ := hEnds.atWordEnd
    exact .piecesNil hEnd
  | piecesCons _ hOthers ihFirst ihOthers =>
    intro rest' hEnds
    have hFirst := ihFirst _ (pieces_front hOthers hEnds)
    have hAgain := Reads.piecesCons hFirst (ihOthers rest' hEnds)
    simpa using hAgain
  | word hRoom _ hOthers ihFirst ihOthers =>
    intro rest' hEnds
    have hFirst := ihFirst _ (pieces_front hOthers hEnds)
    have hAgain := Reads.word hRoom hFirst (ihOthers rest' hEnds)
    simpa [written] using hAgain
  | assignmentEmpty hStart hRoom _ =>
    intro rest' hEnds
    obtain ⟨t, more, rfl, hEnd⟩ := hEnds.atWordEnd
    exact .assignmentEmpty hStart hRoom hEnd
  | @assignment _ name equals _ _ value hStart hRoom _ ih =>
    intro rest' hEnds
    have hStart' : startsAssignment name (equals :: (written [value] ++ rest')) = true := hStart
    have hAgain := Reads.assignment hStart' hRoom (ih rest' hEnds)
    simpa using hAgain
  | @argument _ t _ _ argument hStart hWord ih =>
    intro rest' hEnds
    have hAgain := ih rest' hEnds
    obtain ⟨us, hTokens, hStart⟩ := argument_again hWord hStart hEnds
    have hWritten : written [argument] ++ rest' = t :: us := by simpa using hTokens
    rw [hWritten] at hAgain ⊢
    exact .argument hStart hAgain
  | skip hGap _ ih =>
    -- What was skipped is not written.
    rcases hGap.rule_eq with rfl | rfl | ⟨_, rfl⟩ <;> exact ih
  | partsNil =>
    intro gap rest' hGap hEnds
    obtain ⟨t, more, rfl, hEnd, -⟩ := hEnds
    rcases hGap with rfl | rfl
    · exact .partsNil hEnd
    · exact .skip_blank (.inl rfl) (.partsNil hEnd)
  | @partsCons _ _ _ _ first others _ _ ihFirst ihOthers =>
    intro gap rest' hGap hEnds
    have hFirst := ihFirst _ (endsWord_parts others hGap hEnds)
    have hParts := Reads.partsCons hFirst (ihOthers gap rest' hGap hEnds)
    have hAgain := hParts.skip_blank (.inl rfl)
    simpa using hAgain
  | @command _ _ _ _ first others hRoom _ _ ihFirst ihOthers =>
    intro gap rest' hGap hEnds
    have hFirst := ihFirst _ (endsWord_parts others hGap hEnds)
    have hAgain := Reads.command hRoom hFirst (ihOthers gap rest' hGap hEnds)
    simpa using hAgain
  | operand _ ih =>
    intro gap rest' hGap hEnds
    exact .operand (ih gap rest' hGap hEnds)
  | chainStop =>
    refine ⟨[], [], by simp, .inl rfl, fun rest' hEnds => ⟨hEnds.endsCommand, ?_⟩⟩
    obtain ⟨t, more, rfl, -, -, hOperator⟩ := hEnds
    exact .chainStop hOperator
  | @chainLink item tokens depth t _ _ _ next whole hOperator hCount _ _ ihNext ihRest =>
    obtain ⟨gap, links, hTokens, hGap, hLinks⟩ := ihRest
    refine ⟨[blank], t :: blank :: (next.tokens ++ (gap ++ links)), by simpa using hTokens,
      .inr rfl, fun rest' hEnds => ?_⟩
    obtain ⟨hEnd, hRest⟩ := hLinks rest' hEnds
    have hCommand := ihNext gap (links ++ rest') hGap hEnd
    have hNext := hCommand.skip_blank (.inr (.inl rfl))
    have hAgain := Reads.chainLink hOperator hCount hNext hRest
    refine ⟨⟨t, _, rfl, ?_⟩, by simpa using hAgain⟩
    rcases Descent.eq_of_isOperator hOperator with hKind | hKind | hKind <;>
      exact ⟨by rw [hKind]; rfl, by simp [hKind]⟩
  | finish hEnd =>
    rintro tail rest' ⟨t, more, rfl, hKind, rfl⟩
    exact .finish hKind
  | close hClose =>
    rintro tail rest' ⟨t, more, rfl, hKind, rfl⟩
    exact .close hKind
  | @item nested depth _ _ _ _ first whole others _ _ _ ihFirst ihChain ihOthers =>
    intro tail rest' hCloses
    obtain ⟨gap, links, hTokens, hGap, hLinks⟩ := ihChain
    obtain ⟨hEnd, hChain⟩ := hLinks _ (endsItem_items others hCloses.endsItem)
    have hFirst := ihFirst gap _ hGap hEnd
    have hAgain := Reads.item hFirst hChain (items_skip (ihOthers tail rest' hCloses))
    have hWhole : whole.tokens = first.tokens ++ (gap ++ links) := by simpa using hTokens
    simpa [listed, hWhole] using hAgain
  | sequence hRoom _ ih =>
    intro tail rest' hCloses
    have hAgain := Reads.sequence hRoom (ih tail rest' hCloses)
    simpa [listed] using hAgain

-- ---------------------------------------------------------------------------
-- The source of a tree
-- ---------------------------------------------------------------------------

/-- There is no blank in a plain text. -/
theorem isOuterBlank_of_isPlain {text : Text} (h : Token.isPlain text = true) :
    ∀ c ∈ text, Text.isOuterBlank c = false := by
  intro c hc
  have hEnds : Scanner.endsWord c = false := by
    simpa using List.all_eq_true.1 h c hc
  rw [Bool.eq_false_iff]
  intro hBlank
  simp only [Text.isOuterBlank, Bool.or_eq_true, beq_iff_eq] at hBlank
  rcases hBlank with rfl | rfl <;> cases hEnds

/-- There is no blank in a token that is none. -/
theorem Solid.text (h : Solid t) (hFits : fits t.kind t.text = true) :
    ∀ c ∈ t.text, Text.isOuterBlank c = false := by
  cases hFixed : t.kind.spelling? with
  | some fixed =>
    obtain ⟨hSpace, hNewline⟩ := h
    rw [text_eq hFits rfl hFixed]
    cases hKind : t.kind <;> rw [hKind] at hFixed hSpace hNewline <;> cases hFixed <;>
      first
      | exact absurd rfl hSpace
      | exact absurd rfl hNewline
      | simp [Text.isOuterBlank]
  | none => exact isOuterBlank_of_isPlain (Token.isPlain_of_fits hFits hFixed).2

/-- Tokens without a blank at either end spell a text without one. -/
theorem Tight.spelling (h : Tight ts) (hFits : ∀ t ∈ ts, fits t.kind t.text = true) :
    (∀ c ∈ (spelling ts).head?, Text.isOuterBlank c = false) ∧
      ∀ c ∈ (spelling ts).getLast?, Text.isOuterBlank c = false := by
  obtain ⟨⟨t, hHead, hSolid⟩, ⟨u, hLast, hSolid'⟩⟩ := h
  obtain ⟨us, rfl⟩ := List.head?_eq_some_iff.1 hHead
  obtain ⟨vs, hConcat⟩ := List.getLast?_eq_some_iff.1 hLast
  constructor
  · have ht := hFits t (by simp)
    rw [Token.spelling_cons, List.head?_append_of_ne_nil _ (Token.ne_nil_of_fits ht)]
    exact fun c hc => hSolid.text ht c (List.mem_of_mem_head? hc)
  · have hu := hFits u (by simp [hConcat])
    rw [hConcat, Token.spelling_append, Token.spelling_cons, Token.spelling_nil, List.append_nil,
      List.getLast?_append_of_ne_nil _ (Token.ne_nil_of_fits hu)]
    exact fun c hc => hSolid'.text hu c (List.mem_of_mem_getLast? hc)

/-- The end of the canonical layout. -/
def ending : Token := ⟨.endOfInput, [], 0⟩

/-- Kind and text are all there is to a bare token. -/
theorem map_bare_congr {us : List Token} (h : ts.map shape = us.map shape) :
    ts.map Token.bare = us.map Token.bare := by
  have hBare : ∀ vs : List Token,
      vs.map Token.bare = (vs.map shape).map fun (kind, text) => ⟨kind, text, 0⟩ := by
    intro vs
    rw [List.map_map]
    rfl
  rw [hBare, h, ← hBare]

/-- The end may follow anything. -/
theorem apart_bare {last : Token} (h : Apart ts) (hEnd : last.kind = .endOfInput) :
    Apart ((ts ++ [last]).map Token.bare) := by
  refine (List.isChain_map _).2 (List.IsChain.append h (.singleton last) ?_)
  intro a _ b hb
  obtain rfl : last = b := by simpa using hb
  simp [hEnd, mayFollow, Token.Kind.isWord]

/-- The tokens of a line fit their kinds, the end apart. -/
theorem fits_tokenize {line : Text} (ht : t ∈ (tokenize line).map Token.bare)
    (hKind : t.kind ≠ .endOfInput) : fits t.kind t.text = true ∧ t.bare = t := by
  obtain ⟨body, last, hTokens, hLast, ⟨hFits, -⟩, -⟩ := tokenize_sound line
  rw [hTokens] at ht
  obtain ⟨u, hu, rfl⟩ := List.mem_map.1 ht
  rcases List.mem_append.1 hu with hu | hu
  · exact ⟨hFits u hu, rfl⟩
  · rw [List.mem_singleton.1 hu] at hKind
    exact absurd (congrArg Prod.fst hLast) hKind

/-- What is written for a line's tree fits, and spells the source of the tree, which has no
blank at either end. -/
theorem written_source {line : Text} {p : Phrase}
    (h : Reads limit (.sequence false) 0 ((tokenize line).map Token.bare) [p] []) :
    (∀ t ∈ p.tokens, fits t.kind t.text = true ∧ t.bare = t) ∧
      spelling p.tokens = p.tree.source ∧
      (∀ c ∈ p.tree.source.head?, Text.isOuterBlank c = false) ∧
      ∀ c ∈ p.tree.source.getLast?, Text.isOuterBlank c = false := by
  have hKept := h.tokens (fun t ht hKind => fits_tokenize ht hKind) ⟨rfl, rfl⟩ ⟨rfl, rfl⟩
    trivial p (by simp)
  have hSpelled := h.spelled (fun t ht hKind => (fits_tokenize ht hKind).1) trivial p (by simp)
  have hTight := h.tight trivial p (by simp)
  refine ⟨hKept, hSpelled, ?_⟩
  rw [← hSpelled]
  exact hTight.spelling fun t ht => (hKept t ht).1

/-- The tokens of a line that can be read are those of its tree's source. -/
theorem tokenize_source {line : Text} {p : Phrase}
    (h : Reads limit (.sequence false) 0 ((tokenize line).map Token.bare) [p] []) :
    (tokenize p.tree.source).map Token.bare = p.tokens ++ [ending] := by
  obtain ⟨hKept, hSpelled, hFirst, hFinal⟩ := written_source h
  obtain ⟨body, last, hTokens, hLast, ⟨-, hChain⟩, -⟩ := tokenize_sound line
  rw [hTokens] at h
  have hJoined : Apart p.tokens :=
    h.joined (apart_bare hChain (congrArg Prod.fst hLast)) p (by simp)
  rw [← hSpelled] at hFirst hFinal
  have hShape := tokenize_spelling ⟨fun t ht => (hKept t ht).1, hJoined⟩ hFirst hFinal
  rw [hSpelled] at hShape
  have hBare : p.tokens.map Token.bare = p.tokens :=
    (List.map_congr_left fun t ht => (hKept t ht).2).trans (List.map_id _)
  have hAgain : (tokenize p.tree.source).map shape =
      (p.tokens ++ [ending]).map shape := by
    rw [hShape, List.map_append]
    rfl
  rw [map_bare_congr hAgain, List.map_append, hBare]
  rfl

end Grammar

-- ---------------------------------------------------------------------------
-- Command lines
-- ---------------------------------------------------------------------------

/-- A line whose tree has a given source. -/
theorem exists_of_map_source {result : Except Failure Tree} {source : Text}
    (h : result.map Tree.source = .ok source) :
    ∃ tree, result = .ok tree ∧ tree.source = source := by
  cases result with
  | error why => cases h
  | ok tree => exact ⟨tree, rfl, Except.ok.inj h⟩

open Grammar in
/-- **Round trip.** The source of a line's tree is read under the same limit as the same
tree, which has that source again. -/
theorem parse_source {line : Text} {limit : Int} {tree : Tree}
    (h : parse line limit = .ok tree) :
    ∃ again, parse tree.source limit = .ok again ∧ again.same tree = true ∧
      again.source = tree.source := by
  obtain ⟨p, hReads, hTree⟩ := reads_of_parseTokens h
  have hSource : p.tree.source = tree.source := by rw [hTree, Tree.source_bare]
  have hTokens := tokenize_source hReads
  rw [hSource] at hTokens
  have hAgain : Reads limit (.sequence false) 0 ((tokenize tree.source).map Token.bare) [p] [] := by
    rw [hTokens]
    simpa using hReads.again [ending] [] ⟨_, [], rfl, rfl, rfl⟩
  have hEnd : (tokenize tree.source).getLast?.map (·.kind) = some .endOfInput := by
    obtain ⟨body, last, hLine, hLast, -⟩ := tokenize_sound tree.source
    rw [hLine, List.getLast?_concat]
    exact congrArg (Option.map Prod.fst) (congrArg some hLast)
  obtain ⟨again, hParse, hBare⟩ := parseTokens_of_reads hAgain hEnd
  refine ⟨again, hParse, Tree.same_of_bare_eq (hBare.trans hTree), ?_⟩
  rw [← Tree.source_bare again, hBare, hSource]

/-- An empty value, an empty string, a backslash before the blank of an operator and a
single `&` at the end. -/
theorem parse_source_joints :
    ∃ tree again, parse "a= \\\n ;b\"\"\\ |\n$(c)&".toList 7 = .ok tree ∧
      tree.source = "a=; b\"\"\\ | $(c)&".toList ∧
      parse "a=; b\"\"\\ | $(c)&".toList 7 = .ok again ∧ again.same tree = true := by
  have hSource : (parse "a= \\\n ;b\"\"\\ |\n$(c)&".toList 7).map Tree.source =
      .ok "a=; b\"\"\\ | $(c)&".toList := by cbv
  cases hTree : parse "a= \\\n ;b\"\"\\ |\n$(c)&".toList 7 with
  | error why =>
    rw [hTree] at hSource
    cases hSource
  | ok tree =>
    rw [hTree] at hSource
    have hSource := Except.ok.inj hSource
    obtain ⟨again, hAgain, hSame, -⟩ := parse_source hTree
    rw [hSource] at hAgain
    exact ⟨tree, again, rfl, hSource, hAgain, hSame⟩

end ShellReader
