import ShellReader.Proofs.Canonical

/-!
# ShellReader — reading canonical lines

A line in the canonical layout is read token by token: what a rule reads is what is
written for the phrases it finds, and nothing is lost or put in. So the source of a line's
tree is the line itself exactly when the line is canonical.

The rules skip blanks and separators, each in its own places. A canonical line leaves them
nothing to choose: a blank is followed by a word or an operator, an operator stands between
two blanks, and a semicolon stands right behind an item and before a blank. So what was
skipped is known from what comes next (`Exact`).

## Results

* `Reads.exact` — what a rule reads of a canonical line is what is written.
* `source_eq_iff_canonical` — the canonical lines are those that are their tree's source.
-/

namespace ShellReader

namespace Grammar

open Token (Kind fits spelling)
open Production (startsAssignment atWordEnd)
open Descent (startsSubstitution)

variable {limit : Int} {rule : Rule} {depth : Nat} {t : Token}
  {tokens before ts us more rest lead gap : List Token} {ps : List Phrase}

-- ---------------------------------------------------------------------------
-- Where rules stop
-- ---------------------------------------------------------------------------

/-- A word is read to its end, a command to the end of a command, and the operators behind
a command to the end of the item. -/
def Stops : Rule → List Token → List Token → Prop
  | .pieces _, _, rest | .word _, _, rest | .part, _, rest =>
    ∃ t more, rest = t :: more ∧ atWordEnd t more = true
  | .parts, _, rest | .command, _, rest | .operand, _, rest =>
    ∃ t more, rest = t :: more ∧ t.kind.endsCommand = true
  | .chain .., ts, rest => (∃ t more, ts = t :: more ∧ t.kind.endsCommand = true) →
    ∃ t more, rest = t :: more ∧ t.kind.endsCommand = true ∧ t.kind.isOperator = false
  | _, _, _ => True

theorem Reads.stops (h : Reads limit rule depth ts ps rest) : Stops rule ts rest := by
  induction h with
  | piecesNil hEnd => exact ⟨_, _, rfl, hEnd⟩
  | piecesCons _ _ _ ihOthers => exact ihOthers
  | word _ _ _ _ ihOthers => exact ihOthers
  | assignmentEmpty _ _ hEnd => exact ⟨_, _, rfl, hEnd⟩
  | assignment _ _ _ ih => exact ih
  | argument _ _ ih => exact ih
  | skip hGap _ ih =>
    rcases hGap.rule_eq with rfl | rfl | ⟨_, rfl⟩ <;> exact ih
  | partsNil hEnds => exact ⟨_, _, rfl, hEnds⟩
  | partsCons _ _ _ ihOthers => exact ihOthers
  | command _ _ _ _ ihOthers => exact ihOthers
  | operand _ ih => exact ih
  | chainStop hOther =>
    rintro ⟨_, _, hTs, hEnds⟩
    obtain ⟨rfl, rfl⟩ := List.cons.inj hTs
    exact ⟨_, _, rfl, hEnds, hOther⟩
  | chainLink _ _ _ _ ihNext ihRest => exact fun _ => ihRest ihNext
  | _ => trivial

-- ---------------------------------------------------------------------------
-- Canonical token lists
-- ---------------------------------------------------------------------------

/-- The tokens of a canonical line. -/
structure Regular (tokens : List Token) : Prop where
  canonical : Canonical (tokens.map (·.kind))
  /-- No blank is the first token, or stands right before the end. -/
  inner : ∀ before t more, tokens = before ++ t :: more → t.kind = .space →
    before ≠ [] ∧ ∃ u us, more = u :: us ∧ u.kind ≠ .endOfInput
  blanks : ∀ t ∈ tokens, t.kind = .space → t = blank
  semicolons : ∀ t ∈ tokens, t.kind = .semicolon → t = semicolon

/-- The list goes on with `ts` behind `before`, and outside of strings. -/
structure Ahead (tokens before ts : List Token) : Prop where
  split : tokens = before ++ ts
  outside : Balanced before

theorem Ahead.behind (h : Ahead tokens before (us ++ ts)) (hus : Balanced us) :
    Ahead tokens (before ++ us) ts :=
  ⟨by rw [h.split, List.append_assoc], h.outside.append hus⟩

theorem Ahead.tail (h : Ahead tokens before (t :: ts)) (hQuote : t.kind.isQuote = false) :
    Ahead tokens (before ++ [t]) ts := by
  have hCons : Ahead tokens before ([t] ++ ts) := h
  exact hCons.behind ((balanced_cons hQuote).2 balanced_nil)

theorem Ahead.mem (h : Ahead tokens before ts) (ht : t ∈ ts) : t ∈ tokens := by
  rw [h.split]
  exact List.mem_append_right _ ht

/-- A word or an operator comes next. -/
def GoesOn (ts : List Token) : Prop :=
  ∃ t more, ts = t :: more ∧ (t.kind.endsArgument = true → t.kind.isOperator = true)

/-- Where an item ends, neither does. -/
theorem not_goesOn (hEnds : t.kind.endsCommand = true) (hOther : t.kind.isOperator = false) :
    ¬ GoesOn (t :: more) := by
  rintro ⟨_, _, hTs, hKind⟩
  obtain ⟨rfl, rfl⟩ := List.cons.inj hTs
  rw [hKind (by simp [Kind.endsArgument, hEnds])] at hOther
  cases hOther

theorem Closes.not_goesOn {nested : Bool} (h : Closes nested ts rest) : ¬ GoesOn ts := by
  obtain ⟨t, more, rfl, hEnds, -, hOther⟩ := h.endsItem
  exact Grammar.not_goesOn hEnds hOther

namespace Regular

theorem placed (hT : Regular tokens) (h : Ahead tokens before (t :: more)) :
    WellPlaced (before.map (·.kind)) t.kind (more.map (·.kind)) :=
  hT.canonical _ _ _ (by rw [h.split, List.map_append, List.map_cons]) h.outside

/-- What is followed by a blank. -/
theorem blank_ahead (hT : Regular tokens) (h : Ahead tokens before ts)
    (hHead : (ts.map (·.kind)).head? = some .space) : ∃ us, ts = blank :: us := by
  cases ts with
  | nil => cases hHead
  | cons t us => exact ⟨us, by rw [hT.blanks t (h.mem (by simp)) (Option.some.inj hHead)]⟩

/-- A blank is neither the first token nor right behind a `$(`, and an operator or a word
follows it. -/
theorem of_space (hT : Regular tokens) (h : Ahead tokens before (t :: more))
    (hKind : t.kind = .space) :
    t = blank ∧ before ≠ [] ∧ ¬ Opens (before.map (·.kind)) ∧ GoesOn more := by
  obtain ⟨hSpace, hParen, hOpens⟩ := (hT.placed h).space hKind
  obtain ⟨hNil, u, us, rfl, hEnd⟩ := hT.inner before t more h.split hKind
  have hNext := hT.placed (h.tail (by rw [hKind]; rfl))
  refine ⟨hT.blanks t (h.mem (by simp)) hKind, hNil, hOpens, u, us, rfl, fun hEnds => ?_⟩
  have hSemicolon : u.kind ≠ .semicolon := by
    intro hSemicolon
    exact (hNext.semicolon hSemicolon).2.1 (by simp [hKind])
  simp only [Kind.endsArgument, Kind.endsCommand, Bool.or_eq_true, beq_iff_eq] at hEnds
  rcases hEnds with hEnds | ((hEnds | hEnds) | hEnds) | hEnds
  · exact absurd (congrArg some hEnds) hSpace
  · exact absurd hEnds hEnd
  · exact absurd (congrArg some hEnds) hParen
  · exact absurd (Descent.eq_semicolon hEnds hNext.newline) hSemicolon
  · exact hEnds

/-- A semicolon is neither the first token nor right behind a `$(`, and a blank follows it. -/
theorem of_semicolon (hT : Regular tokens) (h : Ahead tokens before (t :: more))
    (hKind : t.kind = .semicolon) :
    t = semicolon ∧ before ≠ [] ∧ ¬ Opens (before.map (·.kind)) ∧
      ∃ us, more = blank :: us := by
  obtain ⟨hNil, -, hOpens, hHead⟩ := (hT.placed h).semicolon hKind
  exact ⟨hT.semicolons t (h.mem (by simp)) hKind, fun hBefore => hNil (by rw [hBefore]; rfl),
    hOpens, hT.blank_ahead (h.tail (by rw [hKind]; rfl)) hHead⟩

/-- An operator stands between blanks. -/
theorem of_operator (hT : Regular tokens) (h : Ahead tokens before (t :: more))
    (hOperator : t.kind.isOperator = true) :
    (∃ u ∈ before.getLast?, u.kind = .space) ∧ ∃ us, more = blank :: us := by
  obtain ⟨hLast, hHead⟩ := (hT.placed h).operator hOperator
  rw [List.getLast?_map, Option.map_eq_some_iff] at hLast
  exact ⟨hLast, hT.blank_ahead (h.tail (not_isQuote_of_isOperator hOperator)) hHead⟩

/-- There is no continuation, so a word ends only at a token that ends words. -/
theorem of_wordEnd (hT : Regular tokens) (h : Ahead tokens before ts)
    (hStops : ∃ t more, ts = t :: more ∧ atWordEnd t more = true) :
    ∃ t more, ts = t :: more ∧ t.kind.endsArgument = true := by
  obtain ⟨t, more, rfl, hEnd⟩ := hStops
  refine ⟨t, more, rfl, ?_⟩
  simp only [atWordEnd, Bool.or_eq_true] at hEnd
  rcases hEnd with hEnd | hContinuation
  · exact hEnd
  · cases more with
    | nil => cases hContinuation
    | cons u more =>
      obtain ⟨hBackslash, hNewline⟩ : t.kind = .backslash ∧ u.kind = .newline := by
        simpa [Token.startsContinuation] using hContinuation
      exact absurd hNewline (hT.placed (h.tail (by rw [hBackslash]; rfl))).newline

end Regular

-- ---------------------------------------------------------------------------
-- Blanks and separators
-- ---------------------------------------------------------------------------

/-- What may stand before the next of the items. -/
def Lead (lead : List Token) : Prop := lead = [] ∨ lead = [blank] ∨ lead = [semicolon, blank]

theorem Narrow.toLead (h : Narrow lead) : Lead lead := by
  rcases h with h | h
  · exact .inl h
  · exact .inr (.inl h)

theorem Narrow.balanced (h : Narrow gap) : Balanced gap := by
  rcases h with rfl | rfl <;> rfl

theorem Opening.endsArgument_ne (h : Opening ts) (hTs : ts = t :: more) :
    t.kind.endsArgument = false := by
  obtain ⟨u, us, rfl, hOpen⟩ := h
  obtain ⟨rfl, rfl⟩ := List.cons.inj hTs
  exact hOpen

/-- Before a word or an operator there is no further blank, nor a separator. -/
theorem Lead.eq_nil (h : Lead lead) (hNext : GoesOn (lead ++ us)) : lead = [] := by
  obtain ⟨u, vs, hTs, hKind⟩ := hNext
  rcases h with rfl | rfl | rfl
  · rfl
  · obtain ⟨rfl, -⟩ := List.cons.inj hTs
    cases hKind rfl
  · obtain ⟨rfl, -⟩ := List.cons.inj hTs
    cases hKind rfl

/-- At the start of a sequence there is neither a blank nor a separator. -/
theorem Regular.lead_eq_nil (hT : Regular tokens) (h : Ahead tokens before (lead ++ us))
    (hLead : Lead lead) (hStart : before = [] ∨ Opens (before.map (·.kind))) : lead = [] := by
  rcases hLead with rfl | rfl | rfl
  · rfl
  · obtain ⟨-, hNil, hOpens, -⟩ := hT.of_space h rfl
    exact absurd hStart (not_or.2 ⟨hNil, hOpens⟩)
  · obtain ⟨-, hNil, hOpens, -⟩ := hT.of_semicolon h rfl
    exact absurd hStart (not_or.2 ⟨hNil, hOpens⟩)

/-- The parts of a command, with the blanks of the canonical layout. -/
def spaced : List Phrase → List Token
  | [] => []
  | p :: ps => p.tokens ++ ps.flatMap fun q => blank :: q.tokens

/-- Where a word ends there is a blank before the next part. -/
theorem spaced_behind (hOpen : ∀ p ∈ ps, Opening p.tokens) (hLead : Narrow lead)
    (hNil : ps = [] → lead = [])
    (hStops : ∃ t more, lead ++ (spaced ps ++ us) = t :: more ∧ t.kind.endsArgument = true) :
    lead ++ spaced ps = ps.flatMap fun p => blank :: p.tokens := by
  cases ps with
  | nil => rw [hNil rfl]; rfl
  | cons p ps =>
    obtain ⟨t, more, hTs, hEnds⟩ := hStops
    rcases hLead with rfl | rfl
    · rw [List.nil_append] at hTs
      have hFirst : Opening (spaced (p :: ps)) := (hOpen p (by simp)).append _
      rw [(hFirst.append us).endsArgument_ne hTs] at hEnds
      cases hEnds
    · rfl

/-- Where an item ends there is a semicolon before the next one. -/
theorem listed_behind (hOpen : ∀ p ∈ ps, Opening p.tokens) (hLead : Lead lead)
    (hNil : ps = [] → lead = [])
    (hStops : ∃ t more, lead ++ (listed ps ++ us) = t :: more ∧ t.kind.endsCommand = true) :
    lead ++ listed ps = ps.flatMap fun p => semicolon :: blank :: p.tokens := by
  cases ps with
  | nil => rw [hNil rfl]; rfl
  | cons p ps =>
    obtain ⟨t, more, hTs, hEnds⟩ := hStops
    rcases hLead with rfl | rfl | rfl
    · rw [List.nil_append] at hTs
      have hFirst : Opening (listed (p :: ps)) := (hOpen p (by simp)).append _
      have hKind := (hFirst.append us).endsArgument_ne hTs
      simp [Kind.endsArgument, hEnds] at hKind
    · obtain ⟨rfl, -⟩ := List.cons.inj hTs
      cases hEnds
    · rfl

-- ---------------------------------------------------------------------------
-- Exact readings
-- ---------------------------------------------------------------------------

/-- What is read is what is written, and a known blank or separator where a rule has
skipped one. -/
def Exact : Rule → List Token → List Phrase → List Token → Prop
  | .piece _, ts, ps, rest | .pieces _, ts, ps, rest | .word _, ts, ps, rest
  | .part, ts, ps, rest => ts = written ps ++ rest
  | .parts, ts, ps, rest => ∃ lead gap, Narrow lead ∧ Narrow gap ∧ (ps = [] → lead = []) ∧
    ts = lead ++ (spaced ps ++ (gap ++ rest))
  | .command, ts, ps, rest => ∃ gap, Narrow gap ∧ ts = written ps ++ (gap ++ rest)
  | .operand, ts, ps, rest => ∃ lead gap, Narrow lead ∧ Narrow gap ∧
    ts = lead ++ (written ps ++ (gap ++ rest))
  | .chain _ tokens, ts, ps, rest => (ts = rest ∧ written ps = tokens) ∨
    ∃ t links, t.kind.isOperator = true ∧ ts = t :: links ++ rest ∧
      written ps = tokens ++ blank :: t :: links
  | .items nested, ts, ps, rest => ∃ lead tail, Closes nested tail rest ∧ Lead lead ∧
    (ps = [] → lead = []) ∧ ts = lead ++ (listed ps ++ tail)
  | .sequence nested, ts, ps, rest => ∃ lead tail, Closes nested tail rest ∧ Lead lead ∧
    ts = lead ++ (written ps ++ tail)

/-- A blank before the next part, operand or item. -/
theorem exact_space
    (hRule : rule = .parts ∨ rule = .operand ∨ ∃ nested, rule = .items nested)
    (hNext : GoesOn ts) (h : Exact rule ts ps rest) : Exact rule (blank :: ts) ps rest := by
  rcases hRule with rfl | rfl | ⟨nested, rfl⟩
  · obtain ⟨lead, gap, hLead, hGap, -, rfl⟩ := h
    obtain rfl := hLead.toLead.eq_nil hNext
    cases ps with
    | nil =>
      obtain rfl := hGap.toLead.eq_nil hNext
      exact ⟨[], [blank], .inl rfl, .inr rfl, fun _ => rfl, rfl⟩
    | cons p ps => exact ⟨[blank], gap, .inr rfl, hGap, by simp, rfl⟩
  · obtain ⟨lead, gap, hLead, hGap, rfl⟩ := h
    obtain rfl := hLead.toLead.eq_nil hNext
    exact ⟨[blank], gap, .inr rfl, hGap, rfl⟩
  · obtain ⟨lead, tail, hCloses, hLead, -, rfl⟩ := h
    obtain rfl := hLead.eq_nil hNext
    cases ps with
    | nil => exact absurd hNext hCloses.not_goesOn
    | cons p ps => exact ⟨[blank], tail, hCloses, .inr (.inl rfl), by simp, rfl⟩

/-- A semicolon and a blank before the next item. -/
theorem exact_semicolon {nested : Bool} (hOpen : ∀ p ∈ ps, Opening p.tokens)
    (h : Exact (.items nested) (blank :: ts) ps rest) :
    Exact (.items nested) (semicolon :: blank :: ts) ps rest := by
  obtain ⟨lead, tail, hCloses, hLead, hNil, hTs⟩ := h
  rcases hLead with rfl | rfl | rfl
  · -- Neither an item nor the end of a sequence starts with a blank.
    cases ps with
    | nil =>
      obtain ⟨t, more, rfl, hEnds, -⟩ := hCloses.endsItem
      obtain ⟨rfl, -⟩ := List.cons.inj hTs
      cases hEnds
    | cons p ps =>
      have hFirst : Opening (listed (p :: ps) ++ tail) :=
        ((hOpen p (by simp)).append _).append _
      cases hFirst.endsArgument_ne hTs.symm
  · refine ⟨[semicolon, blank], tail, hCloses, .inr (.inr rfl), fun hEmpty => ?_, by rw [hTs]; rfl⟩
    cases hNil hEmpty
  · obtain ⟨hFirst, -⟩ := List.cons.inj hTs
    cases hFirst

/-- Skipping is exact: there are no newlines. -/
theorem Regular.skip (hT : Regular tokens) (hGap : Gap rule gap)
    (hAhead : Ahead tokens before (gap ++ ts)) (hOpen : ∀ p ∈ ps, Opening p.tokens)
    (h : ∀ before, Ahead tokens before ts → Exact rule ts ps rest) :
    Exact rule (gap ++ ts) ps rest := by
  cases hGap with
  | @space rule t hRule hKind =>
    obtain ⟨rfl, -, -, hNext⟩ := hT.of_space hAhead hKind
    exact exact_space hRule hNext (h _ (hAhead.tail rfl))
  | @continuation rule t u hRule hBackslash hNewline =>
    exact absurd hNewline (hT.placed (hAhead.tail (by rw [hBackslash]; rfl))).newline
  | newline hKind => exact absurd hKind (hT.placed hAhead).newline
  | @separator nested t hSeparator =>
    have hKind := Descent.eq_semicolon hSeparator (hT.placed hAhead).newline
    obtain ⟨rfl, -, -, us, rfl⟩ := hT.of_semicolon hAhead hKind
    exact exact_semicolon hOpen (h _ (hAhead.tail rfl))

/-- Behind a command there is a blank before an operator, and none at the end of an item. -/
theorem Regular.joint (hT : Regular tokens) {first whole : List Token} (hTight : Tight us)
    (hBalanced : Balanced us) (hGap : Narrow gap)
    (hAhead : Ahead tokens before (us ++ (gap ++ ts)))
    (hStops : ∃ t more, rest = t :: more ∧ t.kind.endsCommand = true ∧ t.kind.isOperator = false)
    (h : (ts = rest ∧ whole = first) ∨ ∃ t links, t.kind.isOperator = true ∧
      ts = t :: links ++ rest ∧ whole = first ++ blank :: t :: links) :
    (gap ++ ts = rest ∧ whole = first) ∨ ∃ t links, t.kind.isOperator = true ∧
      gap ++ ts = blank :: t :: links ++ rest ∧ whole = first ++ blank :: t :: links := by
  have hBehind := hAhead.behind hBalanced
  rcases h with ⟨rfl, hWhole⟩ | ⟨t, links, hOperator, rfl, hWhole⟩
  · rcases hGap with rfl | rfl
    · exact .inl ⟨rfl, hWhole⟩
    · -- A blank is followed by a word or an operator.
      obtain ⟨-, -, -, hNext⟩ := hT.of_space hBehind rfl
      obtain ⟨t, more, rfl, hEnds, hOther⟩ := hStops
      exact absurd hNext (not_goesOn hEnds hOther)
  · rcases hGap with rfl | rfl
    · -- An operator does not stand right behind a word.
      obtain ⟨⟨u, hLast, hSpace⟩, -⟩ := hT.of_operator hBehind hOperator
      obtain ⟨-, v, hTightLast, hSolid⟩ := hTight
      rw [List.getLast?_append_of_ne_nil _ (by rintro rfl; cases hTightLast), hTightLast] at hLast
      rw [← Option.some.inj hLast] at hSpace
      exact absurd hSpace hSolid.1
    · exact .inr ⟨t, links, hOperator, rfl, hWhole⟩

/-- Behind a part there is a blank before the next one. -/
theorem Regular.parts_behind (hT : Regular tokens) {between : List Token} {first : Phrase}
    {others : List Phrase} (hFirst : Reads limit .part depth ts [first] between)
    (hOthers : Reads limit .parts depth between others rest)
    (hAhead : Ahead tokens before (first.tokens ++ between))
    (h : ∀ before, Ahead tokens before between → Exact .parts between others rest) :
    ∃ gap, Narrow gap ∧ first.tokens ++ between =
      (first.tokens ++ others.flatMap fun p => blank :: p.tokens) ++ (gap ++ rest) := by
  have hBehind := hAhead.behind (hFirst.balanced trivial first (by simp))
  have hStops := hT.of_wordEnd hBehind hFirst.stops
  obtain ⟨lead, gap, hLead, hGap, hNil, hBetween⟩ := h _ hBehind
  rw [hBetween] at hStops ⊢
  have hSpaced := spaced_behind (hOthers.opening trivial) hLead hNil hStops
  exact ⟨gap, hGap, by rw [← hSpaced]; simp⟩

/-- Behind an operator there is a blank and the next command. -/
theorem Regular.link_behind (hT : Regular tokens) {item : Descent.Item}
    {front between : List Token} {t : Token} {next whole : Phrase}
    (hOperator : t.kind.isOperator = true) (hNext : Reads limit .operand depth ts [next] between)
    (hRest : Reads limit (.chain item (front ++ blank :: t :: blank :: next.tokens)) depth between
      [whole] rest)
    (hAhead : Ahead tokens before (t :: ts))
    (ihNext : ∀ before, Ahead tokens before ts → Exact .operand ts [next] between)
    (ihRest : ∀ before, Ahead tokens before between →
      Exact (.chain item (front ++ blank :: t :: blank :: next.tokens)) between [whole] rest) :
    ∃ links, ts = links ++ rest ∧ whole.tokens = front ++ blank :: t :: links := by
  have hBehind := hAhead.tail (not_isQuote_of_isOperator hOperator)
  obtain ⟨lead, gap, hLead, hGap, rfl⟩ := ihNext _ hBehind
  have hBalanced := hNext.balanced trivial next (by simp)
  obtain ⟨-, us, hBlank⟩ := hT.of_operator hAhead hOperator
  rcases hLead with rfl | rfl
  · -- A command does not start with the blank.
    have hOpen := hNext.opening trivial next (by simp)
    simp only [written_cons, written_nil, List.append_nil, List.nil_append] at hBlank
    cases (hOpen.append _).endsArgument_ne hBlank
  simp only [written_cons, written_nil, List.append_nil, List.singleton_append] at hBehind
  have hOperand := hBehind.tail rfl
  have hLinks := ihRest _ ((hOperand.behind hBalanced).behind hGap.balanced)
  rcases hT.joint (hNext.tight trivial next (by simp)) hBalanced hGap hOperand
    (hRest.stops hNext.stops) hLinks with ⟨hTs, hWhole⟩ | ⟨u, links, -, hTs, hWhole⟩
  · exact ⟨blank :: next.tokens, by simp [hTs], by simpa using hWhole⟩
  · exact ⟨blank :: next.tokens ++ blank :: u :: links, by simp [hTs], by simpa using hWhole⟩

/-- A command and the operators behind it are what is written of the item. -/
theorem Regular.item_behind (hT : Regular tokens) {behind between : List Token}
    {first whole : Phrase} (hFirst : Reads limit .command depth ts [first] behind)
    (hChain : Reads limit (.chain (.single first.tree) first.tokens) depth behind [whole] between)
    (hAhead : Ahead tokens before ts)
    (ihFirst : ∀ before, Ahead tokens before ts → Exact .command ts [first] behind)
    (ihChain : ∀ before, Ahead tokens before behind →
      Exact (.chain (.single first.tree) first.tokens) behind [whole] between) :
    ts = whole.tokens ++ between := by
  obtain ⟨gap, hGap, rfl⟩ := ihFirst before hAhead
  have hBalanced := hFirst.balanced trivial first (by simp)
  simp only [written_cons, written_nil, List.append_nil] at hAhead ⊢
  have hLinks := ihChain _ ((hAhead.behind hBalanced).behind hGap.balanced)
  simp only [Exact, written_cons, written_nil, List.append_nil] at hLinks
  rcases hT.joint (hFirst.tight trivial first (by simp)) hBalanced hGap hAhead
    (hChain.stops hFirst.stops) hLinks with ⟨hRest, hWhole⟩ | ⟨t, links, -, hRest, hWhole⟩
  · rw [hRest, hWhole]
  · rw [hRest, hWhole, List.append_assoc]

/-- A rule that skips has no item in the making. -/
theorem Gap.item {Q : Phrase → Prop} (h : Gap rule gap) : rule.Item Q := by
  rcases h.rule_eq with rfl | rfl | ⟨_, rfl⟩ <;> trivial

/-- What a rule reads of a canonical line is what is written. -/
theorem Reads.exact (hT : Regular tokens) (h : Reads limit rule depth ts ps rest) :
    ∀ before, Ahead tokens before ts → Exact rule ts ps rest := by
  induction h with
  | literal => exact fun _ _ => rfl
  | string _ _ hQuoted =>
    intro _ _
    simp [Exact, hQuoted.eq_append]
  | @substitution _ _ dollar paren close inside rest root hDollar hParen _ _ _ ih =>
    intro before hAhead
    have hInside : Ahead tokens (before ++ [dollar] ++ [paren]) inside :=
      (hAhead.tail (by rw [hDollar]; rfl)).tail (by rw [hParen]; rfl)
    obtain ⟨lead, _, ⟨_, _, rfl, -, hTail⟩, hLead, hTs⟩ := ih _ hInside
    rw [hTs] at hInside
    have hNil := hT.lead_eq_nil hInside hLead
      (.inr ⟨before.map (·.kind), by simp [hDollar, hParen]⟩)
    rw [hNil, ← hTail] at hTs
    simpa [Exact] using hTs
  | piecesNil => exact fun _ _ => rfl
  | piecesCons hFirst _ ihFirst ihOthers =>
    intro before hAhead
    have hPiece := ihFirst before hAhead
    simp only [Exact, written_cons, written_nil, List.append_nil] at hPiece ihOthers ⊢
    rw [hPiece] at hAhead ⊢
    have hPieces := ihOthers _ (hAhead.behind (hFirst.balanced trivial _ (by simp)))
    rw [List.append_assoc, ← hPieces]
  | word _ hFirst _ ihFirst ihOthers =>
    intro before hAhead
    have hPiece := ihFirst before hAhead
    simp only [Exact, written_cons, written_nil, List.append_nil] at hPiece ihOthers ⊢
    rw [hPiece] at hAhead ⊢
    have hPieces := ihOthers _ (hAhead.behind (hFirst.balanced trivial _ (by simp)))
    rw [List.append_assoc, ← written, ← hPieces]
  | assignmentEmpty => exact fun _ _ => rfl
  | @assignment _ name equals ts rest value hStart _ _ ih =>
    intro before hAhead
    obtain ⟨hName, -, _, _, hMore, hEquals⟩ := Descent.startsAssignment_iff.1 hStart
    obtain ⟨rfl, -⟩ := List.cons.inj hMore
    have hValue := ih _ ((hAhead.tail (by rw [hName]; rfl)).tail (by rw [hEquals]; rfl))
    simpa [Exact] using hValue
  | argument _ _ ih => exact ih
  | skip hGap hReads ih =>
    exact fun before hAhead => hT.skip hGap hAhead (hReads.opening hGap.item) ih
  | partsNil => exact fun _ _ => ⟨[], [], .inl rfl, .inl rfl, fun _ => rfl, rfl⟩
  | @partsCons _ ts between rest first others hFirst hOthers ihFirst ihOthers =>
    intro before hAhead
    have hPart : ts = first.tokens ++ between := by simpa [Exact] using ihFirst before hAhead
    rw [hPart] at hAhead ⊢
    obtain ⟨gap, hGap, hTs⟩ := hT.parts_behind hFirst hOthers hAhead ihOthers
    exact ⟨[], gap, .inl rfl, hGap, by simp, hTs⟩
  | @command _ ts between rest first others _ hFirst hOthers ihFirst ihOthers =>
    intro before hAhead
    have hPart : ts = first.tokens ++ between := by simpa [Exact] using ihFirst before hAhead
    rw [hPart] at hAhead ⊢
    obtain ⟨gap, hGap, hTs⟩ := hT.parts_behind hFirst hOthers hAhead ihOthers
    exact ⟨gap, hGap, by simpa using hTs⟩
  | operand _ ih =>
    intro before hAhead
    obtain ⟨gap, hGap, hTs⟩ := ih before hAhead
    exact ⟨[], gap, .inl rfl, hGap, hTs⟩
  | chainStop => exact fun _ _ => .inl ⟨rfl, by simp⟩
  | @chainLink _ _ _ t _ _ _ _ _ hOperator _ hNext hRest ihNext ihRest =>
    intro before hAhead
    obtain ⟨links, hTs, hWhole⟩ := hT.link_behind hOperator hNext hRest hAhead ihNext ihRest
    exact .inr ⟨t, links, hOperator, by rw [hTs, List.cons_append], by simpa using hWhole⟩
  | @finish _ t more hEnd =>
    exact fun _ _ => ⟨[], t :: more, ⟨t, more, rfl, hEnd, rfl⟩, .inl rfl, fun _ => rfl, rfl⟩
  | @close _ t more hClose =>
    exact fun _ _ => ⟨[], t :: more, ⟨t, more, rfl, hClose, rfl⟩, .inl rfl, fun _ => rfl, rfl⟩
  | @item nested _ ts behind between rest first whole others hFirst hChain hOthers ihFirst ihChain
      ihOthers =>
    intro before hAhead
    have hWhole := hT.item_behind hFirst hChain hAhead ihFirst ihChain
    rw [hWhole] at hAhead ⊢
    have hItem := hChain.balanced
      ⟨proper_single first.tree, hFirst.balanced trivial first (by simp)⟩ whole (by simp)
    obtain ⟨lead, tail, hCloses, hLead, hNil, hBetween⟩ := ihOthers _ (hAhead.behind hItem)
    obtain ⟨t, more, hRest, hEnds, -⟩ := hChain.stops hFirst.stops
    have hListed := listed_behind (hOthers.opening trivial) hLead hNil
      ⟨t, more, hBetween ▸ hRest, hEnds⟩
    refine ⟨[], tail, hCloses, .inl rfl, by simp, ?_⟩
    rw [hBetween, ← List.append_assoc lead, hListed]
    simp [listed]
  | @sequence _ _ _ _ first others _ _ ih =>
    intro before hAhead
    obtain ⟨lead, tail, hCloses, hLead, -, hTs⟩ := ih before hAhead
    exact ⟨lead, tail, hCloses, hLead, by simpa [listed] using hTs⟩

-- ---------------------------------------------------------------------------
-- Command lines
-- ---------------------------------------------------------------------------

/-- A text that does not start with a blank has no blank as its first token. -/
theorem head_ne_space (hFits : ∀ t ∈ ts, fits t.kind t.text = true)
    (h : ∀ c ∈ (spelling ts).head?, Text.isOuterBlank c = false) :
    ∀ t ∈ ts.head?, t.kind ≠ .space := by
  intro t hHead hKind
  obtain ⟨us, rfl⟩ := List.head?_eq_some_iff.1 hHead
  rw [Token.spelling_cons, text_eq (hFits t (by simp)) hKind rfl] at h
  cases h ' ' rfl

/-- A text that does not end with a blank has no blank as its last token. -/
theorem last_ne_space (hFits : ∀ t ∈ ts, fits t.kind t.text = true)
    (h : ∀ c ∈ (spelling ts).getLast?, Text.isOuterBlank c = false) :
    ∀ t ∈ ts.getLast?, t.kind ≠ .space := by
  intro t hLast hKind
  obtain ⟨us, rfl⟩ := List.getLast?_eq_some_iff.1 hLast
  rw [Token.spelling_append, Token.spelling_cons, text_eq (hFits t (by simp)) hKind rfl] at h
  cases h ' ' (by simp)

/-- In a text without a blank at either end, a blank is not the first token and does not
stand right before the end. -/
theorem space_inner {body : List Token} {last : Token}
    (hFits : ∀ t ∈ body, fits t.kind t.text = true)
    (hHead : ∀ c ∈ (spelling body).head?, Text.isOuterBlank c = false)
    (hLast : ∀ c ∈ (spelling body).getLast?, Text.isOuterBlank c = false)
    (hEnd : last.kind = .endOfInput) (hSplit : body ++ [last] = before ++ t :: more)
    (hKind : t.kind = .space) :
    before ≠ [] ∧ ∃ u us, more = u :: us ∧ u.kind ≠ .endOfInput := by
  constructor
  · rintro rfl
    cases body with
    | nil =>
      obtain ⟨rfl, -⟩ := List.cons.inj hSplit
      simp [hEnd] at hKind
    | cons b body =>
      obtain ⟨rfl, -⟩ := List.cons.inj hSplit
      exact head_ne_space hFits hHead b rfl hKind
  · cases more with
    | nil =>
      obtain ⟨-, hSame⟩ := List.append_inj' hSplit rfl
      rw [← (List.cons.inj hSame).1, hEnd] at hKind
      cases hKind
    | cons u us =>
      refine ⟨u, us, rfl, fun hu => ?_⟩
      rcases List.eq_nil_or_concat us with rfl | ⟨ws, w, rfl⟩
      · -- The blank would be the last token of the text.
        have hSplit : body ++ [last] = (before ++ [t]) ++ [u] := by simpa using hSplit
        obtain ⟨rfl, -⟩ := List.append_inj' hSplit rfl
        exact last_ne_space hFits hLast t (by simp) hKind
      · -- The end would be a token of the text.
        have hSplit : body ++ [last] = (before ++ t :: u :: ws) ++ [w] := by simpa using hSplit
        obtain ⟨rfl, -⟩ := List.append_inj' hSplit rfl
        have hText := hFits u (by simp)
        rw [hu] at hText
        cases hText

theorem spelling_bare (ts : List Token) : spelling (ts.map Token.bare) = spelling ts :=
  Token.spelling_congr (by simp [Token.shape, Function.comp_def])

/-- The tokens of a line without a blank at either end, if they are canonical. -/
theorem regular_tokenize {line : Text} (hHead : ∀ c ∈ line.head?, Text.isOuterBlank c = false)
    (hLast : ∀ c ∈ line.getLast?, Text.isOuterBlank c = false)
    (h : Canonical ((tokenize line).map (·.kind))) : Regular ((tokenize line).map Token.bare) where
  canonical := by simpa [Function.comp_def] using h
  inner before t more hSplit hKind := by
    obtain ⟨body, last, hTokens, hEnd, ⟨hFits, -⟩, hSpelling⟩ := tokenize_sound line
    rw [Text.core_eq_self hHead hLast, ← spelling_bare] at hSpelling
    rw [hTokens, List.map_append, List.map_singleton] at hSplit
    rw [← hSpelling] at hHead hLast
    have hFinal : last.bare.kind = .endOfInput := congrArg Prod.fst hEnd
    refine space_inner (fun u hu => ?_) hHead hLast hFinal hSplit hKind
    obtain ⟨v, hv, rfl⟩ := List.mem_map.1 hu
    exact hFits v hv
  blanks t ht hKind := by
    obtain ⟨hFits, hBare⟩ := fits_tokenize ht (by simp [hKind])
    rw [← hBare]
    exact (Token.bare_eq_iff (b := blank)).2 ⟨hKind, text_eq hFits hKind rfl⟩
  semicolons t ht hKind := by
    obtain ⟨hFits, hBare⟩ := fits_tokenize ht (by simp [hKind])
    rw [← hBare]
    exact (Token.bare_eq_iff (b := semicolon)).2 ⟨hKind, text_eq hFits hKind rfl⟩

/-- What is written for a canonical line's tree is the line. -/
theorem spelling_of_regular {line : Text} {p : Phrase}
    (hT : Regular ((tokenize line).map Token.bare))
    (h : Reads limit (.sequence false) 0 ((tokenize line).map Token.bare) [p] []) :
    spelling p.tokens = line.core := by
  obtain ⟨body, last, hTokens, -, -, hSpelling⟩ := tokenize_sound line
  obtain ⟨lead, _, ⟨final, _, rfl, -, rfl⟩, hLead, hTs⟩ := h.exact hT [] ⟨rfl, balanced_nil⟩
  have hStart : Ahead ((tokenize line).map Token.bare) [] (lead ++ (written [p] ++ [final])) :=
    ⟨hTs, balanced_nil⟩
  have hNil := hT.lead_eq_nil hStart hLead (.inl rfl)
  rw [hNil, hTokens, List.map_append, List.map_singleton, List.nil_append] at hTs
  obtain ⟨hBody, -⟩ := List.append_inj' hTs rfl
  have hTokens : p.tokens = body.map Token.bare := by simpa using hBody.symm
  rw [hTokens, spelling_bare, hSpelling]

end Grammar

open Grammar in
/-- **Canonical lines.** The source of a line's tree is the line itself exactly when the
line neither starts nor ends with a blank and its tokens outside of strings are placed as
the canonical layout asks. -/
theorem source_eq_iff_canonical {line : Text} {limit : Int} {tree : Tree}
    (h : parse line limit = .ok tree) :
    tree.source = line ↔ (∀ c ∈ line.head?, Text.isOuterBlank c = false) ∧
      (∀ c ∈ line.getLast?, Text.isOuterBlank c = false) ∧
      Canonical ((tokenize line).map (·.kind)) := by
  obtain ⟨p, hReads, hTree⟩ := reads_of_parseTokens h
  have hSource : p.tree.source = tree.source := by rw [hTree, Tree.source_bare]
  obtain ⟨-, hSpelled, hFirst, hFinal⟩ := written_source hReads
  rw [hSource] at hSpelled hFirst hFinal
  constructor
  · intro hLine
    have hTokens := tokenize_source hReads
    have hCanonical := canonical_written hReads
    rw [hSource, hLine] at hTokens
    rw [← hTokens] at hCanonical
    rw [hLine] at hFirst hFinal
    exact ⟨hFirst, hFinal, by simpa [Function.comp_def] using hCanonical⟩
  · rintro ⟨hHead, hLast, hCanonical⟩
    rw [← hSpelled, spelling_of_regular (regular_tokenize hHead hLast hCanonical) hReads,
      Text.core_eq_self hHead hLast]

/-- What is inside of a string is not looked at, and a `(` by itself opens nothing; a blank
behind a `$(` is too much. -/
theorem source_eq_iff_canonical_string :
    Canonical ((tokenize "f ' ;' ( $(g; h) | i".toList).map (·.kind)) ∧
      ¬ Canonical ((tokenize "f; $( g)".toList).map (·.kind)) := by
  have hSource : (parse "f ' ;' ( $(g; h) | i".toList 7).map Tree.source =
      .ok "f ' ;' ( $(g; h) | i".toList := by cbv
  obtain ⟨tree, hTree, hText⟩ := exists_of_map_source hSource
  have hOther : (parse "f; $( g)".toList 7).map Tree.source = .ok "f; $(g)".toList := by cbv
  obtain ⟨other, hParse, hChanged⟩ := exists_of_map_source hOther
  refine ⟨((source_eq_iff_canonical hTree).1 hText).2.2, fun hCanonical => ?_⟩
  have hSame := (source_eq_iff_canonical hParse).2
    ⟨by rintro c ⟨⟩; rfl, by rintro c ⟨⟩; rfl, hCanonical⟩
  rw [hChanged] at hSame
  revert hSame
  decide

end ShellReader
