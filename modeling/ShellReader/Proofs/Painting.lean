import Mathlib.Data.List.Chain
import ShellReader.Highlight
import ShellReader.Proofs.Lexical
import ShellReader.Proofs.Provenance

/-!
# ShellReader — the painter and the parser

The painter colours a line from its tokens alone, and keeps track of strings and substitutions
in its own way: by the kind of the open quote, and by a number of open brackets. This module
goes through a line that can be parsed with the painter and the parser side by side. The parser
has a mark for every token (`Marking.Yields`), the painter a group.

As long as no double quote that closes a string stands right behind a backslash (`Unhidden`) the
two agree on strings. Such a quote they see differently, because the painter looks no further
back than to the token before the quote, while the parser has paired the backslashes up. Where no
two backslashes stand next to each other there is no such quote.

* `Brush` — a painter with the kind of the token before it;
* `Paints` — the way of a brush through marked tokens, `Leads` from one state to another;
* `Unhidden` — no closing double quote behind a backslash;
* `LineShows` — what the fragments of a line have to do with the marks of its tokens.

## Results

* `paints_string` — the way of the painter through a string.
* `follows_of_yields` — what the parser reads outside of strings leaves the painter outside of
  strings, with as many brackets open as before, and the two agree on every token.
* `tidy_of_yields` — without a double backslash no quote is hidden.
* `line_strings` — a line where no quote is hidden: both see the same strings.
* `line_substitutions` — a line without a double backslash: both see the same substitutions.
-/

namespace ShellReader.Highlight

open Token (Kind)
open Marking (Yields Form written placed inside)
open Grammar (Quoted Gap)
open Descent (startsSubstitution)
open Production (startsAssignment)

variable {p : Painter} {before after : Option Kind} {k : Kind} {g : Group}

-- ---------------------------------------------------------------------------
-- One token
-- ---------------------------------------------------------------------------

/-- Groups have different styles. -/
theorem Group.style_injective : Function.Injective Group.style := by
  intro a b
  cases a <;> cases b <;> decide

namespace Painter

@[simp] theorem next_quote : (p.next before k after g).quote = p.quoteAfter before k := by
  dsimp only [next]
  split_ifs <;> rfl

@[simp] theorem next_depth : (p.next before k after g).depth = p.depthAfter k g := by
  dsimp only [next]
  split_ifs <;> rfl

/-- Inside a string everything is part of the string. -/
theorem group_of_quote {quote : Kind} (h : p.quote = some quote) :
    p.group before k after = .string := by
  simp [group, groupOf, h]

/-- A quote opens a string. -/
theorem group_of_isQuote (h : p.quote = none) (hk : k.isQuote = true) :
    p.group before k after = .string := by
  cases k <;> simp_all [group, groupOf, groupOfKind, Kind.isQuote]

/-- Outside of strings nothing else does. -/
theorem group_ne_string (h : p.quote = none) (hk : k.isQuote = false) :
    p.group before k after ≠ .string := by
  unfold group groupOf groupOfKind
  split_ifs <;> cases k <;> simp_all [Kind.isQuote]

/-- Outside of strings and apart from the brackets of substitutions, only a backtick looks like
a bracket. -/
theorem group_eq_substitution_iff (h : p.quote = none) (hClose : k ≠ .rightParenthesis)
    (hOpen : ¬ (k = .dollar ∧ after = some .leftParenthesis))
    (hParen : ¬ (before = some .dollar ∧ k = .leftParenthesis)) :
    p.group before k after = .substitution ↔ k = .backtick := by
  unfold group groupOf groupOfKind
  split_ifs <;> cases k <;> simp_all

/-- A quote opens a string, and nothing else changes. -/
theorem next_open (h : p.quote = none) (hk : k.isQuote = true) :
    p.next before k after g = { p with quote := some k } := by
  have hQuote : p.quoteAfter before k = some k := by simp [quoteAfter, h, hk]
  have hDepth : p.depthAfter k g = p.depth := by
    cases k <;> simp_all [depthAfter, Kind.isQuote]
  simp [next, hQuote, hDepth]

/-- Behind a bracket, a command's name may come next. -/
theorem next_bracket (h : p.quote = none) (hk : k.isQuote = false) :
    p.next before k after .substitution = ⟨none, p.depthAfter k .substitution, true, false⟩ := by
  simp [next, quoteAfter, h, hk]

/-- What does not close the string changes nothing. -/
theorem next_inside (h : p.quote.isSome = true) (hStays : p.quoteAfter before k = p.quote) :
    p.next before k after g = p := by
  simp [next, hStays, h, depthAfter]

/-- Behind a string no command's name may come next, unless a value is being read. -/
theorem next_close (h : p.quote.isSome = true) (hk : k.isQuote = true)
    (hCloses : p.quoteAfter before k = none) :
    p.next before k after .string =
      { p with quote := none, atCommand := p.atCommand && p.assigning } := by
  obtain ⟨quote, depth, atCommand, assigning⟩ := p
  cases k <;> cases hk <;> cases assigning <;>
    simp_all [next, depthAfter, Kind.isOperator, Kind.isSeparator]

end Painter

-- ---------------------------------------------------------------------------
-- Many tokens
-- ---------------------------------------------------------------------------

/-- A painter between two tokens, and the kind of the token before it. -/
structure Brush where
  painter : Painter := {}
  before  : Option Kind := none

namespace Brush

/-- The group of a token of the kind `k` before the tokens `ahead`. -/
def group (b : Brush) (k : Kind) (ahead : List Token) : Group :=
  b.painter.group b.before k (ahead.head?.map (·.kind))

/-- The brush behind that token. -/
def step (b : Brush) (k : Kind) (ahead : List Token) : Brush :=
  ⟨b.painter.next b.before k (ahead.head?.map (·.kind)) (b.group k ahead), some k⟩

/-- The brush behind a string whose quotes are of the kind `k`. -/
def closed (b : Brush) (k : Kind) : Brush :=
  ⟨{ b.painter with quote := none, atCommand := b.painter.atCommand && b.painter.assigning },
    some k⟩

end Brush

variable {b b' b'' : Brush} {R : Mark → Group → Prop} {m : Mark} {as bs ms : List Mark}
  {t opener closer : Token} {ts parts more between rest : List Token} {role : Role}

/-- `Paints R rest b ms b'`: on its way through the marked tokens, with `rest` behind them, the
brush goes from `b` to `b'`, and every mark and the group of its token are as `R` says. -/
inductive Paints (R : Mark → Group → Prop) (rest : List Token) :
    Brush → List Mark → Brush → Prop where
  | nil {b : Brush} : Paints R rest b [] b
  | madeUp {b b' : Brush} {m : Mark} {ms : List Mark} (hMadeUp : m.role.isWritten = false)
      (h : Paints R rest b ms b') : Paints R rest b (m :: ms) b'
  | token {b b' : Brush} {m : Mark} {ms : List Mark} (hWritten : m.role.isWritten = true)
      (hGroup : R m (b.group m.token.kind (written ms ++ rest)))
      (h : Paints R rest (b.step m.token.kind (written ms ++ rest)) ms b') :
      Paints R rest b (m :: ms) b'

/-- Two stretches of tokens, one behind the other. -/
theorem Paints.append (h : Paints R between b as b') (hBetween : between = written bs ++ rest)
    (h' : Paints R rest b' bs b'') : Paints R rest b (as ++ bs) b'' := by
  subst hBetween
  induction h with
  | nil => exact h'
  | madeUp hMadeUp _ ih => exact .madeUp hMadeUp (ih h')
  | @token _ _ m ms hWritten hGroup _ ih =>
    have hRest : written (ms ++ bs) ++ rest = written ms ++ (written bs ++ rest) := by
      rw [Marking.written_append, List.append_assoc]
    exact .token hWritten (hRest ▸ hGroup) (hRest ▸ ih h')

-- ---------------------------------------------------------------------------
-- Strings
-- ---------------------------------------------------------------------------

/-- The kind of the latest of the tokens, or what was before them. -/
def lastKind (before : Option Kind) (ts : List Token) : Option Kind :=
  (ts.getLast?.map (·.kind)).or before

theorem lastKind_cons (t : Token) (ts : List Token) :
    lastKind before (t :: ts) = lastKind (some t.kind) ts := by
  cases ts <;> simp [lastKind, List.getLast?_cons]

/-- A token that does not close the string. -/
theorem step_inside {quote : Kind} (hOpen : b.painter.quote = some quote)
    (hStays : k ≠ quote ∨ (quote = .doubleQuote ∧ b.before = some .backslash)) :
    b.step k ts = ⟨b.painter, some k⟩ := by
  have hQuote : b.painter.quoteAfter b.before k = b.painter.quote := by
    rcases hStays with hk | ⟨rfl, hBefore⟩
    · simp [Painter.quoteAfter, hOpen, hk]
    · simp [Painter.quoteAfter, hOpen, hBefore]
  rw [Brush.step, Painter.next_inside (by rw [hOpen]; rfl) hQuote]

/-- The quote that closes the string, unless it stands behind a backslash. -/
theorem step_close {quote : Kind} (hOpen : b.painter.quote = some quote)
    (hQuote : quote.isQuote = true)
    (hHidden : ¬ (quote = .doubleQuote ∧ b.before = some .backslash)) :
    b.step quote ts = b.closed quote := by
  have hCloses : b.painter.quoteAfter b.before quote = none := by
    simp only [Painter.quoteAfter, hOpen, hQuote, true_and]
    rw [if_pos hHidden]
  rw [Brush.step, Brush.group, Painter.group_of_quote hOpen,
    Painter.next_close (by rw [hOpen]; rfl) hQuote hCloses, Brush.closed]

/-- The way of the painter through the parts of a string and the quote that closes it. -/
theorem paints_quoted {quote : Kind} (h : Quoted quote ts parts closer rest)
    (hQuote : quote.isQuote = true) (hOpen : b.painter.quote = some quote)
    (hHidden : ¬ (quote = .doubleQuote ∧ lastKind b.before parts = some .backslash))
    (hR : ∀ m, m.role.isInString = true → R m .string) :
    Paints R rest b (parts.map (Mark.mk .quoted) ++ [⟨.quote, closer⟩]) (b.closed quote) := by
  have hGroup (b : Brush) (hb : b.painter.quote = some quote) (role : Role) (t : Token)
      (ahead : List Token) (hRole : role.isInString = true) :
      R ⟨role, t⟩ (b.group t.kind ahead) := by
    rw [Brush.group, Painter.group_of_quote hb]
    exact hR _ hRole
  induction h generalizing b with
  | @close t more _ hClose =>
    refine .token rfl (hGroup _ hOpen _ t _ rfl) ?_
    rw [hClose, step_close hOpen hQuote hHidden]
    exact .nil
  | @escape t u closer more parts rest _ hClose hOpener hEscape _ ih =>
    -- The second token of the pair may be a quote, but the painter sees the backslash before it.
    subst hOpener
    obtain ⟨ht, -⟩ : t.kind = .backslash ∧ (u.kind = .doubleQuote ∨ u.kind = .backslash) := by
      simpa [Production.startsEscape] using hEscape
    refine .token rfl (hGroup _ hOpen _ t _ rfl) ?_
    rw [step_inside hOpen (.inl hClose)]
    refine .token rfl (hGroup ⟨b.painter, some t.kind⟩ hOpen _ u _ rfl) ?_
    rw [step_inside (b := ⟨b.painter, some t.kind⟩) hOpen (.inr ⟨rfl, congrArg some ht⟩)]
    exact ih hOpen (by rwa [lastKind_cons, lastKind_cons] at hHidden)
  | @plain t closer more parts rest _ hClose _ _ ih =>
    refine .token rfl (hGroup _ hOpen _ t _ rfl) ?_
    rw [step_inside hOpen (.inl hClose)]
    exact ih hOpen (by rwa [lastKind_cons] at hHidden)

/-- The way of the painter through a string. -/
theorem paints_string (h : Quoted opener.kind ts parts closer rest)
    (hQuote : opener.kind.isQuote = true) (hOutside : b.painter.quote = none)
    (hHidden : ¬ (opener.kind = .doubleQuote ∧ lastKind none parts = some .backslash))
    (hR : ∀ m, m.role.isInString = true → R m .string) :
    Paints R rest b (⟨.quote, opener⟩ :: inside opener parts ++ [⟨.quote, closer⟩])
      (b.closed opener.kind) := by
  have hFirst (ahead : List Token) : R ⟨.quote, opener⟩ (b.group opener.kind ahead) := by
    rw [Brush.group, Painter.group_of_isQuote hOutside hQuote]
    exact hR _ rfl
  have hStep (ahead : List Token) : b.step opener.kind ahead =
      ⟨{ b.painter with quote := some opener.kind }, some opener.kind⟩ := by
    rw [Brush.step, Painter.next_open hOutside hQuote]
  have hLast : ¬ (opener.kind = .doubleQuote ∧
      lastKind (some opener.kind) parts = some .backslash) := by
    cases parts with
    | nil =>
      rintro ⟨hDouble, hBackslash⟩
      rw [hDouble] at hBackslash
      cases hBackslash
    | cons part parts => rwa [lastKind_cons] at hHidden ⊢
  have hParts := paints_quoted h hQuote
    (b := ⟨{ b.painter with quote := some opener.kind }, some opener.kind⟩) rfl hLast hR
  refine .token rfl (hFirst _) ?_
  rw [hStep]
  cases parts with
  | nil => exact .madeUp rfl hParts
  | cons part parts => exact hParts

-- ---------------------------------------------------------------------------
-- From one state to another
-- ---------------------------------------------------------------------------

/-- From every brush as `P` says, the way through the marked tokens leads to one as `Q` says. -/
def Leads (R : Mark → Group → Prop) (P : Brush → Prop) (ms : List Mark) (rest : List Token)
    (Q : Brush → Prop) : Prop :=
  ∀ b, P b → ∃ b', Paints R rest b ms b' ∧ Q b'

section Leads

variable {P Q Q' S : Brush → Prop}

theorem Leads.nil (h : ∀ b, P b → Q b) : Leads R P [] rest Q :=
  fun b hb => ⟨b, .nil, h b hb⟩

theorem Leads.single (hWritten : role.isWritten = true)
    (h : ∀ b, P b → R ⟨role, t⟩ (b.group t.kind rest) ∧ Q (b.step t.kind rest)) :
    Leads R P [⟨role, t⟩] rest Q :=
  fun b hb => ⟨_, .token hWritten (h b hb).1 .nil, (h b hb).2⟩

theorem Leads.append (h : Leads R P as between Q) (hBetween : between = written bs ++ rest)
    (h' : Leads R Q bs rest S) : Leads R P (as ++ bs) rest S := by
  intro b hb
  obtain ⟨b', hFirst, hb'⟩ := h b hb
  obtain ⟨b'', hSecond, hb''⟩ := h' b' hb'
  exact ⟨b'', hFirst.append hBetween hSecond, hb''⟩

theorem Leads.mono (h : Leads R P ms rest Q) (hQ : ∀ b, Q b → Q' b) :
    Leads R P ms rest Q' := by
  intro b hb
  obtain ⟨b', hPaints, hb'⟩ := h b hb
  exact ⟨b', hPaints, hQ b' hb'⟩

end Leads

-- ---------------------------------------------------------------------------
-- Outside of strings
-- ---------------------------------------------------------------------------

variable {depth : Nat}

/-- The painter sees in a token what the parser does, as far as strings and the brackets of
substitutions go. Backticks look like brackets, which they are not. -/
def Agrees (m : Mark) (g : Group) : Prop :=
  (g = .string ↔ m.role.isInString = true) ∧
    (g = .substitution ↔
      m.role = .bracket ∨ (m.token.kind = .backtick ∧ m.role.isInString = false))

theorem agrees_inString (h : m.role.isInString = true) : Agrees m .string := by
  obtain ⟨role, t⟩ := m
  cases role <;> simp_all [Agrees, Role.isInString]

theorem agrees_bracket (t : Token) : Agrees ⟨.bracket, t⟩ .substitution := by
  simp [Agrees, Role.isInString]

/-- The brush is outside of strings, with so many brackets open, and not within a `$(`. -/
structure Ready (depth : Nat) (ts : List Token) (b : Brush) : Prop where
  outside : b.painter.quote = none
  depth   : b.painter.depth = depth
  apart   : ¬ (b.before = some .dollar ∧ ts.head?.map (·.kind) = some .leftParenthesis)

/-- At the start of a line. -/
theorem ready_start : Ready 0 ts {} := ⟨rfl, rfl, fun h => nomatch h.1⟩

/-- Behind a string. -/
theorem Ready.closed (h : Ready depth ts b) (hk : k.isQuote = true) :
    Ready depth rest (b.closed k) := by
  refine ⟨rfl, h.depth, ?_⟩
  rintro ⟨hDollar, -⟩
  rw [Option.some.inj hDollar] at hk
  cases hk

/-- The token is neither a quote nor a bracket of a substitution. -/
structure Plain (t : Token) (ahead : List Token) : Prop where
  quote : t.kind.isQuote = false
  close : t.kind ≠ .rightParenthesis
  start : startsSubstitution t ahead = false

/-- Tokens of most kinds are plain. -/
theorem plain_of_kind (hQuote : t.kind.isQuote = false)
    (hKind : t.kind ∉ [.dollar, .rightParenthesis]) : Plain t ts := by
  simp only [List.mem_cons, List.not_mem_nil, or_false, not_or] at hKind
  exact ⟨hQuote, hKind.2, by simp [startsSubstitution, hKind.1]⟩

theorem plain_of_isOperator (h : t.kind.isOperator = true) : Plain t ts := by
  rcases Descent.eq_of_isOperator h with hKind | hKind | hKind <;>
    exact plain_of_kind (by rw [hKind]; rfl) (by simp [hKind])

/-- The tokens that are skipped. -/
theorem kind_of_skips {form : Form} {gap : List Token} (h : form.Skips gap) :
    ∀ t ∈ gap, t.kind ∈ [.space, .backslash, .newline, .semicolon] := by
  obtain ⟨rule, h⟩ := h.gap
  cases h with
  | space _ hKind => simp [hKind]
  | continuation _ hBackslash hNewline => simp [hBackslash, hNewline]
  | newline hKind => simp [hKind]
  | @separator _ t hKind =>
    by_cases hNewline : t.kind = .newline
    · simp [hNewline]
    · simp [Descent.eq_semicolon hKind hNewline]

theorem plain_of_skips {form : Form} {gap : List Token} (h : form.Skips gap) (ht : t ∈ gap) :
    Plain t ts := by
  have hKind := kind_of_skips h t ht
  simp only [List.mem_cons, List.not_mem_nil, or_false] at hKind
  rcases hKind with hKind | hKind | hKind | hKind <;>
    exact plain_of_kind (by rw [hKind]; rfl) (by simp [hKind])

/-- A plain token is seen as what it is. -/
theorem Ready.agrees (h : Ready depth (t :: rest) b) (hPlain : Plain t rest)
    (hRole : role.isInString = false) (hBracket : role ≠ .bracket) :
    Agrees ⟨role, t⟩ (b.group t.kind rest) := by
  have hString : b.group t.kind rest ≠ .string :=
    Painter.group_ne_string h.outside hPlain.quote
  have hStart : ¬ (t.kind = .dollar ∧ rest.head?.map (·.kind) = some .leftParenthesis) := by
    simpa [startsSubstitution] using hPlain.start
  have hSubstitution : b.group t.kind rest = .substitution ↔ t.kind = .backtick :=
    Painter.group_eq_substitution_iff h.outside hPlain.close hStart (by simpa using h.apart)
  simp [Agrees, hString, hSubstitution, hRole, hBracket]

theorem Ready.group_ne_substitution (h : Ready depth (t :: rest) b) (hPlain : Plain t rest)
    (hBacktick : t.kind ≠ .backtick) : b.group t.kind rest ≠ .substitution := by
  intro hGroup
  have hAgrees : Agrees ⟨.literal, t⟩ _ := h.agrees hPlain rfl (by simp)
  simpa [hBacktick] using hAgrees.2.1 hGroup

/-- A plain token leaves the brush where it is. -/
theorem Ready.step (h : Ready depth (t :: rest) b) (hPlain : Plain t rest) :
    Ready depth rest (b.step t.kind rest) := by
  refine ⟨?_, ?_, ?_⟩
  · simp [Brush.step, Painter.quoteAfter, h.outside, hPlain.quote]
  · have hDepth : ¬ (t.kind = .leftParenthesis ∧ b.group t.kind rest = .substitution) :=
      fun ⟨hKind, hGroup⟩ => h.group_ne_substitution hPlain (by simp [hKind]) hGroup
    simp [Brush.step, Painter.depthAfter, h.outside, h.depth, hPlain.close, hDepth]
  · simpa [Brush.step, startsSubstitution] using hPlain.start

-- ---------------------------------------------------------------------------
-- Brackets
-- ---------------------------------------------------------------------------

/-- The brush behind a bracket of the kind `k`, with so many brackets open. -/
def bracketed (depth : Nat) (k : Kind) : Brush := ⟨⟨none, depth, true, false⟩, some k⟩

/-- The brackets that open a substitution. -/
theorem paints_opening {dollar paren : Token} (hDollar : dollar.kind = .dollar)
    (hParen : paren.kind = .leftParenthesis) (hR : ∀ t, R ⟨.bracket, t⟩ .substitution)
    (hb : Ready depth (dollar :: paren :: ts) b) :
    Paints R ts b [⟨.bracket, dollar⟩, ⟨.bracket, paren⟩]
      (bracketed (depth + 1) .leftParenthesis) := by
  have hFirst : b.group dollar.kind (paren :: ts) = .substitution := by
    simp [Brush.group, Painter.group, groupOf, hb.outside, hDollar, hParen]
  have hStep : b.step dollar.kind (paren :: ts) = bracketed depth .dollar := by
    rw [Brush.step, hFirst, Painter.next_bracket hb.outside (by rw [hDollar]; rfl)]
    simp [bracketed, Painter.depthAfter, hb.outside, hb.depth, hDollar]
  have hSecond : (bracketed depth .dollar).group paren.kind ts = .substitution := by
    simp [bracketed, Brush.group, Painter.group, groupOf, hParen]
  have hStep' : (bracketed depth .dollar).step paren.kind ts =
      bracketed (depth + 1) .leftParenthesis := by
    rw [Brush.step, hSecond, Painter.next_bracket rfl (by rw [hParen]; rfl)]
    simp [bracketed, Painter.depthAfter, hParen]
  refine .token rfl ?_ (.token rfl ?_ ?_)
  · exact hFirst ▸ hR dollar
  · exact hStep ▸ hSecond ▸ hR paren
  · exact hStep ▸ hStep' ▸ .nil

/-- The bracket that closes a substitution. -/
theorem paints_closing {close : Token} (hClose : close.kind = .rightParenthesis)
    (hR : ∀ t, R ⟨.bracket, t⟩ .substitution) (hb : Ready (depth + 1) (close :: rest) b) :
    Paints R rest b [⟨.bracket, close⟩] (bracketed depth .rightParenthesis) := by
  have hGroup : b.group close.kind rest = .substitution := by
    simp [Brush.group, Painter.group, hb.outside, hb.depth, hClose]
  have hStep : b.step close.kind rest = bracketed depth .rightParenthesis := by
    rw [Brush.step, hGroup, Painter.next_bracket hb.outside (by rw [hClose]; rfl)]
    simp [bracketed, Painter.depthAfter, hb.outside, hb.depth, hClose]
  exact .token rfl (hGroup ▸ hR close) (hStep ▸ .nil)

theorem ready_bracketed (hk : k ≠ .dollar) : Ready depth ts (bracketed depth k) :=
  ⟨rfl, rfl, fun h => hk (Option.some.inj h.1)⟩

/-- A substitution. Behind it the painter knows nothing of what was before. -/
theorem leads_substitution {P Q : Brush → Prop} {dollar paren close : Token}
    (hDollar : dollar.kind = .dollar) (hParen : paren.kind = .leftParenthesis)
    (hClose : close.kind = .rightParenthesis) (hR : ∀ t, R ⟨.bracket, t⟩ .substitution)
    (hP : P (bracketed (depth + 1) .leftParenthesis))
    (h : Leads R P ms (close :: rest) Q) (hQ : ∀ b, Q b → Ready (depth + 1) (close :: rest) b) :
    Leads R (Ready depth (dollar :: paren :: (written ms ++ close :: rest)))
      (⟨.bracket, dollar⟩ :: ⟨.bracket, paren⟩ :: ms ++ [⟨.bracket, close⟩]) rest
      (· = bracketed depth .rightParenthesis) := by
  intro b hb
  obtain ⟨b', hInner, hb'⟩ := h _ hP
  have hOpening := paints_opening hDollar hParen hR hb
  have hClosing := paints_closing hClose hR (hQ b' hb')
  exact ⟨_, hOpening.append (by simp [Role.isWritten]) (hInner.append rfl hClosing), rfl⟩

-- ---------------------------------------------------------------------------
-- Hidden quotes
-- ---------------------------------------------------------------------------

/-- The second is a double quote that closes a string, right behind a backslash. -/
def Hides (backslash quote : Mark) : Prop :=
  backslash.role = .quoted ∧ backslash.token.kind = .backslash ∧
    quote.role = .quote ∧ quote.token.kind = .doubleQuote

/-- No double quote that closes a string stands right behind a backslash. -/
def Unhidden (ms : List Mark) : Prop := ms.IsChain fun a b => ¬ Hides a b

theorem Unhidden.left (h : Unhidden (as ++ bs)) : Unhidden as :=
  (List.isChain_append.1 h).1

theorem Unhidden.right (h : Unhidden (as ++ bs)) : Unhidden bs :=
  (List.isChain_append.1 h).2.1

theorem Unhidden.tail (h : Unhidden (m :: ms)) : Unhidden ms :=
  List.IsChain.tail h

/-- Only quotes hide. -/
theorem unhidden_of_role (h : ∀ m ∈ ms, m.role ≠ .quote) : Unhidden ms := by
  refine (List.pairwise_of_forall_mem_list ?_).isChain
  intro _ _ quote hQuote hHides
  exact h quote hQuote hHides.2.2.1

/-- When the quote that closes a string is not hidden. -/
theorem unhidden_string_iff (hCloser : closer.kind = opener.kind) :
    Unhidden (⟨.quote, opener⟩ :: inside opener parts ++ [⟨.quote, closer⟩]) ↔
      ¬ (opener.kind = .doubleQuote ∧ lastKind none parts = some .backslash) := by
  have hFront : Unhidden (⟨.quote, opener⟩ :: inside opener parts) := by
    refine List.isChain_cons.2 ⟨fun _ _ h => Role.noConfusion h.1, unhidden_of_role ?_⟩
    cases parts <;> simp [inside]
  have hLast : (∀ m ∈ (Mark.mk .quote opener :: inside opener parts).getLast?,
      ¬ Hides m ⟨.quote, closer⟩) ↔
        ¬ (opener.kind = .doubleQuote ∧ lastKind none parts = some .backslash) := by
    obtain rfl | ⟨init, part, rfl⟩ := parts.eq_nil_or_concat
    · simp [inside, Hides, lastKind]
    · have hInside : inside opener (init ++ [part]) =
          init.map (Mark.mk .quoted) ++ [⟨.quoted, part⟩] := by
        cases init <;> simp [inside]
      rw [List.concat_eq_append, hInside, ← List.cons_append, List.getLast?_concat]
      simp [Hides, lastKind, hCloser, imp_not_comm]
  calc Unhidden (⟨.quote, opener⟩ :: inside opener parts ++ [⟨.quote, closer⟩])
    _ ↔ ∀ m ∈ (Mark.mk .quote opener :: inside opener parts).getLast?,
        ¬ Hides m ⟨.quote, closer⟩ := by
      rw [Unhidden, List.isChain_append]
      simpa using fun _ => hFront.imp fun _ _ => id
    _ ↔ _ := hLast

-- ---------------------------------------------------------------------------
-- Readings
-- ---------------------------------------------------------------------------

/-- The painter goes along with the parser from `ts` to `rest`: it agrees on every token, and is
outside of strings again in the end, with as many brackets open as before. -/
def Follows (ts : List Token) (ms : List Mark) (rest : List Token) : Prop :=
  Unhidden ms → ∀ depth, Leads Agrees (Ready depth ts) ms rest (Ready depth rest)

theorem follows_nil : Follows ts [] ts := fun _ _ => .nil fun _ => id

theorem Follows.append (h : Follows ts as between) (hBetween : between = written bs ++ rest)
    (h' : Follows between bs rest) : Follows ts (as ++ bs) rest := fun hUnhidden depth =>
  (h hUnhidden.left depth).append hBetween (h' hUnhidden.right depth)

theorem follows_plain (hPlain : Plain t rest) (hRole : role.isInString = false)
    (hBracket : role ≠ .bracket) : Follows (t :: rest) [⟨role, t⟩] rest := fun _ _ =>
  .single (by cases role <;> first | rfl | cases hRole) fun _ hb =>
    ⟨hb.agrees hPlain hRole hBracket, hb.step hPlain⟩

theorem follows_string (h : Quoted opener.kind ts parts closer rest)
    (hQuote : opener.kind.isQuote = true) :
    Follows (opener :: ts) (⟨.quote, opener⟩ :: inside opener parts ++ [⟨.quote, closer⟩])
      rest := by
  intro hUnhidden depth b hb
  have hHidden := (unhidden_string_iff h.closer_kind).1 hUnhidden
  exact ⟨_, paints_string h hQuote hb.outside hHidden fun _ => agrees_inString, hb.closed hQuote⟩

theorem follows_substitution {dollar paren close : Token} (hDollar : dollar.kind = .dollar)
    (hParen : paren.kind = .leftParenthesis) (hClose : close.kind = .rightParenthesis)
    (hTs : ts = written ms ++ close :: rest) (h : Follows ts ms (close :: rest)) :
    Follows (dollar :: paren :: ts)
      (⟨.bracket, dollar⟩ :: ⟨.bracket, paren⟩ :: ms ++ [⟨.bracket, close⟩]) rest := by
  subst hTs
  intro hUnhidden depth
  have hInner := h hUnhidden.tail.tail.left (depth + 1)
  refine (leads_substitution hDollar hParen hClose agrees_bracket (ready_bracketed (by simp))
    hInner fun _ => id).mono ?_
  rintro b rfl
  exact ready_bracketed (by simp)

theorem follows_gap {form : Form} {gap : List Token} (h : form.Skips gap) :
    Follows (gap ++ rest) (gap.map (Mark.mk .layout)) rest := by
  have hPlain : ∀ t ∈ gap, ∀ ahead, Plain t ahead := fun t ht _ => plain_of_skips h ht
  clear h
  induction gap with
  | nil => exact follows_nil
  | cons t gap ih =>
    have hFirst : Follows (t :: (gap ++ rest)) [⟨.layout, t⟩] (gap ++ rest) :=
      follows_plain (hPlain t (List.mem_cons_self ..) _) rfl (by simp)
    refine hFirst.append ?_ (ih fun u hu => hPlain u (List.mem_cons_of_mem _ hu))
    rw [Marking.written_map rfl]

/-- Two readings with an operator between them. -/
theorem follows_join (hOperator : t.kind.isOperator = true) (hLeft : Follows ts as (t :: between))
    (hBetween : between = written bs ++ rest) (hRight : Follows between bs rest) :
    Follows ts (as ++ ⟨.layout, t⟩ :: bs) rest := by
  have hToken : Follows (t :: between) [⟨.layout, t⟩] between :=
    follows_plain (plain_of_isOperator hOperator) rfl (by simp)
  exact hLeft.append (congrArg (t :: ·) hBetween) (hToken.append hBetween hRight)

/-- An assignment up to its value. -/
theorem follows_assignment {name equals : Token}
    (hStart : startsAssignment name (equals :: ts) = true) (hTs : ts = written ms ++ rest)
    (h : Follows ts ms rest) :
    Follows (name :: equals :: ts) (⟨.literal, name⟩ :: ⟨.equals, equals⟩ :: ms) rest := by
  obtain ⟨hName, -, equals', ts', hCons, hEquals⟩ := Descent.startsAssignment_iff.1 hStart
  obtain ⟨rfl, rfl⟩ := List.cons.inj hCons
  have hFirst : Follows (name :: equals :: ts) [⟨.literal, name⟩] (equals :: ts) :=
    follows_plain (plain_of_kind (by rw [hName]; rfl) (by simp [hName])) rfl (by simp)
  have hSecond : Follows (equals :: ts) [⟨.equals, equals⟩] ts :=
    follows_plain (plain_of_kind (by rw [hEquals]; rfl) (by simp [hEquals])) rfl (by simp)
  exact hFirst.append (congrArg (equals :: ·) hTs) (hSecond.append hTs h)

/-- The painter goes along with everything the parser reads. -/
theorem follows_of_yields {form : Form} {trees : List Tree} (h : Yields form ts trees ms rest) :
    Follows ts ms rest := by
  induction h with
  | literal hOpen hQuote hSubstitution =>
    have hClose := (Descent.atWordEnd_eq_false.1 hOpen).2.2.2.2.2
    exact follows_plain ⟨hQuote, hClose, hSubstitution⟩ rfl (by simp)
  | string hQuote h => exact follows_string h hQuote
  | substitution hDollar hParen hClose h ih =>
    exact follows_substitution hDollar hParen hClose h.tokens ih
  | piecesNil => exact follows_nil
  | piecesCons _ hOthers ihFirst ihOthers => exact ihFirst.append hOthers.tokens ihOthers
  | word _ hOthers ihFirst ihOthers => exact ihFirst.append hOthers.tokens ihOthers
  | assignmentEmpty hStart => exact follows_assignment hStart rfl follows_nil
  | assignment hStart h ih => exact follows_assignment hStart h.tokens ih
  | argument _ _ ih => exact ih
  | skip hGap h ih => exact (follows_gap hGap).append h.tokens ih
  | partsNil => exact follows_nil
  | partsCons _ hOthers ihFirst ihOthers => exact ihFirst.append hOthers.tokens ihOthers
  | command _ hOthers ihFirst ihOthers => exact ihFirst.append hOthers.tokens ihOthers
  | operand _ ih => exact ih
  | pipelineSingle _ ih => exact ih
  | pipelineJoin _ hOperator hRight ihLeft ihRight =>
    exact follows_join (by rw [hOperator]; rfl) ihLeft hRight.tokens ihRight
  | itemSingle _ ih => exact ih
  | itemJoin _ hOperator hRight ihLeft ihRight =>
    refine follows_join ?_ ihLeft hRight.tokens ihRight
    rcases hOperator with hKind | hKind <;> rw [hKind] <;> rfl
  | finish hKind =>
    exact follows_plain (plain_of_kind (by rw [hKind]; rfl) (by simp [hKind])) rfl (by simp)
  | close => exact follows_nil
  | itemsCons _ hOthers ihFirst ihOthers => exact ihFirst.append hOthers.tokens ihOthers
  | sequence _ ih => exact ih

-- ---------------------------------------------------------------------------
-- Lists without a double backslash
-- ---------------------------------------------------------------------------

/-- No two backslashes stand next to each other. -/
def Twinless (ts : List Token) : Prop :=
  ts.IsChain fun t u => ¬ (t.kind = .backslash ∧ u.kind = .backslash)

instance (ts : List Token) : Decidable (Twinless ts) :=
  inferInstanceAs (Decidable (List.IsChain _ _))

theorem Twinless.left {us : List Token} (h : Twinless (ts ++ us)) : Twinless ts :=
  (List.isChain_append.1 h).1

theorem Twinless.right {us : List Token} (h : Twinless (ts ++ us)) : Twinless us :=
  (List.isChain_append.1 h).2.1

theorem Twinless.tail (h : Twinless (t :: ts)) : Twinless ts :=
  List.IsChain.tail h

/-- Without a double backslash no double-quoted string ends in a backslash: one right before
the closing quote would escape it. -/
theorem eq_nil_of_lastKind {quote : Kind} (h : Quoted quote ts parts closer rest)
    (hDouble : quote = .doubleQuote) (hTwins : Twinless parts)
    (hLast : lastKind before parts = some .backslash) :
    parts = [] ∧ before = some .backslash := by
  induction h generalizing before with
  | close => exact ⟨rfl, hLast⟩
  | @escape t u _ _ _ _ _ _ _ hEscape _ ih =>
    rw [lastKind_cons, lastKind_cons] at hLast
    have hu : u.kind = .backslash := Option.some.inj (ih hTwins.tail.tail hLast).2
    have ht : t.kind = .backslash := by
      rw [Production.startsEscape, Bool.and_eq_true, beq_iff_eq] at hEscape
      exact hEscape.1
    exact absurd ⟨ht, hu⟩ (List.isChain_cons_cons.1 hTwins).1
  | @plain t closer more _ _ _ _ hEscape h ih =>
    rw [lastKind_cons] at hLast
    obtain ⟨rfl, ht⟩ := ih hTwins.tail hLast
    have hMore : more.head?.map (·.kind) = some .doubleQuote := by
      rw [h.eq_append, ← hDouble, ← h.closer_kind]
      rfl
    exact absurd ⟨hDouble, by simp [Production.startsEscape, Option.some.inj ht, hMore]⟩ hEscape

/-- Unless there is a double backslash, no quote hides, and the last token is not within a
string. -/
def Tidy (ms : List Mark) : Prop :=
  Twinless (written ms) → Unhidden ms ∧ ∀ m ∈ ms.getLast?, m.role ≠ .quoted

theorem Tidy.append (h : Tidy as) (h' : Tidy bs) : Tidy (as ++ bs) := by
  intro hTwins
  rw [Marking.written_append] at hTwins
  obtain ⟨hLeft, hLast⟩ := h hTwins.left
  obtain ⟨hRight, hLast'⟩ := h' hTwins.right
  -- Nothing hides across the seam, because the first stretch does not end within a string.
  refine ⟨List.isChain_append.2 ⟨hLeft, hRight, fun m hm _ _ hHides => hLast m hm hHides.1⟩, ?_⟩
  rw [List.getLast?_append]
  cases hBs : bs.getLast? with
  | none => simpa using hLast
  | some m => simpa using hLast' m hBs

/-- Tokens outside of strings. -/
theorem tidy_of_role (h : ∀ m ∈ ms, m.role.isInString = false) : Tidy ms := by
  refine fun _ => ⟨unhidden_of_role fun m hm hRole => ?_, fun m hm hRole => ?_⟩
  · simpa [hRole, Role.isInString] using h m hm
  · simpa [hRole, Role.isInString] using h m (List.mem_of_getLast? hm)

theorem tidy_string (h : Quoted opener.kind ts parts closer rest) :
    Tidy (⟨.quote, opener⟩ :: inside opener parts ++ [⟨.quote, closer⟩]) := by
  intro hTwins
  have hParts : Twinless parts := by
    have hFront : Twinless (opener :: written (inside opener parts)) :=
      Twinless.left (Marking.written_append .. ▸ hTwins)
    rw [Marking.written_inside] at hFront
    exact hFront.tail
  refine ⟨(unhidden_string_iff h.closer_kind).2 fun ⟨hDouble, hLast⟩ => ?_, ?_⟩
  · cases (eq_nil_of_lastKind h hDouble hParts hLast).2
  · rw [List.getLast?_concat]
    simp

/-- Where no two backslashes stand next to each other, no quote hides. -/
theorem tidy_of_yields {form : Form} {trees : List Tree} (h : Yields form ts trees ms rest) :
    Tidy ms := by
  have hLayout (t : Token) : Tidy [⟨.layout, t⟩] := tidy_of_role (by simp [Role.isInString])
  have hBracket (t : Token) : Tidy [⟨.bracket, t⟩] := tidy_of_role (by simp [Role.isInString])
  have hAssignment (t u : Token) : Tidy [⟨.literal, t⟩, ⟨.equals, u⟩] :=
    tidy_of_role (by simp [Role.isInString])
  have hNil : Tidy [] := tidy_of_role (by simp)
  induction h with
  | literal => exact tidy_of_role (by simp [Role.isInString])
  | string _ h => exact tidy_string h
  | substitution _ _ _ _ ih =>
    exact (hBracket _).append ((hBracket _).append (ih.append (hBracket _)))
  | piecesNil => exact hNil
  | piecesCons _ _ ihFirst ihOthers => exact ihFirst.append ihOthers
  | word _ _ ihFirst ihOthers => exact ihFirst.append ihOthers
  | assignmentEmpty => exact hAssignment _ _
  | assignment _ _ ih => exact (hAssignment _ _).append ih
  | argument _ _ ih => exact ih
  | skip _ _ ih => exact (tidy_of_role (by simp [Role.isInString])).append ih
  | partsNil => exact hNil
  | partsCons _ _ ihFirst ihOthers => exact ihFirst.append ihOthers
  | command _ _ ihFirst ihOthers => exact ihFirst.append ihOthers
  | operand _ ih => exact ih
  | pipelineSingle _ ih => exact ih
  | pipelineJoin _ _ _ ihLeft ihRight => exact ihLeft.append ((hLayout _).append ihRight)
  | itemSingle _ ih => exact ih
  | itemJoin _ _ _ ihLeft ihRight => exact ihLeft.append ((hLayout _).append ihRight)
  | finish => exact hLayout _
  | close => exact hNil
  | itemsCons _ _ ihFirst ihOthers => exact ihFirst.append ihOthers
  | sequence _ ih => exact ih

-- ---------------------------------------------------------------------------
-- Lines
-- ---------------------------------------------------------------------------

/-- The marks of the tokens that have a fragment: all but the end. -/
def shown (ms : List Mark) : List Mark :=
  (placed ms).filter fun m => m.token.kind ≠ .endOfInput

/-- The fragment shows the token, in a style as `S` says. -/
def Shows (S : Mark → String → Prop) (m : Mark) (f : Fragment) : Prop :=
  f.text = m.token.text ∧ S m f.style

variable {S : Mark → String → Prop}

/-- The fragments of the tokens that were painted. -/
theorem Paints.shows (h : Paints R [] b ms b') (hS : ∀ m g, R m g → S m g.style)
    (hEnd : (written ms).Pairwise fun t _ => t.kind ≠ .endOfInput)
    (hText : ∀ t ∈ written ms, t.kind ≠ .endOfInput → t.text ≠ []) :
    List.Forall₂ (Shows S) (shown ms) (b.painter.paint b.before (written ms)) := by
  induction h with
  | nil => exact .nil
  | @madeUp _ _ m ms hMadeUp _ ih =>
    have hTokens : written (m :: ms) = written ms := by simp [hMadeUp]
    have hShown : shown (m :: ms) = shown ms := by simp [shown, placed, hMadeUp]
    rw [hTokens] at hEnd hText ⊢
    rw [hShown]
    exact ih hEnd hText
  | @token b _ m ms hWritten hGroup _ ih =>
    have hTokens : written (m :: ms) = m.token :: written ms := by simp [hWritten]
    have hPlaced : placed (m :: ms) = m :: placed ms := by simp [placed, hWritten]
    rw [hTokens] at hEnd hText ⊢
    rw [List.pairwise_cons] at hEnd
    rw [shown, hPlaced]
    by_cases hKind : m.token.kind = .endOfInput
    · -- Nothing is behind the end.
      have hRest : (placed ms).map (·.token) = [] :=
        List.eq_nil_iff_forall_not_mem.2 fun t ht => hEnd.1 t ht hKind
      have hWritten : written ms = [] := hRest
      rw [List.map_eq_nil_iff.1 hRest, hWritten, Painter.paint, if_pos (.inl hKind)]
      simp [hKind, Painter.paint]
    · have hSome := hText _ (List.mem_cons_self ..) hKind
      rw [List.append_nil] at hGroup ih
      rw [List.filter_cons_of_pos (by simpa using hKind), Painter.paint,
        if_neg (by simp [hKind, hSome])]
      exact .cons ⟨rfl, hS m _ hGroup⟩ (ih hEnd.2 fun t ht => hText t (List.mem_cons_of_mem _ ht))

/-- A list that is read to its end. -/
theorem written_of_yields {form : Form} {trees : List Tree} (h : Yields form ts trees ms []) :
    written ms = ts := by
  rw [h.tokens, List.append_nil]

/-- The end on its own has no tree. -/
theorem parseTokens_end_ne_ok {limit : Int} {tree : Tree} (hKind : t.kind = .endOfInput) :
    parseTokens [t] limit ≠ .ok tree := by
  intro h
  obtain ⟨r, hSequence, -⟩ := Descent.parseTokens_eq_ok_iff.1 (parseTokens_eq_ok_iff.1 h)
  rw [Descent.sequence, Descent.items.eq_def] at hSequence
  obtain ⟨_, -, hItems⟩ := Descent.bind_ok.1 hSequence
  simp [Token.startsContinuation, hKind, Kind.isSeparator, Kind.isOperator] at hItems

/-- The fragments of the line are those of the blanks around it and those of its tokens, one for
each but the end, and each token has a style as `S` says. -/
def LineShows (text : Text) (marks : List Mark) (S : Mark → String → Prop) : Prop :=
  ∃ fragments, List.Forall₂ (Shows S) (shown marks) fragments ∧
    line text = gap (text.take text.lead) ++ fragments ++
      gap (text.drop (text.lead + text.core.length))

theorem lineShows_of_paints {text : Text} {limit : Int} {tree : Tree} {marks : List Mark}
    (h : parse text limit = .ok tree)
    (hYields : Yields (.sequence false) (tokenize text) [tree] marks [])
    (hPaints : Paints R [] {} marks b') (hS : ∀ m g, R m g → S m g.style) :
    LineShows text marks S := by
  have hWritten := written_of_yields hYields
  obtain ⟨body, last, hTokens, hLast, ⟨hFits, -⟩, -⟩ := tokenize_sound text
  have hKind : last.kind = .endOfInput := congrArg Prod.fst hLast
  have hBody : ∀ t ∈ body, t.kind ≠ .endOfInput ∧ t.text ≠ [] := by
    intro t ht
    refine ⟨fun hEnd => ?_, Token.ne_nil_of_fits (hFits t ht)⟩
    have hNone := hFits t ht
    rw [hEnd] at hNone
    cases hNone
  have hFragments := hPaints.shows hS ?_ ?_
  · refine ⟨_, hFragments, ?_⟩
    rw [hWritten, line]
    obtain _ | ⟨t, more⟩ := body
    · rw [parse, hTokens] at h
      exact absurd h (parseTokens_end_ne_ok hKind)
    · obtain ⟨hEnd, hText⟩ := hBody t (List.mem_cons_self ..)
      rw [hTokens, List.cons_append, Painter.paint, if_neg (by simp [hEnd, hText])]
  · rw [hWritten, hTokens, List.pairwise_append]
    refine ⟨List.pairwise_of_forall_mem_list fun t ht _ _ => (hBody t ht).1,
      List.pairwise_singleton .., fun t ht _ _ => (hBody t ht).1⟩
  · rw [hWritten, hTokens]
    intro t ht hEnd
    rcases List.mem_append.1 ht with ht | ht
    · exact (hBody t ht).2
    · exact absurd (List.mem_singleton.1 ht ▸ hKind) hEnd

/-- A line that the parser reads in a way that hides no quote. -/
theorem lineShows_of_unhidden {text : Text} {limit : Int} {tree : Tree} {marks : List Mark}
    (h : parse text limit = .ok tree)
    (hYields : Yields (.sequence false) (tokenize text) [tree] marks [])
    (hUnhidden : Unhidden marks) (hS : ∀ m g, Agrees m g → S m g.style) :
    LineShows text marks S := by
  obtain ⟨b', hPaints, -⟩ := follows_of_yields hYields hUnhidden 0 {} ready_start
  exact lineShows_of_paints h hYields hPaints hS

/-- **Strings.** The parser reads a line in a way that says of every token whether it is in a
string, and if it does so without a quote that hides behind a backslash, the tokens that are
painted as strings are just those. -/
theorem line_strings {text : Text} {limit : Int} {tree : Tree}
    (h : parse text limit = .ok tree) :
    (∃ marks, Yields (.sequence false) (tokenize text) [tree] marks []) ∧
      ∀ marks, Yields (.sequence false) (tokenize text) [tree] marks [] → Unhidden marks →
        LineShows text marks fun m style =>
          style = Group.string.style ↔ m.role.isInString = true := by
  refine ⟨Marking.yields_of_parseTokens h, fun marks hYields hUnhidden => ?_⟩
  refine lineShows_of_unhidden h hYields hUnhidden fun m g hAgrees => ?_
  rw [← hAgrees.1, Group.style_injective.eq_iff]

/-- An escaped quote, a backslash between single quotes and a string in a substitution. -/
theorem line_strings_escaped_quote :
    ∃ tree marks, parse "\"a\\\"\"'\\' $(b \"c\")".toList 9 = .ok tree ∧
      Yields (.sequence false) (tokenize "\"a\\\"\"'\\' $(b \"c\")".toList) [tree] marks [] ∧
      Unhidden marks ∧
      LineShows "\"a\\\"\"'\\' $(b \"c\")".toList marks fun m style =>
        style = Group.string.style ↔ m.role.isInString = true := by
  have hParse : (parse "\"a\\\"\"'\\' $(b \"c\")".toList 9).map (fun _ => ()) = .ok () := by cbv
  obtain ⟨tree, hTree, -⟩ := Marking.exists_tree_of_map hParse
  obtain ⟨⟨marks, hYields⟩, hShows⟩ := line_strings hTree
  have hUnhidden := (tidy_of_yields hYields (written_of_yields hYields ▸ by decide)).1
  exact ⟨tree, marks, hTree, hYields, hUnhidden, hShows marks hYields hUnhidden⟩

/-- A quote hidden behind a backslash that is itself escaped: the parser closes the string there,
the painter goes on with it. -/
theorem line_strings_hidden_quote :
    ∃ tree marks, parse "\"\\\\\" a".toList 9 = .ok tree ∧
      Yields (.sequence false) (tokenize "\"\\\\\" a".toList) [tree] marks [] ∧
      ¬ LineShows "\"\\\\\" a".toList marks fun m style =>
        style = Group.string.style ↔ m.role.isInString = true := by
  have hTokens : tokenize "\"\\\\\" a".toList = [⟨.doubleQuote, ['\x22'], 0⟩,
      ⟨.backslash, ['\\'], 1⟩, ⟨.backslash, ['\\'], 2⟩, ⟨.doubleQuote, ['\x22'], 3⟩,
      ⟨.space, [' '], 4⟩, ⟨.word, ['a'], 5⟩, ⟨.endOfInput, [], 6⟩] := by decide
  have hSpace : Form.parts.Skips [⟨.space, [' '], 4⟩] := Gap.space (.inl rfl) rfl
  refine ⟨?tree, ?marks, ?parse, ?yields, ?shows⟩
  case yields =>
    rw [hTokens]
    refine .sequence (.itemsCons (.itemSingle (.pipelineSingle (.operand (.command
      (.argument ?_ (.word (.string ?_ (.escape ?_ ?_ ?_ ?_ (.close ?_ ?_))) (.piecesNil ?_)))
      (.skip hSpace (.partsCons (.argument ?_ (.word (.literal ?_ ?_ ?_) (.piecesNil ?_)))
        (.partsNil ?_))))))) (.finish ?_))
    all_goals decide
  case parse => cbv
  case shows =>
    rintro ⟨fragments, hShows, hLine⟩
    have hFragments : line "\"\\\\\" a".toList = fragments :=
      hLine.trans (List.append_nil fragments)
    subst hFragments
    have hLast := (List.forall₂_iff_get.1 hShows).2 5 (by decide) (by decide)
    have hStyle : Role.isInString .literal = true := hLast.2.1 (by decide)
    cases hStyle

/-- **Substitutions.** In a line without a double backslash, the tokens that are painted as
brackets are those that the parser takes for brackets of substitutions, and the backticks
outside of strings. -/
theorem line_substitutions {text : Text} {limit : Int} {tree : Tree}
    (h : parse text limit = .ok tree) (hTwins : Twinless (tokenize text)) :
    (∃ marks, Yields (.sequence false) (tokenize text) [tree] marks []) ∧
      ∀ marks, Yields (.sequence false) (tokenize text) [tree] marks [] →
        LineShows text marks fun m style =>
          style = Group.substitution.style ↔
            m.role = .bracket ∨ (m.token.kind = .backtick ∧ m.role.isInString = false) := by
  refine ⟨Marking.yields_of_parseTokens h, fun marks hYields => ?_⟩
  have hWritten := written_of_yields hYields
  have hUnhidden := (tidy_of_yields hYields (hWritten ▸ hTwins)).1
  refine lineShows_of_unhidden h hYields hUnhidden fun m g hAgrees => ?_
  rw [← hAgrees.2, Group.style_injective.eq_iff]

/-- Literal parentheses and those of a string, a `$` in front of a substitution, one substitution
in another, and backticks. -/
theorem line_substitutions_parentheses :
    ∃ tree marks, parse "a=$(b ( $$(c \")\")) `d`".toList 19 = .ok tree ∧
      Twinless (tokenize "a=$(b ( $$(c \")\")) `d`".toList) ∧
      Yields (.sequence false) (tokenize "a=$(b ( $$(c \")\")) `d`".toList) [tree] marks [] ∧
      LineShows "a=$(b ( $$(c \")\")) `d`".toList marks fun m style =>
        style = Group.substitution.style ↔
          m.role = .bracket ∨ (m.token.kind = .backtick ∧ m.role.isInString = false) := by
  have hParse : (parse "a=$(b ( $$(c \")\")) `d`".toList 19).map (fun _ => ()) = .ok () := by cbv
  obtain ⟨tree, hTree, -⟩ := Marking.exists_tree_of_map hParse
  have hTwins : Twinless (tokenize "a=$(b ( $$(c \")\")) `d`".toList) := by decide
  obtain ⟨⟨marks, hYields⟩, hShows⟩ := line_substitutions hTree hTwins
  exact ⟨tree, marks, hTree, hTwins, hYields, hShows marks hYields⟩

end ShellReader.Highlight
