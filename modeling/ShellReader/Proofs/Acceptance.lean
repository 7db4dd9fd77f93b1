import ShellReader.Proofs.Layout
import ShellReader.Proofs.Levels

/-!
# ShellReader — what is accepted

A token list can be read, under some limit, when its strings are closed, its brackets
match and in every level the operators stand between commands.

`Accepts outer s ts` says that of the tokens before the end, seen from inside a level at
stage `s` with levels at the stages `outer` around it. What the grammar reads is
accepted, rule by rule (`Reads.accepted`), and what is accepted is read by the grammar
if the limit leaves room for as many productions as the tokens can open.

## Results

* `Reads.accepted` — what the grammar reads is accepted.
* `sequence_accepted` — what is accepted is read by the grammar.
* `parseTokens_ok_iff` — exactly the accepted lists have a tree under some limit.
-/

namespace ShellReader

namespace Grammar

open Token (Kind)
open Production (startsAssignment atWordEnd startsEscape)
open Descent (Item startsSubstitution)

variable {limit : Int} {rule : Rule} {depth : Nat} {ts rest more : List Token}
  {ps : List Phrase} {t u : Token} {outer : List Stage} {s : Stage} {k : Kind}

-- ---------------------------------------------------------------------------
-- Strings
-- ---------------------------------------------------------------------------

/-- The kinds of the tokens before the end. -/
def kinds (ts : List Token) : List Kind := (ts.map (·.kind)).takeWhile (· ≠ .endOfInput)

theorem kinds_cons (h : t.kind ≠ .endOfInput) : kinds (t :: more) = t.kind :: kinds more := by
  simp [kinds, h]

theorem kinds_end (h : t.kind = .endOfInput) : kinds (t :: more) = [] := by
  simp [kinds, h]

theorem head?_kinds (h : k ≠ .endOfInput) :
    (kinds ts).head? = some k ↔ ts.head?.map (·.kind) = some k := by
  cases ts with
  | nil => rfl
  | cons t more =>
    by_cases hEnd : t.kind = .endOfInput
    · simp [kinds_end hEnd, hEnd, h.symm]
    · simp [kinds_cons hEnd]

theorem startsEscape_cons {next : Token} : startsEscape t (next :: more) = true ↔
    t.kind = .backslash ∧ (next.kind = .doubleQuote ∨ next.kind = .backslash) := by
  simp [startsEscape]

/-- Between double quotes, a token behind a backslash may be hidden. -/
theorem closeStrings_escape {next : Token} (h : startsEscape t (next :: more) = true) :
    closeStrings (some .doubleQuote) (kinds (t :: next :: more)) =
      closeStrings (some .doubleQuote) (kinds more) := by
  obtain ⟨hKind, hNext | hNext⟩ := startsEscape_cons.1 h
  · rw [kinds_cons (by simp [hKind]), kinds_cons (by simp [hNext]), hKind, hNext, closeStrings]
  · rw [kinds_cons (by simp [hKind]), kinds_cons (by simp [hNext]), hKind, hNext, closeStrings]

/-- Any other token of a string closes it or leaves it open. -/
theorem closeStrings_plain {quote : Kind} (hEnd : t.kind ≠ .endOfInput)
    (hEscape : ¬ (quote = .doubleQuote ∧ startsEscape t more = true)) :
    closeStrings (some quote) (kinds (t :: more)) =
      closeStrings (if t.kind = quote then none else some quote) (kinds more) := by
  have hHidden : ∀ k rest, k = .doubleQuote ∨ k = .backslash → quote = .doubleQuote →
      t.kind = .backslash → kinds more ≠ k :: rest := by
    intro k rest hk hQuote hKind hKinds
    have hHead : more.head?.map (·.kind) = some k :=
      (head?_kinds (by rcases hk with rfl | rfl <;> simp)).1 (by rw [hKinds]; rfl)
    exact hEscape ⟨hQuote, by rcases hk with rfl | rfl <;> simp [startsEscape, hKind, hHead]⟩
  rw [kinds_cons hEnd, closeStrings]
  · exact fun rest => hHidden _ rest (.inl rfl)
  · exact fun rest => hHidden _ rest (.inr rfl)

/-- A string that the grammar finds is closed where it finds the end. -/
theorem Quoted.closeStrings {opener : Kind} {parts : List Token} {closer : Token}
    (h : Quoted opener ts parts closer rest) :
    closeStrings (some opener) (kinds ts) = closeStrings none (kinds rest) := by
  induction h with
  | @close t more hEnd hClose =>
    have hEscape : ¬ (opener = .doubleQuote ∧ startsEscape t more = true) := by
      rintro ⟨hOpener, hEscape⟩
      simp [startsEscape, hClose, hOpener] at hEscape
    rw [closeStrings_plain hEnd hEscape, if_pos hClose]
  | escape hEnd hClose hOpener hEscape _ ih =>
    subst hOpener
    rw [closeStrings_escape hEscape, ih]
  | plain hEnd hClose hEscape _ ih => rw [closeStrings_plain hEnd hEscape, if_neg hClose, ih]

/-- A string that is closed is found by the grammar. -/
theorem quoted_of_closeStrings {quote : Kind} {flat : List Kind}
    (h : closeStrings (some quote) (kinds ts) = some flat) :
    ∃ parts closer rest, Quoted quote ts parts closer rest := by
  obtain ⟨size, hSize⟩ : ∃ size, ts.length = size := ⟨_, rfl⟩
  induction size using Nat.strongRecOn generalizing ts with
  | ind size ih =>
    cases ts with
    | nil => cases h
    | cons t more =>
      rw [List.length_cons] at hSize
      by_cases hEnd : t.kind = .endOfInput
      · rw [kinds_end hEnd] at h
        cases h
      by_cases hClose : t.kind = quote
      · exact ⟨[], t, more, .close hEnd hClose⟩
      by_cases hEscape : quote = .doubleQuote ∧ startsEscape t more = true
      · obtain ⟨rfl, hStart⟩ := hEscape
        cases more with
        | nil => simp [startsEscape] at hStart
        | cons next more =>
          rw [closeStrings_escape hStart] at h
          rw [List.length_cons] at hSize
          obtain ⟨parts, closer, rest, hQuoted⟩ := ih more.length (by omega) h rfl
          exact ⟨t :: next :: parts, closer, rest, .escape hEnd hClose rfl hStart hQuoted⟩
      · rw [closeStrings_plain hEnd hEscape, if_neg hClose] at h
        obtain ⟨parts, closer, rest, hQuoted⟩ := ih more.length (by omega) h rfl
        exact ⟨t :: parts, closer, rest, .plain hEnd hClose hEscape hQuoted⟩

-- ---------------------------------------------------------------------------
-- One token after the other
-- ---------------------------------------------------------------------------

/-- The strings before the end are closed, and the pass over the levels accepts. -/
def Accepts (outer : List Stage) (s : Stage) (ts : List Token) : Prop :=
  ∃ flat, closeStrings none (kinds ts) = some flat ∧ accepts outer s flat = true

/-- The token in front stays in front unless it opens a string. -/
theorem head?_closeStrings {ks flat : List Kind} (h : closeStrings none ks = some flat)
    (hQuote : k.isQuote = false) (hWord : k ≠ .word) :
    flat.head? = some k ↔ ks.head? = some k := by
  cases ks with
  | nil =>
    obtain rfl := Option.some.inj h
    rfl
  | cons first ks =>
    rw [closeStrings] at h
    by_cases hFirst : first.isQuote = true
    · rw [if_pos hFirst] at h
      obtain ⟨flat, -, rfl⟩ := Option.map_eq_some_iff.1 h
      have hNe : first ≠ k := by
        rintro rfl
        rw [hFirst] at hQuote
        cases hQuote
      simp [hWord.symm, hNe]
    · rw [if_neg hFirst] at h
      obtain ⟨flat, -, rfl⟩ := Option.map_eq_some_iff.1 h
      simp

theorem accepts_end (h : t.kind = .endOfInput) :
    Accepts outer s (t :: more) ↔ outer = [] ∧ s.done = true := by
  rw [Accepts, kinds_end h]
  cases outer <;> simp [closeStrings, accepts]

/-- A token outside strings that opens none. -/
theorem accepts_cons (hEnd : t.kind ≠ .endOfInput) (hQuote : t.kind.isQuote = false) :
    Accepts outer s (t :: more) ↔
      ∃ flat, closeStrings none (kinds more) = some flat ∧
        accepts outer s (t.kind :: flat) = true := by
  rw [Accepts, kinds_cons hEnd, closeStrings, hQuote]
  simp

theorem accepts_space (h : t.kind = .space) :
    Accepts outer s (t :: more) ↔ Accepts outer s more := by
  rw [accepts_cons (by simp [h]) (by rw [h]; rfl), Accepts]
  simp only [h, accepts]

theorem accepts_continuation (h : t.kind = .backslash) (hNewline : u.kind = .newline) :
    Accepts outer s (t :: u :: more) ↔ Accepts outer s more := by
  rw [accepts_cons (by simp [h]) (by rw [h]; rfl), Accepts, kinds_cons (by simp [hNewline]),
    closeStrings, hNewline]
  simp [Kind.isQuote, h, accepts]

theorem accepts_open (h : t.kind = .dollar) (hParen : u.kind = .leftParenthesis) :
    Accepts outer s (t :: u :: more) ↔ Accepts (s :: outer) .fresh more := by
  rw [accepts_cons (by simp [h]) (by rw [h]; rfl), Accepts, kinds_cons (by simp [hParen]),
    closeStrings, hParen]
  simp [Kind.isQuote, h, accepts]

theorem accepts_close (h : t.kind = .rightParenthesis) :
    Accepts outer s (t :: more) ↔ ∃ above outer', outer = above :: outer' ∧ s.done = true ∧
      Accepts outer' (above.step .word) more := by
  rw [accepts_cons (by simp [h]) (by rw [h]; rfl)]
  cases outer with
  | nil => simp [h, accepts]
  | cons above outer =>
    simp only [h, accepts, Bool.and_eq_true, Accepts]
    constructor
    · rintro ⟨flat, hFlat, hDone, hRest⟩
      exact ⟨above, outer, rfl, hDone, flat, hFlat, hRest⟩
    · rintro ⟨_, _, hOuter, hDone, flat, hFlat, hRest⟩
      obtain ⟨rfl, rfl⟩ := List.cons.inj hOuter
      exact ⟨flat, hFlat, hDone, hRest⟩

/-- A token that is none of those belongs to its level. -/
theorem accepts_step (hEnd : t.kind ≠ .endOfInput) (hQuote : t.kind.isQuote = false)
    (hSpace : t.kind ≠ .space) (hContinuation : Token.startsContinuation (t :: more) = false)
    (hClose : t.kind ≠ .rightParenthesis) (hOpen : startsSubstitution t more = false) :
    Accepts outer s (t :: more) ↔ Accepts outer (s.step t.kind) more := by
  rw [accepts_cons hEnd hQuote, Accepts]
  refine exists_congr fun flat => and_congr_right fun hFlat => ?_
  have hFront : ∀ k : Kind, k.isQuote = false → k ≠ .word → k ≠ .endOfInput →
      flat.head? = some k → more.head?.map (·.kind) = some k := by
    intro k hQuote hWord hEnd hHead
    exact (head?_kinds hEnd).1 ((head?_closeStrings hFlat hQuote hWord).1 hHead)
  rw [accepts]
  · rintro rest hKind rfl
    have hParen := hFront .leftParenthesis rfl (by simp) (by simp) rfl
    simp [startsSubstitution, hKind, hParen] at hOpen
  · rintro rest hKind rfl
    have hNewline := hFront .newline rfl (by simp) (by simp) rfl
    simp [Descent.startsContinuation_cons, hKind, hNewline] at hContinuation
  · exact hSpace
  · exact fun _ => hClose
  · exact fun _ _ _ => hClose

theorem ne_end_of_isQuote (h : k.isQuote = true) : k ≠ .endOfInput := by
  rintro rfl
  cases h

/-- A quote opens a string that is closed. -/
theorem quoted_of_accepts (hQuote : t.kind.isQuote = true) (h : Accepts outer s (t :: more)) :
    ∃ parts closer rest, Quoted t.kind more parts closer rest := by
  obtain ⟨flat, hFlat, -⟩ := h
  rw [kinds_cons (ne_end_of_isQuote hQuote), closeStrings, if_pos hQuote] at hFlat
  obtain ⟨inside, hInside, -⟩ := Option.map_eq_some_iff.1 hFlat
  exact quoted_of_closeStrings hInside

/-- A string is one word. -/
theorem accepts_string {parts : List Token} {closer : Token} (hQuote : t.kind.isQuote = true)
    (h : Quoted t.kind more parts closer rest) :
    Accepts outer s (t :: more) ↔ Accepts outer (s.step .word) rest := by
  rw [Accepts, Accepts, kinds_cons (ne_end_of_isQuote hQuote), closeStrings, if_pos hQuote,
    h.closeStrings]
  constructor
  · rintro ⟨flat, hFlat, hAccepts⟩
    obtain ⟨flat, hRest, rfl⟩ := Option.map_eq_some_iff.1 hFlat
    exact ⟨flat, hRest, by simpa [accepts] using hAccepts⟩
  · rintro ⟨flat, hRest, hAccepts⟩
    exact ⟨.word :: flat, by rw [hRest]; rfl, by simpa [accepts] using hAccepts⟩

theorem Accepts.ne_failed (h : Accepts outer s ts) : s ≠ .failed := by
  obtain ⟨flat, -, hAccepts⟩ := h
  rintro rfl
  exact failed_notMem_of_accepts hAccepts List.mem_cons_self

/-- A token that is a piece of a word leads into a command. -/
theorem accepts_literal (hs : s ≠ .failed) (hOpen : atWordEnd t more = false)
    (hQuote : t.kind.isQuote = false) (hSubstitution : startsSubstitution t more = false) :
    Accepts outer s (t :: more) ↔ Accepts outer .command more := by
  obtain ⟨hSpace, hContinuation, hSeparator, hOperator, hEnd, hClose⟩ :=
    Descent.atWordEnd_eq_false.1 hOpen
  rw [accepts_step hEnd hQuote hSpace hContinuation hClose hSubstitution,
    Stage.step_of_not_divides hs (by simp [divides, hSeparator, hOperator])]

/-- A name and an `=` lead into a command. -/
theorem accepts_assignment {name equals : Token} (hs : s ≠ .failed)
    (h : startsAssignment name (equals :: more) = true) :
    Accepts outer s (name :: equals :: more) ↔ Accepts outer .command more := by
  obtain ⟨hName, -, _, _, hMore, hEquals⟩ := Descent.startsAssignment_iff.1 h
  obtain ⟨rfl, rfl⟩ := List.cons.inj hMore
  have hWord : ∀ (t : Token) (more : List Token), t.kind = .word ∨ t.kind = .equals →
      atWordEnd t more = false ∧ t.kind.isQuote = false ∧ startsSubstitution t more = false := by
    rintro t more (hKind | hKind) <;>
    · rw [Descent.atWordEnd_eq_false, startsSubstitution, hKind]
      simp [Descent.startsContinuation_of_ne, hKind, Kind.isSeparator, Kind.isOperator,
        Kind.isQuote]
  obtain ⟨hOpen, hQuote, hSubstitution⟩ := hWord name (equals :: more) (.inl hName)
  rw [accepts_literal hs hOpen hQuote hSubstitution]
  obtain ⟨hOpen, hQuote, hSubstitution⟩ := hWord equals more (.inr hEquals)
  rw [accepts_literal (by simp) hOpen hQuote hSubstitution]

theorem accepts_separator (h : t.kind.isSeparator = true) :
    Accepts outer s (t :: more) ↔ Accepts outer (s.step t.kind) more := by
  obtain ⟨hSpace, hContinuation⟩ := Descent.of_isSeparator more h
  have hOther : t.kind ≠ .endOfInput ∧ t.kind.isQuote = false ∧ t.kind ≠ .rightParenthesis ∧
      startsSubstitution t more = false := by
    rw [startsSubstitution]
    by_cases hNewline : t.kind = .newline
    · simp [hNewline, Kind.isQuote]
    · simp [Descent.eq_semicolon h hNewline, Kind.isQuote]
  exact accepts_step hOther.1 hOther.2.1 hSpace hContinuation hOther.2.2.1 hOther.2.2.2

theorem accepts_operator (h : t.kind.isOperator = true) :
    Accepts outer s (t :: more) ↔ Accepts outer (s.step t.kind) more := by
  obtain ⟨hSpace, hContinuation, -⟩ := Descent.of_isOperator more h
  have hOther : t.kind ≠ .endOfInput ∧ t.kind.isQuote = false ∧ t.kind ≠ .rightParenthesis ∧
      startsSubstitution t more = false := by
    rw [startsSubstitution]
    rcases Descent.eq_of_isOperator h with hKind | hKind | hKind <;> simp [hKind, Kind.isQuote]
  exact accepts_step hOther.1 hOther.2.1 hSpace hContinuation hOther.2.2.1 hOther.2.2.2

-- ---------------------------------------------------------------------------
-- What the grammar reads is accepted
-- ---------------------------------------------------------------------------

/-- Whatever a sequence may end with, the rest is accepted. The outermost sequence is
read to the end. -/
def Continues (nested : Bool) (outer : List Stage) (rest : List Token) : Prop :=
  if nested then ∀ s : Stage, s.done = true → Accepts outer s rest else outer = []

/-- What was read is accepted before a rest that is. -/
def Accepted : Rule → List Token → List Phrase → List Token → Prop
  | .piece _, ts, _, rest | .word _, ts, _, rest | .part, ts, _, rest | .command, ts, _, rest =>
    ∀ outer s, s ≠ .failed → Accepts outer .command rest → Accepts outer s ts
  | .pieces _, ts, _, rest | .parts, ts, _, rest | .chain _ _, ts, _, rest =>
    ∀ outer, Accepts outer .command rest → Accepts outer .command ts
  | .operand, ts, _, rest =>
    ∀ outer, Accepts outer .command rest → Accepts outer .awaiting ts
  | .items nested, ts, ps, rest => ∀ outer s, s ≠ .failed → s ≠ .awaiting →
    ps ≠ [] ∨ s ≠ .fresh → Continues nested outer rest → Accepts outer s ts
  | .sequence nested, ts, _, rest =>
    ∀ outer, Continues nested outer rest → Accepts outer .fresh ts

/-- What is accepted at the same stages may stand in its place. -/
theorem Accepted.mono {us : List Token} (h : Accepted rule ts ps rest)
    (hTokens : ∀ outer s, Accepts outer s ts → Accepts outer s us) :
    Accepted rule us ps rest := by
  cases rule with
  | piece | word | part | command =>
    exact fun outer s hs hRest => hTokens outer s (h outer s hs hRest)
  | pieces | parts | chain | operand | sequence =>
    exact fun outer hRest => hTokens outer _ (h outer hRest)
  | items nested =>
    exact fun outer s hFailed hAwaiting hItem hRest =>
      hTokens outer s (h outer s hFailed hAwaiting hItem hRest)

theorem Reads.accepted (h : Reads limit rule depth ts ps rest) : Accepted rule ts ps rest := by
  induction h with
  | literal hOpen hQuote hSubstitution =>
    intro outer s hs hRest
    exact (accepts_literal hs hOpen hQuote hSubstitution).2 hRest
  | string hQuote _ hQuoted =>
    intro outer s hs hRest
    rw [accepts_string hQuote hQuoted, Stage.step_of_not_divides hs rfl]
    exact hRest
  | substitution hDollar hParen _ _ hClose ih =>
    intro outer s hs hRest
    refine (accepts_open hDollar hParen).2 (ih (s :: outer) fun inner hDone => ?_)
    refine (accepts_close hClose).2 ⟨s, outer, rfl, hDone, ?_⟩
    rw [Stage.step_of_not_divides hs rfl]
    exact hRest
  | piecesNil => exact fun outer hRest => hRest
  | piecesCons _ _ ihFirst ihOthers =>
    exact fun outer hRest => ihFirst outer .command (by simp) (ihOthers outer hRest)
  | word _ _ _ ihFirst ihOthers =>
    exact fun outer s hs hRest => ihFirst outer s hs (ihOthers outer hRest)
  | assignmentEmpty hStart _ _ =>
    intro outer s hs hRest
    exact (accepts_assignment hs hStart).2 hRest
  | assignment hStart _ _ ih =>
    intro outer s hs hRest
    exact (accepts_assignment hs hStart).2 (ih outer .command (by simp) hRest)
  | argument _ _ ih => exact ih
  | skip hGap _ ih =>
    cases hGap with
    | space _ h => exact ih.mono fun outer s => (accepts_space h).2
    | continuation _ h hNewline =>
      exact ih.mono fun outer s => (accepts_continuation h hNewline).2
    | newline h =>
      intro outer hRest
      refine (accepts_separator (by rw [h]; rfl)).2 ?_
      rw [h]
      exact ih outer hRest
    | separator h =>
      intro outer s hFailed hAwaiting hItem hRest
      refine (accepts_separator h).2 ?_
      rw [Stage.step_separator h hAwaiting]
      by_cases hCommand : s = .command
      · rw [if_pos hCommand]
        exact ih outer .between (by simp) (by simp) (.inr (by simp)) hRest
      · rw [if_neg hCommand]
        exact ih outer s hFailed hAwaiting hItem hRest
  | partsNil => exact fun outer hRest => hRest
  | partsCons _ _ ihFirst ihOthers =>
    exact fun outer hRest => ihFirst outer .command (by simp) (ihOthers outer hRest)
  | command _ _ _ ihFirst ihOthers =>
    exact fun outer s hs hRest => ihFirst outer s hs (ihOthers outer hRest)
  | operand _ ih => exact fun outer hRest => ih outer .awaiting (by simp) hRest
  | chainStop => exact fun outer hRest => hRest
  | chainLink hOperator _ _ _ ihNext ihRest =>
    intro outer hRest
    refine (accepts_operator hOperator).2 ?_
    rw [Stage.step_operator _ hOperator, if_pos rfl]
    exact ihNext outer (ihRest outer hRest)
  | finish hEnd =>
    rintro outer s hFailed hAwaiting hItem rfl
    refine (accepts_end hEnd).2 ⟨rfl, ?_⟩
    cases s <;> simp_all [Stage.done]
  | close hClose =>
    intro outer s hFailed hAwaiting hItem hRest
    refine hRest s ?_
    cases s <;> simp_all [Stage.done]
  | item _ _ _ ihFirst ihChain ihOthers =>
    intro outer s hFailed _ _ hRest
    have hItems := ihOthers outer .command (by simp) (by simp) (.inr (by simp)) hRest
    exact ihFirst outer s hFailed (ihChain outer hItems)
  | sequence _ _ ih =>
    exact fun outer hRest => ih outer .fresh (by simp) (by simp) (.inl (by simp)) hRest

-- ---------------------------------------------------------------------------
-- Room, and the end
-- ---------------------------------------------------------------------------

/-- The last token is the end, and no other. -/
def Ends : List Token → Prop
  | [] => False
  | t :: more => if t.kind = .endOfInput then more = [] else Ends more

theorem Ends.ne_nil (h : Ends ts) : ts ≠ [] := by
  rintro rfl
  exact h

theorem Ends.tail (h : Ends (t :: more)) (hEnd : t.kind ≠ .endOfInput) : Ends more := by
  rwa [Ends, if_neg hEnd] at h

theorem Ends.suffix (h : Ends ts) (hSuffix : rest <:+ ts) (hNil : rest ≠ []) : Ends rest := by
  induction ts with
  | nil => exact absurd h id
  | cons t more ih =>
    rcases List.suffix_cons_iff.1 hSuffix with rfl | hSuffix
    · exact h
    · rw [Ends] at h
      split at h
      · subst h
        exact absurd (List.suffix_nil.1 hSuffix) hNil
      · exact ih h hSuffix

/-- The limit leaves room for five productions for every token that is left, but for
`slack` that are open. -/
def Room (limit : Int) (slack depth : Nat) (ts : List Token) : Prop :=
  (depth : Int) + 5 * ts.length ≤ limit + slack

namespace Room

variable {slack : Nat}

theorem enter (h : Room limit slack depth (t :: more)) (hSlack : slack < 5) :
    ¬ limit ≤ depth := by
  rw [Room, List.length_cons] at h
  omega

theorem deeper (h : Room limit slack depth ts) : Room limit (slack + 1) (depth + 1) ts := by
  rw [Room] at h ⊢
  omega

theorem shorter (h : Room limit slack depth ts) (hLength : rest.length ≤ ts.length) :
    Room limit slack depth rest := by
  rw [Room] at h ⊢
  omega

/-- Two tokens are enough for what a substitution or an assignment opens. -/
theorem behind_two {slack' : Nat} (h : Room limit slack depth (t :: u :: more))
    (hSlack : slack < 5) : Room limit slack' (depth + 1) more := by
  rw [Room, List.length_cons, List.length_cons] at h
  rw [Room]
  omega

/-- There is room for as many operators as there are tokens behind the first command. -/
theorem count (h : Room limit 1 depth ts) (hLength : rest.length < ts.length) :
    (1 : Int) + rest.length ≤ limit := by
  rw [Room] at h
  omega

end Room

/-- What is left is read on in a command. -/
def Behind (outer : List Stage) (rest : List Token) : Prop :=
  Ends rest ∧ Accepts outer .command rest

/-- What a sequence leaves inside the levels `outer`: nothing, or the parenthesis that
closes it and what is read on outside. -/
def Left : List Stage → List Token → Prop
  | [], rest => rest = []
  | above :: outer, rest => ∃ close more, rest = close :: more ∧
    close.kind = .rightParenthesis ∧ Ends more ∧ Accepts outer (above.step .word) more

/-- The rule reads on from a token that is no blank and begins no continuation. -/
def Skips (limit : Int) (depth : Nat) (rule : Rule) (outer : List Stage) (s : Stage)
    (ts : List Token) : Prop :=
  ∃ t more, (t :: more) <:+ ts ∧ Ends (t :: more) ∧ Accepts outer s (t :: more) ∧
    t.kind ≠ .space ∧ Token.startsContinuation (t :: more) = false ∧
    ∀ {ps rest}, Reads limit rule depth (t :: more) ps rest →
      Reads limit rule depth ts ps rest

theorem Skips.gap {gap : List Token} (hGap : Gap rule gap)
    (h : Skips limit depth rule outer s ts) : Skips limit depth rule outer s (gap ++ ts) := by
  obtain ⟨t, more, hSuffix, hEnds, hAccepts, hSpace, hContinuation, hSkip⟩ := h
  exact ⟨t, more, hSuffix.trans (List.suffix_append gap ts), hEnds, hAccepts, hSpace,
    hContinuation, fun hReads => .skip hGap (hSkip hReads)⟩

/-- Blanks and continuations are skipped. -/
theorem skip_accepted (limit : Int) (depth : Nat)
    (hRule : rule = .parts ∨ rule = .operand ∨ ∃ nested, rule = .items nested) (hEnds : Ends ts)
    (h : Accepts outer s ts) : Skips limit depth rule outer s ts := by
  obtain ⟨size, hSize⟩ : ∃ size, ts.length = size := ⟨_, rfl⟩
  induction size using Nat.strongRecOn generalizing ts with
  | ind size ih =>
    cases ts with
    | nil => exact absurd rfl hEnds.ne_nil
    | cons t more =>
      rw [List.length_cons] at hSize
      by_cases hSpace : t.kind = .space
      · have hMore := ih more.length (by omega) (hEnds.tail (by simp [hSpace]))
          ((accepts_space hSpace).1 h) rfl
        exact hMore.gap (.space hRule hSpace)
      by_cases hContinuation : Token.startsContinuation (t :: more) = true
      · cases more with
        | nil => cases hContinuation
        | cons u more =>
          rw [List.length_cons] at hSize
          obtain ⟨hKind, hNewline⟩ : t.kind = .backslash ∧ u.kind = .newline := by
            simpa [Token.startsContinuation] using hContinuation
          have hMore := ih more.length (by omega)
            ((hEnds.tail (by simp [hKind])).tail (by simp [hNewline]))
            ((accepts_continuation hKind hNewline).1 h) rfl
          exact hMore.gap (.continuation hRule hKind hNewline)
      · exact ⟨t, more, List.suffix_refl _, hEnds, h, hSpace, by simpa using hContinuation, id⟩

-- ---------------------------------------------------------------------------
-- What is accepted is read by the grammar: commands
-- ---------------------------------------------------------------------------

/-- A nested sequence shorter than `n` that is accepted is read, up to the parenthesis
that closes it. -/
def NestedRead (limit : Int) (n : Nat) : Prop :=
  ∀ {depth : Nat} {above : Stage} {outer : List Stage} {ts : List Token}, ts.length < n →
    Room limit 0 depth ts → above ≠ .failed → Ends ts → Accepts (above :: outer) .fresh ts →
    ∃ root close rest, Reads limit (.sequence true) depth ts [root] (close :: rest) ∧
      close.kind = .rightParenthesis ∧ Behind outer rest

theorem ne_end_of_isSeparator (h : k.isSeparator = true) : k ≠ .endOfInput := by
  rintro rfl
  cases h

/-- What ends a command and is no operator ends an item. -/
theorem of_endsCommand (h : k.endsCommand = true) (hOperator : k.isOperator = false) :
    k.isSeparator = true ∨ k = .endOfInput ∨ k = .rightParenthesis := by
  simp only [Kind.endsCommand, hOperator, Bool.or_false, Bool.or_eq_true, beq_iff_eq] at h
  tauto

section Commands

variable {n : Nat} {role : WordRole} (hNested : NestedRead limit n)

include hNested

/-- A word goes on with a piece. -/
theorem piece_accepted (hLength : (t :: more).length ≤ n) (hRoom : Room limit 3 depth (t :: more))
    (hs : s ≠ .failed) (hOpen : atWordEnd t more = false) (hEnds : Ends (t :: more))
    (h : Accepts outer s (t :: more)) :
    ∃ p rest, Reads limit (.piece role) depth (t :: more) [p] rest ∧
      rest.length < (t :: more).length ∧ Behind outer rest := by
  have hEnd := ne_end_of_atWordEnd hOpen
  by_cases hQuote : t.kind.isQuote = true
  · obtain ⟨parts, closer, rest, hQuoted⟩ := quoted_of_accepts hQuote h
    have hRest : Ends (closer :: rest) := by
      refine (hEnds.tail hEnd).suffix ?_ (by simp)
      rw [hQuoted.eq_append]
      exact List.suffix_append parts _
    have hCloser : closer.kind ≠ .endOfInput := by
      rw [hQuoted.closer_kind]
      exact hEnd
    rw [accepts_string hQuote hQuoted, Stage.step_of_not_divides hs rfl] at h
    refine ⟨_, rest, .string hQuote (hRoom.enter (by omega)) hQuoted, ?_, hRest.tail hCloser, h⟩
    rw [hQuoted.eq_append]
    simp only [List.length_cons, List.length_append]
    omega
  rw [Bool.not_eq_true] at hQuote
  by_cases hSubstitution : startsSubstitution t more = true
  · obtain ⟨hDollar, paren, inside, rfl, hParen⟩ := Descent.startsSubstitution_iff.1 hSubstitution
    simp only [List.length_cons] at hLength
    have hInside := (accepts_open hDollar hParen).1 h
    obtain ⟨root, close, rest, hReads, hClose, hBehind⟩ := hNested (by omega)
      (hRoom.behind_two (by omega)) hs ((hEnds.tail hEnd).tail (by simp [hParen])) hInside
    have hShort := hReads.suffix.length_le
    refine ⟨_, rest, .substitution hDollar hParen (hRoom.enter (by omega)) hReads hClose, ?_,
      hBehind⟩
    simp only [List.length_cons] at hShort ⊢
    omega
  · rw [Bool.not_eq_true] at hSubstitution
    exact ⟨_, more, .literal hOpen hQuote hSubstitution, by simp, hEnds.tail hEnd,
      (accepts_literal hs hOpen hQuote hSubstitution).1 h⟩

/-- The other pieces of a word, up to its end. -/
theorem pieces_accepted (hLength : ts.length ≤ n) (hRoom : Room limit 3 depth ts)
    (h : Behind outer ts) :
    ∃ ps rest, Reads limit (.pieces role) depth ts ps rest ∧ Behind outer rest := by
  obtain ⟨size, hSize⟩ : ∃ size, ts.length = size := ⟨_, rfl⟩
  induction size using Nat.strongRecOn generalizing ts with
  | ind size ih =>
    obtain ⟨hEnds, hAccepts⟩ := h
    cases ts with
    | nil => exact absurd rfl hEnds.ne_nil
    | cons t more =>
      by_cases hEnd : atWordEnd t more = true
      · exact ⟨[], t :: more, .piecesNil hEnd, hEnds, hAccepts⟩
      rw [Bool.not_eq_true] at hEnd
      obtain ⟨p, between, hFirst, hShort, hBehind⟩ :=
        piece_accepted hNested hLength hRoom (by simp) hEnd hEnds hAccepts
      obtain ⟨ps, rest, hOthers, hRest⟩ := ih between.length (by omega) (by omega)
        (hRoom.shorter (by omega)) hBehind rfl
      exact ⟨p :: ps, rest, .piecesCons hFirst hOthers, hRest⟩

/-- A token that does not end a word begins one. -/
theorem word_accepted (hLength : (t :: more).length ≤ n) (hRoom : Room limit 2 depth (t :: more))
    (hs : s ≠ .failed) (hOpen : atWordEnd t more = false) (hEnds : Ends (t :: more))
    (h : Accepts outer s (t :: more)) :
    ∃ p rest, Reads limit (.word role) depth (t :: more) [p] rest ∧
      rest.length < (t :: more).length ∧ Behind outer rest := by
  obtain ⟨p, between, hFirst, hShort, hBehind⟩ :=
    piece_accepted hNested hLength hRoom.deeper hs hOpen hEnds h
  obtain ⟨ps, rest, hOthers, hRest⟩ := pieces_accepted hNested (by omega)
    (hRoom.deeper.shorter (Nat.le_of_lt hShort)) hBehind
  have hLe := hOthers.suffix.length_le
  exact ⟨_, rest, .word (hRoom.enter (by omega)) hFirst hOthers, by omega, hRest⟩

/-- A token that does not end a word begins an argument or an assignment. -/
theorem part_accepted (hLength : (t :: more).length ≤ n) (hRoom : Room limit 2 depth (t :: more))
    (hs : s ≠ .failed) (hOpen : atWordEnd t more = false) (hEnds : Ends (t :: more))
    (h : Accepts outer s (t :: more)) :
    ∃ p rest, Reads limit .part depth (t :: more) [p] rest ∧
      rest.length < (t :: more).length ∧ Behind outer rest := by
  by_cases hStart : startsAssignment t more = true
  · obtain ⟨hName, -, equals, value, rfl, hEquals⟩ := Descent.startsAssignment_iff.1 hStart
    rw [accepts_assignment hs hStart] at h
    have hValue : Ends value := (hEnds.tail (by simp [hName])).tail (by simp [hEquals])
    have hEnter := hRoom.enter (by omega)
    cases value with
    | nil => exact absurd rfl hValue.ne_nil
    | cons first others =>
      by_cases hEmpty : atWordEnd first others = true
      · exact ⟨_, _, .assignmentEmpty hStart hEnter hEmpty, by simp, hValue, h⟩
      · rw [Bool.not_eq_true] at hEmpty
        simp only [List.length_cons] at hLength
        obtain ⟨p, rest, hWord, hShort, hRest⟩ := word_accepted hNested
          (by rw [List.length_cons]; omega) (hRoom.behind_two (by omega)) (by simp) hEmpty
          hValue h
        refine ⟨_, rest, .assignment hStart hEnter hWord, ?_, hRest⟩
        simp only [List.length_cons] at hShort ⊢
        omega
  · rw [Bool.not_eq_true] at hStart
    obtain ⟨p, rest, hWord, hShort, hRest⟩ := word_accepted hNested hLength hRoom hs hOpen hEnds h
    exact ⟨p, rest, .argument hStart hWord, hShort, hRest⟩

/-- The other parts of a command, up to its end. -/
theorem parts_accepted (hLength : ts.length ≤ n) (hRoom : Room limit 2 depth ts)
    (h : Behind outer ts) :
    ∃ ps t more, Reads limit .parts depth ts ps (t :: more) ∧ t.kind.endsCommand = true ∧
      Behind outer (t :: more) := by
  obtain ⟨size, hSize⟩ : ∃ size, ts.length = size := ⟨_, rfl⟩
  induction size using Nat.strongRecOn generalizing ts with
  | ind size ih =>
    obtain ⟨t, more, hSuffix, hEnds, hAccepts, hSpace, hContinuation, hSkip⟩ :=
      skip_accepted limit depth (.inl rfl) h.1 h.2
    have hLe := hSuffix.length_le
    by_cases hEnd : t.kind.endsCommand = true
    · exact ⟨[], t, more, hSkip (.partsNil hEnd), hEnd, hEnds, hAccepts⟩
    have hOpen : atWordEnd t more = false := by
      simp [atWordEnd, Kind.endsArgument, hEnd, hSpace, hContinuation]
    obtain ⟨p, between, hFirst, hShort, hBehind⟩ := part_accepted hNested (by omega)
      (hRoom.shorter hLe) (by simp) hOpen hEnds hAccepts
    obtain ⟨ps, u, rest, hOthers, hRest⟩ := ih between.length (by omega) (by omega)
      (hRoom.shorter (by omega)) hBehind rfl
    exact ⟨p :: ps, u, rest, hSkip (.partsCons hFirst hOthers), hRest⟩

/-- A token that does not end a word begins a command. -/
theorem command_accepted (hLength : (t :: more).length ≤ n)
    (hRoom : Room limit 1 depth (t :: more)) (hs : s ≠ .failed) (hOpen : atWordEnd t more = false)
    (hEnds : Ends (t :: more)) (h : Accepts outer s (t :: more)) :
    ∃ p u rest, Reads limit .command depth (t :: more) [p] (u :: rest) ∧
      (u :: rest).length < (t :: more).length ∧ u.kind.endsCommand = true ∧
      Behind outer (u :: rest) := by
  obtain ⟨p, between, hFirst, hShort, hBehind⟩ :=
    part_accepted hNested hLength hRoom.deeper hs hOpen hEnds h
  obtain ⟨ps, u, rest, hOthers, hEnd, hRest⟩ := parts_accepted hNested (by omega)
    (hRoom.deeper.shorter (Nat.le_of_lt hShort)) hBehind
  have hLe := hOthers.suffix.length_le
  exact ⟨_, u, rest, .command (hRoom.enter (by omega)) hFirst hOthers, by omega, hEnd, hRest⟩

-- ---------------------------------------------------------------------------
-- What is accepted is read by the grammar: items
-- ---------------------------------------------------------------------------

/-- Behind an operator there is a command. -/
theorem operand_accepted (hLength : ts.length ≤ n) (hRoom : Room limit 1 depth ts)
    (hEnds : Ends ts) (h : Accepts outer .awaiting ts) :
    ∃ p u rest, Reads limit .operand depth ts [p] (u :: rest) ∧
      (u :: rest).length < ts.length ∧ u.kind.endsCommand = true ∧ Behind outer (u :: rest) := by
  obtain ⟨size, hSize⟩ : ∃ size, ts.length = size := ⟨_, rfl⟩
  induction size using Nat.strongRecOn generalizing ts with
  | ind size ih =>
    obtain ⟨t, more, hSuffix, hEnds, hAccepts, hSpace, hContinuation, hSkip⟩ :=
      skip_accepted limit depth (.inr (.inl rfl)) hEnds h
    have hLe := hSuffix.length_le
    cases Descent.front t more with
    | space hKind => exact absurd hKind hSpace
    | continuation _ hStart => simp [hContinuation] at hStart
    | separator hKind =>
      rw [accepts_separator hKind] at hAccepts
      by_cases hNewline : t.kind = .newline
      · rw [List.length_cons] at hLe
        rw [hNewline, Stage.step_newline, if_neg (by simp)] at hAccepts
        obtain ⟨p, u, rest, hReads, hShort, hRest⟩ := ih more.length (by omega) (by omega)
          (hRoom.shorter (by omega)) (hEnds.tail (by simp [hNewline])) hAccepts rfl
        exact ⟨p, u, rest, hSkip (.skip (.newline hNewline) hReads), by omega, hRest⟩
      · rw [Descent.eq_semicolon hKind hNewline] at hAccepts
        exact absurd rfl hAccepts.ne_failed
    | operator hKind =>
      rw [accepts_operator hKind, Stage.step_operator _ hKind] at hAccepts
      exact absurd rfl hAccepts.ne_failed
    | finish hKind => cases ((accepts_end hKind).1 hAccepts).2
    | close hKind =>
      obtain ⟨_, _, -, hDone, -⟩ := (accepts_close hKind).1 hAccepts
      cases hDone
    | word hOpen =>
      obtain ⟨p, u, rest, hReads, hShort, hRest⟩ := command_accepted hNested (by omega)
        (hRoom.shorter hLe) (by simp) hOpen hEnds hAccepts
      exact ⟨p, u, rest, hSkip (.operand hReads), by omega, hRest⟩

/-- The operators behind a command, and theirs. -/
theorem chain_accepted (item : Item) (tokens : List Token) (hLength : ts.length ≤ n)
    (hRoom : Room limit 1 depth ts) (hCount : (item.operands : Int) + ts.length ≤ limit)
    (h : Behind outer ts) (hEnd : ∀ t ∈ ts.head?, t.kind.endsCommand = true) :
    ∃ p u rest, Reads limit (.chain item tokens) depth ts [p] (u :: rest) ∧
      u.kind.endsCommand = true ∧ u.kind.isOperator = false ∧ Behind outer (u :: rest) := by
  obtain ⟨size, hSize⟩ : ∃ size, ts.length = size := ⟨_, rfl⟩
  induction size using Nat.strongRecOn generalizing ts item tokens with
  | ind size ih =>
    obtain ⟨hEnds, hAccepts⟩ := h
    cases ts with
    | nil => exact absurd rfl hEnds.ne_nil
    | cons t more =>
      rw [List.length_cons] at hSize hLength hCount
      by_cases hOperator : t.kind.isOperator = true
      · rw [accepts_operator hOperator, Stage.step_operator _ hOperator, if_pos rfl] at hAccepts
        have hMore : Ends more := hEnds.tail (by
          rcases Descent.eq_of_isOperator hOperator with hKind | hKind | hKind <;> simp [hKind])
        obtain ⟨next, u, between, hNext, hShort, hKind, hBehind⟩ := operand_accepted hNested
          (by omega) (hRoom.shorter (by simp)) hMore hAccepts
        have hJoin : (item.join t.kind next.tree).operands = item.operands + 1 := by
          rw [Item.join]
          split <;> rfl
        obtain ⟨p, v, rest, hReads, hRest⟩ := ih (u :: between).length (by omega)
          (item.join t.kind next.tree) (tokens ++ blank :: t :: blank :: next.tokens) (by omega)
          (hRoom.shorter (by rw [List.length_cons (a := t)]; omega)) (by rw [hJoin]; omega)
          hBehind (by simpa using hKind) rfl
        exact ⟨p, v, rest, .chainLink hOperator (by omega) hNext hReads, hRest⟩
      · rw [Bool.not_eq_true] at hOperator
        exact ⟨_, t, more, .chainStop hOperator, hEnd t rfl, hOperator, hEnds, hAccepts⟩

omit hNested in
/-- A sequence ends where it may. -/
theorem items_end (hKind : t.kind = .endOfInput ∨ t.kind = .rightParenthesis)
    (hEnds : Ends (t :: more)) (h : Accepts outer s (t :: more)) :
    s.done = true ∧
      ∃ rest, Reads limit (.items !outer.isEmpty) depth (t :: more) [] rest ∧ Left outer rest := by
  rcases hKind with hKind | hKind
  · obtain ⟨rfl, hDone⟩ := (accepts_end hKind).1 h
    rw [Ends, if_pos hKind] at hEnds
    exact ⟨hDone, more, .finish hKind, hEnds⟩
  · obtain ⟨above, outer, rfl, hDone, hRest⟩ := (accepts_close hKind).1 h
    exact ⟨hDone, t :: more, .close hKind, t, more, rfl, hKind, hEnds.tail (by simp [hKind]), hRest⟩

/-- The items of a sequence, from a stage between two of them. -/
theorem items_accepted (hLength : ts.length ≤ n) (hRoom : Room limit 1 depth ts)
    (hs : s = .fresh ∨ s = .between) (hEnds : Ends ts) (h : Accepts outer s ts) :
    ∃ ps rest, Reads limit (.items !outer.isEmpty) depth ts ps rest ∧
      (s = .fresh → ps ≠ []) ∧ Left outer rest := by
  obtain ⟨size, hSize⟩ : ∃ size, ts.length = size := ⟨_, rfl⟩
  induction size using Nat.strongRecOn generalizing ts s with
  | ind size ih =>
    obtain ⟨t, more, hSuffix, hEnds, hAccepts, hSpace, hContinuation, hSkip⟩ :=
      skip_accepted limit depth (.inr (.inr ⟨!outer.isEmpty, rfl⟩)) hEnds h
    have hLe := hSuffix.length_le
    have hStop : t.kind = .endOfInput ∨ t.kind = .rightParenthesis →
        ∃ ps rest, Reads limit (.items !outer.isEmpty) depth ts ps rest ∧
          (s = .fresh → ps ≠ []) ∧ Left outer rest := by
      intro hKind
      obtain ⟨hDone, rest, hReads, hRest⟩ := items_end hKind hEnds hAccepts
      exact ⟨[], rest, hSkip hReads, (by rintro rfl; cases hDone), hRest⟩
    cases Descent.front t more with
    | space hKind => exact absurd hKind hSpace
    | continuation _ hStart => simp [hContinuation] at hStart
    | separator hKind =>
      have hStage : s.step t.kind = s := by
        rcases hs with rfl | rfl <;> rw [Stage.step_separator hKind (by simp)] <;> rfl
      rw [accepts_separator hKind, hStage] at hAccepts
      rw [List.length_cons] at hLe
      have hMore : Ends more := hEnds.tail (ne_end_of_isSeparator hKind)
      obtain ⟨ps, rest, hReads, hRest⟩ := ih more.length (by omega) (by omega)
        (hRoom.shorter (by omega)) hs hMore hAccepts rfl
      exact ⟨ps, rest, hSkip (.skip (.separator hKind) hReads), hRest⟩
    | operator hKind =>
      rw [accepts_operator hKind, Stage.step_operator _ hKind] at hAccepts
      rcases hs with rfl | rfl <;> exact absurd rfl hAccepts.ne_failed
    | finish hKind => exact hStop (.inl hKind)
    | close hKind => exact hStop (.inr hKind)
    | word hOpen =>
      obtain ⟨first, u, behind, hFirst, hShort, hEnd, hBehind⟩ := command_accepted hNested
        (by omega) (hRoom.shorter hLe) (by rcases hs with rfl | rfl <;> simp) hOpen hEnds hAccepts
      obtain ⟨whole, v, between, hChain, hEnd, hOperator, hBetween⟩ := chain_accepted hNested
        (.single first.tree) first.tokens (by omega) (hRoom.shorter (by omega))
        (hRoom.count (by omega)) hBehind (by simpa using hEnd)
      have hLeft := hChain.suffix.length_le
      -- Behind the item there is a separator, or the sequence ends.
      obtain ⟨ps, rest, hOthers, hRest⟩ : ∃ ps rest,
          Reads limit (.items !outer.isEmpty) depth (v :: between) ps rest ∧ Left outer rest := by
        rcases of_endsCommand hEnd hOperator with hSeparator | hKind
        · obtain ⟨hEnds, hAccepts⟩ := hBetween
          rw [accepts_separator hSeparator, Stage.step_separator hSeparator (by simp),
            if_pos rfl] at hAccepts
          rw [List.length_cons] at hLeft
          obtain ⟨ps, rest, hReads, -, hRest⟩ := ih between.length (by omega) (by omega)
            (hRoom.shorter (by omega)) (.inr rfl) (hEnds.tail (ne_end_of_isSeparator hSeparator))
            hAccepts rfl
          exact ⟨ps, rest, .skip (.separator hSeparator) hReads, hRest⟩
        · obtain ⟨-, rest, hReads, hRest⟩ := items_end hKind hBetween.1 hBetween.2
          exact ⟨[], rest, hReads, hRest⟩
      exact ⟨whole :: ps, rest, hSkip (.item hFirst hChain hOthers), by simp, hRest⟩

/-- A sequence that is accepted is read by the grammar. -/
theorem sequence_accepted (hLength : ts.length ≤ n) (hRoom : Room limit 0 depth ts)
    (hEnds : Ends ts) (h : Accepts outer .fresh ts) :
    ∃ p rest, Reads limit (.sequence !outer.isEmpty) depth ts [p] rest ∧ Left outer rest := by
  obtain ⟨ps, rest, hItems, hSome, hLeft⟩ :=
    items_accepted hNested hLength hRoom.deeper (.inl rfl) hEnds h
  cases ts with
  | nil => exact absurd rfl hEnds.ne_nil
  | cons t more =>
    cases ps with
    | nil => exact absurd rfl (hSome rfl)
    | cons p ps => exact ⟨_, rest, .sequence (hRoom.enter (by omega)) hItems, hLeft⟩

end Commands

/-- Nested sequences that are accepted are read, however long. -/
theorem nestedRead (limit : Int) (n : Nat) : NestedRead limit n := by
  induction n using Nat.strongRecOn with
  | ind n ih =>
    intro depth above outer ts hLength hRoom hAbove hEnds h
    obtain ⟨root, rest, hReads, close, more, rfl, hClose, hMore, hAccepts⟩ :=
      sequence_accepted (ih ts.length hLength) (Nat.le_refl _) hRoom hEnds h
    rw [Stage.step_of_not_divides hAbove rfl] at hAccepts
    exact ⟨root, close, more, hReads, hClose, hMore, hAccepts⟩

-- ---------------------------------------------------------------------------
-- Whole lists
-- ---------------------------------------------------------------------------

variable {body : List Token} {last : Token}

theorem kinds_bare (hBody : ∀ t ∈ body, t.kind ≠ .endOfInput) (hLast : last.kind = .endOfInput) :
    kinds ((body ++ [last]).map Token.bare) = body.map (·.kind) := by
  induction body with
  | nil => exact kinds_end hLast
  | cons t body ih =>
    have hKind : t.bare.kind ≠ .endOfInput := hBody t (by simp)
    rw [List.cons_append, List.map_cons, kinds_cons hKind,
      ih fun u hu => hBody u (List.mem_cons_of_mem t hu)]
    rfl

theorem ends_bare (hBody : ∀ t ∈ body, t.kind ≠ .endOfInput) (hLast : last.kind = .endOfInput) :
    Ends ((body ++ [last]).map Token.bare) := by
  induction body with
  | nil => simp [Ends, hLast]
  | cons t body ih =>
    have hKind : t.bare.kind ≠ .endOfInput := hBody t (by simp)
    rw [List.cons_append, List.map_cons, Ends, if_neg hKind]
    exact ih fun u hu => hBody u (List.mem_cons_of_mem t hu)

/-- A list is accepted when its strings are closed, its brackets match and its levels are
in order. -/
theorem accepts_bare_iff (hBody : ∀ t ∈ body, t.kind ≠ .endOfInput)
    (hLast : last.kind = .endOfInput) :
    Accepts [] .fresh ((body ++ [last]).map Token.bare) ↔
      ∃ flat, closeStrings none (body.map (·.kind)) = some flat ∧
        ∃ lines, levels? [] [] flat = some lines ∧ ∀ line ∈ lines, Ordered (squeeze line) := by
  rw [Accepts, kinds_bare hBody hLast]
  refine exists_congr fun flat => and_congr_right fun _ => ?_
  have hSettled : Settled [] flat := by simp [Settled]
  simp only [ordered_iff]
  exact accepts_iff [] hSettled

end Grammar

open Grammar in
/-- **Acceptance.** A token list with one end, its last token, has a tree under some limit
exactly when every string is closed, every `$(` has its `)` and no other `)` is left over,
and in every level there is a command and every operator stands between two. -/
theorem parseTokens_ok_iff {body : List Token} {last : Token}
    (hBody : ∀ t ∈ body, t.kind ≠ .endOfInput) (hLast : last.kind = .endOfInput) :
    (∃ limit tree, parseTokens (body ++ [last]) limit = .ok tree) ↔
      ∃ flat, closeStrings none (body.map (·.kind)) = some flat ∧
        ∃ lines, levels? [] [] flat = some lines ∧ ∀ line ∈ lines, Ordered (squeeze line) := by
  rw [← accepts_bare_iff hBody hLast]
  constructor
  · rintro ⟨limit, tree, h⟩
    obtain ⟨p, hReads, -⟩ := reads_of_parseTokens h
    exact hReads.accepted [] rfl
  · intro h
    have hRoom : Room (5 * (body ++ [last]).length) 0 0 ((body ++ [last]).map Token.bare) := by
      simp [Room]
    obtain ⟨p, rest, hReads, rfl⟩ := sequence_accepted (nestedRead _ _) (Nat.le_refl _) hRoom
      (ends_bare hBody hLast) h
    obtain ⟨tree, hTree, -⟩ := parseTokens_of_reads hReads (by simp [hLast])
    exact ⟨_, tree, hTree⟩

/-- A hidden quote, a newline behind an operator and a parenthesis that is ordinary text
are accepted; an operator behind a separator is not. -/
theorem parseTokens_ok_iff_operators :
    (∃ limit tree, parseTokens ([⟨.word, ['a'], 0⟩, ⟨.doubleQuote, ['\x22'], 1⟩,
      ⟨.backslash, ['\x5c'], 2⟩, ⟨.doubleQuote, ['\x22'], 3⟩, ⟨.doubleQuote, ['\x22'], 4⟩,
      ⟨.space, [' '], 5⟩, ⟨.pipe, ['|'], 6⟩, ⟨.newline, ['\n'], 7⟩, ⟨.dollar, ['$'], 8⟩,
      ⟨.leftParenthesis, ['('], 9⟩, ⟨.word, ['b'], 10⟩, ⟨.leftParenthesis, ['('], 11⟩,
      ⟨.semicolon, [';'], 12⟩, ⟨.rightParenthesis, [')'], 13⟩] ++ [⟨.endOfInput, [], 14⟩])
      limit = .ok tree) ∧
    ¬ ∃ limit tree, parseTokens ([⟨.word, ['a'], 0⟩, ⟨.semicolon, [';'], 1⟩, ⟨.pipe, ['|'], 2⟩,
      ⟨.word, ['b'], 3⟩] ++ [⟨.endOfInput, [], 4⟩]) limit = .ok tree := by
  constructor
  · rw [parseTokens_ok_iff (by decide) rfl]
    refine ⟨_, rfl, _, rfl, fun line hLine => Grammar.ordered_iff.2 ?_⟩
    revert line
    decide
  · rw [parseTokens_ok_iff (by decide) rfl]
    rintro ⟨flat, hFlat, lines, hLines, hOrdered⟩
    obtain rfl := Option.some.inj hFlat
    obtain rfl := Option.some.inj hLines
    exact absurd (Grammar.ordered_iff.1 (hOrdered _ List.mem_cons_self)) (by decide)

end ShellReader
