import ShellReader.Proofs.Parallel
import ShellReader.Proofs.Quoting

/-!
# ShellReader — blanks between words

Words are told apart by what stands between them, and how much of it there is makes no
difference: a blank, a separator or an operator may have another blank next to it, and a
newline separates two items as a semicolon does. So a list can be changed at one place
outside its strings and is still read in the same way.

A reading of the list is followed on the changed one. As long as the change is ahead both
go on in the same way, since no production that looks one token ahead looks for a token that
stands between words, a backslash before a newline apart. At the change a word ends in both
lists, and what goes on behind the word skips what was put there.

* `Respaced` — the second list is the first one with such a change;
* `Loose` — the same, or with a blank in front of it;
* `Faces`, `Fronts` — what a production finds in front of the two lists, one that is inside a
  word and one that skips blanks;
* `Matches` — what the two readings come to.

A newline is not always as good as a semicolon: behind an operator it is skipped, where a
semicolon is a fault. So the newline is only known to do if the semicolon did.

## Results

* `Descent.sequence_matches` — a sequence is read in the same way in both lists, and so is
  every other production.
* `parseTokens_respaced` — the same for whole lists.
-/

namespace ShellReader

/-- Whether a token stands between words: a blank, a separator or an operator. -/
def Token.Kind.isBreak (k : Token.Kind) : Bool :=
  k == .space || k.isSeparator || k.isOperator

namespace Descent

open Production (startsAssignment atWordEnd startsEscape)
open Token (startsContinuation)

/-- How a list may be changed. -/
inductive Change where
  /-- A blank is put next to a token that stands between words. -/
  | blank
  /-- A newline takes the place of a semicolon. -/
  | newline

/-- The second list is the first one, or the first one with a change outside its strings,
where `q` tells whether the lists begin inside of a string. -/
inductive Respaced : Change → Quoting → List Token → List Token → Prop where
  | same {e : Change} {q : Quoting} (ts : List Token) : Respaced e q ts ts
  | before {t space : Token} (hBreak : t.kind.isBreak = true) (hSpace : space.kind = .space)
      (ts : List Token) : Respaced .blank .outside (t :: ts) (space :: t :: ts)
  | behind {t space : Token} (hBreak : t.kind.isBreak = true) (hSpace : space.kind = .space)
      (ts : List Token) : Respaced .blank .outside (t :: ts) (t :: space :: ts)
  | newline {semicolon newline : Token} (hSemicolon : semicolon.kind = .semicolon)
      (hNewline : newline.kind = .newline) (ts : List Token) :
      Respaced .newline .outside (semicolon :: ts) (newline :: ts)
  | cons {e : Change} {q : Quoting} {t : Token} {ts us : List Token}
      (h : Respaced e (q.step t.kind) ts us)
      (hContinues : startsContinuation (t :: us) = startsContinuation (t :: ts)) :
      Respaced e q (t :: ts) (t :: us)

/-- The same where blanks are skipped: there may be a blank in front of the second list. -/
def Loose (e : Change) (ts us : List Token) : Prop :=
  Respaced e .outside ts us ∨ ∃ space, space.kind = .space ∧ us = space :: ts

/-- The second reading comes to the same as the first one, wherever it finds a fault; or it
is of a list with a newline for a semicolon, and the first one has found a fault. -/
inductive Matches {α : Type} {n m : Nat} :
    Change → Except Fault (Reading α n) → Except Fault (Reading α m) → Prop where
  | fault {e : Change} {fault fault' : Fault} (hCause : fault'.cause = fault.cause) :
      Matches e (.error fault) (.error fault')
  | ok {e : Change} {r : Reading α n} {r' : Reading α m} (hValue : r'.value = r.value)
      (hRest : Respaced e .outside r.rest r'.rest) : Matches e (.ok r) (.ok r')
  | fail (fault : Fault) (y : Except Fault (Reading α m)) : Matches .newline (.error fault) y

variable {e : Change} {q : Quoting} {c : Context} {t space : Token}
  {ts us more more' : List Token} {α β : Type} {n m k l : Nat}

-- ---------------------------------------------------------------------------
-- Tokens between words
-- ---------------------------------------------------------------------------

section Break

variable (h : t.kind.isBreak = true)
include h

theorem atWordEnd_of_isBreak (more : List Token) : atWordEnd t more = true := by
  have hEnds : t.kind.endsArgument = true := by
    simp only [Token.Kind.isBreak, Bool.or_eq_true] at h
    rcases h with (hSpace | hSeparator) | hOperator
    · simp [Token.Kind.endsArgument, hSpace]
    · simp [Token.Kind.endsArgument, Token.Kind.endsCommand, hSeparator]
    · simp [Token.Kind.endsArgument, Token.Kind.endsCommand, hOperator]
  simp [atWordEnd, hEnds]

theorem ne_of_isBreak {kind : Token.Kind} (hKind : kind.isBreak = false) : t.kind ≠ kind := by
  rintro rfl
  rw [h] at hKind
  cases hKind

theorem not_isQuote_of_isBreak : t.kind.isQuote = false := by
  rw [Bool.eq_false_iff]
  intro hQuote
  rcases Quoting.eq_of_isQuote hQuote with hKind | hKind
  · exact ne_of_isBreak h rfl hKind
  · exact ne_of_isBreak h rfl hKind

theorem startsContinuation_of_isBreak (more : List Token) :
    startsContinuation (t :: more) = false :=
  startsContinuation_of_ne (ne_of_isBreak h rfl)

end Break

/-- What goes on with a word does not stand between words. -/
theorem isBreak_of_open {more : List Token} (h : atWordEnd t more = false) :
    t.kind.isBreak = false := by
  obtain ⟨hSpace, -, hSeparator, hOperator, -⟩ := atWordEnd_eq_false.1 h
  simp [Token.Kind.isBreak, hSpace, hSeparator, hOperator]

theorem isBreak_of_space (h : space.kind = .space) : space.kind.isBreak = true := by
  rw [h]
  rfl

-- ---------------------------------------------------------------------------
-- Lists with a change
-- ---------------------------------------------------------------------------

/-- A token that does not stand between words is in front of both lists or of none. -/
theorem Respaced.head?_kind (h : Respaced e q ts us) {kind : Token.Kind}
    (hKind : kind.isBreak = false) :
    (us.head?.map (·.kind) == some kind) = (ts.head?.map (·.kind) == some kind) := by
  cases h with
  | same => rfl
  | behind => rfl
  | cons => rfl
  | before hBreak hSpace =>
    have hFront := ne_of_isBreak hBreak hKind
    have hFront' := ne_of_isBreak (isBreak_of_space hSpace) hKind
    simp [hFront, hFront']
  | newline hSemicolon hNewline =>
    have hFront : kind ≠ .semicolon := by rintro rfl; cases hKind
    have hFront' : kind ≠ .newline := by rintro rfl; cases hKind
    simp [hSemicolon, hNewline, hFront.symm, hFront'.symm]

/-- Behind such a token. -/
theorem Respaced.drop (h : Respaced e q ts us) {kind : Token.Kind} (hKind : kind.isBreak = false)
    (hHead : ts.head?.map (·.kind) = some kind) :
    Respaced e (q.step kind) (ts.drop 1) (us.drop 1) := by
  cases h with
  | same => exact .same _
  | before hBreak => exact absurd (Option.some.inj hHead) (ne_of_isBreak hBreak hKind)
  | behind hBreak => exact absurd (Option.some.inj hHead) (ne_of_isBreak hBreak hKind)
  | newline hSemicolon =>
    have hFront := hSemicolon.symm.trans (Option.some.inj hHead)
    rw [← hFront] at hKind
    cases hKind
  | cons h =>
    obtain rfl := Option.some.inj hHead
    exact h

section Lookahead

variable (h : Respaced e q more more') (t : Token)
include h

theorem Respaced.startsAssignment : startsAssignment t more' = startsAssignment t more := by
  unfold Production.startsAssignment
  rw [h.head?_kind rfl]

theorem Respaced.startsSubstitution : startsSubstitution t more' = startsSubstitution t more := by
  unfold Descent.startsSubstitution
  rw [h.head?_kind rfl]

theorem Respaced.startsEscape : startsEscape t more' = startsEscape t more := by
  unfold Production.startsEscape
  rw [h.head?_kind rfl, h.head?_kind rfl]

end Lookahead

/-- What is in front of two lists: nothing, or tokens that both stand between words, or the
same token. -/
inductive Faces (e : Change) (q : Quoting) : List Token → List Token → Prop where
  | nil : Faces e q [] []
  | breaks {t u : Token} (ht : t.kind.isBreak = true) (hu : u.kind.isBreak = true)
      (hOutside : q = .outside) (more more' : List Token) : Faces e q (t :: more) (u :: more')
  | cons (t : Token) {more more' : List Token} (h : Respaced e (q.step t.kind) more more')
      (hContinues : startsContinuation (t :: more') = startsContinuation (t :: more)) :
      Faces e q (t :: more) (t :: more')

theorem Respaced.faces (h : Respaced e q ts us) : Faces e q ts us := by
  cases h with
  | same ts =>
    cases ts with
    | nil => exact .nil
    | cons t more => exact .cons t (.same more) rfl
  | before hBreak hSpace => exact .breaks hBreak (isBreak_of_space hSpace) rfl _ _
  | behind hBreak => exact .breaks hBreak hBreak rfl _ _
  | newline hSemicolon hNewline =>
    exact .breaks (by rw [hSemicolon]; rfl) (by rw [hNewline]; rfl) rfl _ _
  | cons h hContinues => exact .cons _ h hContinues

/-- What stands behind the same token in both lists, as a production needs it that skips
what stands between words. -/
structure Follows (e : Change) (t : Token) (more more' : List Token) : Prop where
  continues : startsContinuation (t :: more') = startsContinuation (t :: more)
  whole     : Respaced e .outside (t :: more) (t :: more')
  word      : t.kind.isBreak = false → Respaced e (Quoting.outside.step t.kind) more more'
  skip      : t.kind.isQuote = false → Loose e more more'
  /-- The backslash and the newline are skipped together. -/
  continued : startsContinuation (t :: more) = true → Loose e (more.drop 1) (more'.drop 1)

/-- Where blanks are skipped the lists are the same, or one has a blank in front, or a newline
for a semicolon, or they go on with the same token. -/
inductive Fronts : Change → List Token → List Token → Prop where
  | same {e : Change} (ts : List Token) : Fronts e ts ts
  | space {e : Change} {space : Token} (hSpace : space.kind = .space) (ts : List Token) :
      Fronts e ts (space :: ts)
  | newline {semicolon newline : Token} (hSemicolon : semicolon.kind = .semicolon)
      (hNewline : newline.kind = .newline) (ts : List Token) :
      Fronts .newline (semicolon :: ts) (newline :: ts)
  | cons {e : Change} (t : Token) {more more' : List Token} (h : Follows e t more more') :
      Fronts e (t :: more) (t :: more')

/-- Behind a continuation, the newline of which may have a blank behind it. -/
theorem Respaced.continued (h : Respaced e .outside more more')
    (hContinues : startsContinuation (t :: more') = startsContinuation (t :: more))
    (hStart : startsContinuation (t :: more) = true) :
    Loose e (more.drop 1) (more'.drop 1) := by
  cases h with
  | same => exact .inl (.same _)
  | behind hBreak hSpace ts => exact .inr ⟨_, hSpace, rfl⟩
  | before hBreak hSpace ts =>
    rw [hStart, startsContinuation_cons] at hContinues
    simp [hSpace] at hContinues
  | newline hSemicolon =>
    rw [startsContinuation_cons] at hStart
    simp [hSemicolon] at hStart
  | @cons _ _ u _ _ h =>
    have hNewline : u.kind = .newline := by
      rw [startsContinuation_cons] at hStart
      simpa using (Bool.and_eq_true_iff.1 hStart).2
    rw [hNewline] at h
    exact .inl h

theorem Respaced.follows (h : Respaced e (Quoting.outside.step t.kind) more more')
    (hContinues : startsContinuation (t :: more') = startsContinuation (t :: more)) :
    Follows e t more more' where
  continues := hContinues
  whole := .cons h hContinues
  word _ := h
  skip hQuote := by
    rw [Quoting.step_outside hQuote] at h
    exact .inl h
  continued hStart := by
    have hKind := (startsContinuation_iff.1 hStart).1
    rw [hKind] at h
    exact Respaced.continued h hContinues hStart

theorem follows_space (hBreak : t.kind.isBreak = true) (hSpace : space.kind = .space)
    (more : List Token) : Follows .blank t more (space :: more) where
  continues := by rw [startsContinuation_of_isBreak hBreak, startsContinuation_of_isBreak hBreak]
  whole := .behind hBreak hSpace more
  word hWord := absurd rfl (ne_of_isBreak hBreak hWord)
  skip _ := .inr ⟨space, hSpace, rfl⟩
  continued hStart := by
    rw [startsContinuation_of_isBreak hBreak] at hStart
    cases hStart

theorem Loose.fronts (h : Loose e ts us) : Fronts e ts us := by
  rcases h with h | ⟨space, hSpace, rfl⟩
  · cases h with
    | same => exact .same ts
    | before _ hSpace => exact .space hSpace _
    | behind hBreak hSpace => exact .cons _ (follows_space hBreak hSpace _)
    | newline hSemicolon hNewline => exact .newline hSemicolon hNewline _
    | cons h hContinues => exact .cons _ (h.follows hContinues)
  · exact .space hSpace ts

-- ---------------------------------------------------------------------------
-- Rules
-- ---------------------------------------------------------------------------

section Rules

variable {x : Except Fault (Reading α n)} {y : Except Fault (Reading α m)}
  {f : Reading α n → Except Fault (Reading β k)} {g : Reading α m → Except Fault (Reading β l)}

theorem Matches.refl (x : Except Fault (Reading α n)) : Matches e x x := by
  cases x with
  | error fault => exact .fault rfl
  | ok r => exact .ok rfl (.same _)

/-- Reading in two parts, the second one of what the first one leaves. -/
theorem Matches.bind (h : Matches e x y)
    (hNext : ∀ r r', y = .ok r' → r'.value = r.value → Respaced e .outside r.rest r'.rest →
      Matches e (f r) (g r')) : Matches e (x >>= f) (y >>= g) := by
  cases h with
  | fault hCause => exact .fault hCause
  | fail fault y => exact .fail fault _
  | ok hValue hRest => exact hNext _ _ rfl hValue hRest

/-- What is read may be put to any use. -/
theorem Matches.keep (h : Matches e x y)
    (hKeep : ∀ r r', r'.value = r.value → ∃ s s', f r = .ok s ∧ g r' = .ok s' ∧
      s'.value = s.value ∧ s.rest = r.rest ∧ s'.rest = r'.rest) :
    Matches e (x >>= f) (y >>= g) := by
  refine h.bind fun r r' _ hValue hRest => ?_
  obtain ⟨s, s', hf, hg, hValue', hLeft, hLeft'⟩ := hKeep r r' hValue
  rw [hf, hg]
  rw [← hLeft, ← hLeft'] at hRest
  exact .ok hValue' hRest

theorem Matches.within (h : Matches e x y) {hn : n ≤ k} {hm : m ≤ l} :
    Matches e (x >>= fun r => pure (r.within hn)) (y >>= fun r => pure (r.within hm)) :=
  h.keep fun _ _ hValue => ⟨_, _, rfl, rfl, hValue, rfl, rfl⟩

/-- One reading is of a longer list than the other. -/
theorem matches_within (x : Except Fault (Reading α n)) (hm : n ≤ m) :
    Matches e x (x >>= fun r => pure (r.within hm)) := by
  cases x with
  | error fault => exact .fault rfl
  | ok r => exact .ok rfl (.same _)

/-- Both readings decide in the same way. -/
theorem Matches.ite {p : Prop} [Decidable p] {x' : Except Fault (Reading α n)}
    {y' : Except Fault (Reading α m)} (h : p → Matches e x y) (h' : ¬ p → Matches e x' y') :
    Matches e (if p then x else x') (if p then y else y') := by
  by_cases hp : p
  · rw [if_pos hp, if_pos hp]
    exact h hp
  · rw [if_neg hp, if_neg hp]
    exact h' hp

/-- A production that is entered in both lists, at whichever token. -/
theorem Matches.enter (depth : Nat) (t u : Token) (h : Matches e x y) :
    Matches e (c.enter depth t >>= fun _ => x) (c.enter depth u >>= fun _ => y) := by
  rw [Pair.enter_bind, Pair.enter_bind]
  exact .ite (fun _ => .fault rfl) fun _ => h

end Rules

-- ---------------------------------------------------------------------------
-- Productions
-- ---------------------------------------------------------------------------

/-- A backslash that is no escape hides a token that would not have mattered. -/
theorem Respaced.unhide (h : Respaced e .hidden more more') (hKind : t.kind = .backslash)
    (hEscape : ¬ Production.startsEscape t more = true) : Respaced e .double more more' := by
  cases h with
  | same => exact .same _
  | @cons _ _ u _ _ h hContinues =>
    have hNext : u.kind ≠ .doubleQuote ∧ u.kind ≠ .backslash := by
      simpa [Production.startsEscape, hKind] using hEscape
    rw [Quoting.step_hidden hNext.1 hNext.2] at h
    exact .cons h hContinues

/-- Behind a token of a string that neither closes it nor starts an escape. -/
theorem Respaced.plain {quote : Token.Kind} (hQuote : quote.isQuote = true)
    (h : Respaced e ((Quoting.outside.step quote).step t.kind) more more')
    (hClose : t.kind ≠ quote)
    (hEscape : ¬ (quote = .doubleQuote ∧ Production.startsEscape t more = true)) :
    Respaced e (Quoting.outside.step quote) more more' := by
  by_cases hHides : quote = .doubleQuote ∧ t.kind = .backslash
  · obtain ⟨rfl, hKind⟩ := hHides
    rw [hKind] at h
    exact Respaced.unhide h hKind fun hStart => hEscape ⟨rfl, hStart⟩
  · rwa [Quoting.step_inside hQuote hClose hHides] at h

/-- Behind an escape. -/
theorem Respaced.escaped {quote : Token.Kind}
    (h : Respaced e ((Quoting.outside.step quote).step t.kind) more more')
    (hQuote : quote = .doubleQuote) (hEscape : Production.startsEscape t more = true) :
    more'.take 1 = more.take 1 ∧
      Respaced e (Quoting.outside.step quote) (more.drop 1) (more'.drop 1) := by
  subst hQuote
  have hKind : t.kind = .backslash := by
    simp only [Production.startsEscape, Bool.and_eq_true, beq_iff_eq] at hEscape
    exact hEscape.1
  rw [hKind] at h
  cases h with
  | same => exact ⟨rfl, .same _⟩
  | cons h => exact ⟨rfl, h⟩

theorem quoted_matches {opener : Token} (hQuote : opener.kind.isQuote = true)
    (h : Respaced e (Quoting.outside.step opener.kind) ts us) :
    Matches e (quoted c opener ts) (quoted c opener us) := by
  obtain ⟨size, hSize⟩ : ∃ size, ts.length = size := ⟨_, rfl⟩
  induction size using Nat.strongRecOn generalizing ts us with
  | ind size ih =>
    cases h.faces with
    | nil => exact .refl _
    | breaks _ _ hOutside => exact absurd hOutside (Quoting.step_quote hQuote)
    | @cons t more more' hMore =>
      rw [List.length_cons] at hSize
      rw [quoted, quoted, hMore.startsEscape]
      by_cases hEnd : t.kind = .endOfInput
      · rw [if_pos hEnd, if_pos hEnd]
        exact .fault rfl
      rw [if_neg hEnd, if_neg hEnd]
      by_cases hClose : t.kind = opener.kind
      · rw [if_pos hClose, if_pos hClose]
        rw [hClose, Quoting.step_close hQuote] at hMore
        exact .ok rfl hMore
      rw [if_neg hClose, if_neg hClose]
      by_cases hEscape : opener.kind = .doubleQuote ∧ startsEscape t more = true
      · rw [if_pos hEscape, if_pos hEscape]
        obtain ⟨hHidden, hBehind⟩ := hMore.escaped hEscape.1 hEscape.2
        refine (ih (more.drop 1).length (by simp; omega) hBehind rfl).keep fun r r' hValue => ?_
        exact ⟨_, _, rfl, rfl, by rw [hValue, hHidden], rfl, rfl⟩
      · rw [if_neg hEscape, if_neg hEscape]
        have hPlain := hMore.plain hQuote hClose hEscape
        refine (ih more.length (by omega) hPlain rfl).keep fun r r' hValue => ?_
        exact ⟨_, _, rfl, rfl, by simp [hValue], rfl, rfl⟩

theorem closing_matches {r : Reading Tree n} {r' : Reading Tree m} (hValue : r'.value = r.value)
    (hRest : Respaced e .outside r.rest r'.rest) : Matches e (closing c r) (closing c r') := by
  obtain ⟨root, rest, hShort⟩ := r
  obtain ⟨root', rest', hShort'⟩ := r'
  obtain rfl : root' = root := hValue
  cases Respaced.faces hRest with
  | nil => exact .fault rfl
  | breaks ht hu =>
    rw [closing, closing, if_neg (ne_of_isBreak ht rfl), if_neg (ne_of_isBreak hu rfl)]
    exact .fault rfl
  | cons t h =>
    rw [closing, closing]
    by_cases hClose : t.kind = .rightParenthesis
    · rw [if_pos hClose, if_pos hClose]
      rw [hClose] at h
      exact .ok rfl h
    · rw [if_neg hClose, if_neg hClose]
      exact .fault rfl

/-- Whether a word ends is the same for both. -/
theorem atWordEnd_congr
    (hContinues : startsContinuation (t :: more') = startsContinuation (t :: more)) :
    atWordEnd t more' = atWordEnd t more := by
  rw [atWordEnd, atWordEnd, hContinues]

-- The recursion is that of the productions themselves: on what is left of the first list.
mutual

theorem piece_matches (role : WordRole) (depth : Nat) (t : Token) {more more' : List Token}
    (h : Respaced e (Quoting.outside.step t.kind) more more') :
    Matches e (piece c role depth t more) (piece c role depth t more') := by
  unfold piece
  rw [h.startsSubstitution]
  refine .ite (fun hQuote => ?_) fun hQuote => ?_
  · refine .enter depth t t ((quoted_matches hQuote h).keep fun r r' hValue => ?_)
    exact ⟨_, _, rfl, rfl, by simp [hValue], rfl, rfl⟩
  rw [Quoting.step_outside (by simpa using hQuote)] at h
  refine .ite (fun hStart => ?_) fun _ => ?_
  · have hParen : more.head?.map (·.kind) = some .leftParenthesis := by
      simpa using (Bool.and_eq_true_iff.1 hStart).2
    exact (substitution_matches depth t (h.drop rfl hParen)).within
  · exact .ok rfl h
termination_by 8 * (more.length + 1) + 0
decreasing_by all_goals simp; try omega

theorem substitution_matches (depth : Nat) (dollar : Token) {inside inside' : List Token}
    (h : Respaced e .outside inside inside') :
    Matches e (substitution c depth dollar inside) (substitution c depth dollar inside') := by
  unfold substitution
  refine .enter depth dollar dollar ((sequence_matches true (depth + 1) h).bind ?_)
  exact fun r r' _ hValue hRest => closing_matches hValue hRest
termination_by 8 * inside.length + 7
decreasing_by all_goals simp; try omega

theorem pieces_matches (role : WordRole) (depth : Nat) {ts us : List Token}
    (h : Respaced e .outside ts us) :
    Matches e (pieces c role depth ts) (pieces c role depth us) := by
  cases h.faces with
  | nil => exact .refl _
  | breaks ht hu =>
    rw [pieces, pieces, if_pos (atWordEnd_of_isBreak ht _), if_pos (atWordEnd_of_isBreak hu _)]
    exact .ok rfl h
  | @cons t more more' hMore hContinues =>
    rw [pieces, pieces, atWordEnd_congr hContinues]
    refine .ite (fun _ => .ok rfl h) fun _ => ?_
    refine (piece_matches role depth t hMore).bind fun first first' _ hFirst hRest => ?_
    have hShort := first.short
    exact (pieces_matches role depth hRest).keep fun r r' hValue =>
      ⟨_, _, rfl, rfl, by rw [hFirst, hValue], rfl, rfl⟩
termination_by 8 * ts.length + 1
decreasing_by all_goals subst_vars; simp; try omega

theorem word_matches (role : WordRole) (depth : Nat) (t : Token) {more more' : List Token}
    (h : Respaced e (Quoting.outside.step t.kind) more more') :
    Matches e (word c role depth t more) (word c role depth t more') := by
  unfold word
  refine .enter depth t t ((piece_matches role (depth + 1) t h).bind ?_)
  intro first first' _ hFirst hRest
  have hShort := first.short
  exact (pieces_matches role (depth + 1) hRest).keep fun r r' hValue =>
    ⟨_, _, rfl, rfl, by rw [hFirst, hValue], rfl, rfl⟩
termination_by 8 * (more.length + 1) + 1
decreasing_by all_goals simp; try omega

theorem assignment_matches (depth : Nat) (name : Token) {ts us : List Token}
    (h : Respaced e .outside ts us) :
    Matches e (assignment c depth name ts) (assignment c depth name us) := by
  cases h.faces with
  | nil => exact .refl _
  | breaks ht hu =>
    rw [assignment, assignment, if_pos (atWordEnd_of_isBreak ht _),
      if_pos (atWordEnd_of_isBreak hu _)]
    exact .enter depth name name (.ok rfl h)
  | @cons t more more' hMore hContinues =>
    rw [assignment, assignment, atWordEnd_congr hContinues]
    refine .enter depth name name (.ite (fun _ => .ok rfl h) fun _ => ?_)
    exact (word_matches .value (depth + 1) t hMore).keep fun r r' hValue =>
      ⟨_, _, rfl, rfl, by rw [hValue], rfl, rfl⟩
termination_by 8 * (ts.length + 1) + 1
decreasing_by all_goals subst_vars; simp; try omega

theorem part_matches (depth : Nat) (t : Token) {more more' : List Token}
    (h : Respaced e (Quoting.outside.step t.kind) more more') :
    Matches e (part c depth t more) (part c depth t more') := by
  unfold part
  rw [h.startsAssignment]
  refine .ite (fun hStart => ?_) fun _ => ?_
  · obtain ⟨hKind, -, equals, rest, rfl, hEquals⟩ := startsAssignment_iff.1 hStart
    rw [hKind] at h
    exact (assignment_matches depth t (h.drop rfl (congrArg some hEquals))).within
  · exact word_matches .argument depth t h
termination_by 8 * (more.length + 1) + 2
decreasing_by all_goals subst_vars; simp; try omega

theorem parts_matches (depth : Nat) {ts us : List Token} (h : Loose e ts us) :
    Matches e (parts c depth ts) (parts c depth us) := by
  cases h.fronts with
  | same => exact .refl _
  | space hSpace =>
    rw [parts_space hSpace]
    exact matches_within _ _
  | newline hSemicolon hNewline =>
    rw [parts_ends (by rw [hSemicolon]; rfl), parts_ends (by rw [hNewline]; rfl)]
    exact .ok rfl (.newline hSemicolon hNewline _)
  | @cons _ t more more' hFollows =>
    cases commandFront t more with
    | ends hEnds =>
      rw [parts_ends hEnds, parts_ends hEnds]
      exact .ok rfl hFollows.whole
    | space hSpace =>
      rw [parts_space hSpace, parts_space hSpace]
      exact (parts_matches depth (hFollows.skip (by rw [hSpace]; rfl))).within
    | continuation _ hContinuation =>
      rw [parts_continuation hContinuation,
        parts_continuation (hFollows.continues.trans hContinuation)]
      exact (parts_matches depth (hFollows.continued hContinuation)).within
    | word hOpen =>
      have hWord := hFollows.word (isBreak_of_open hOpen)
      rw [parts_word hOpen, parts_word ((atWordEnd_congr hFollows.continues).trans hOpen)]
      refine (part_matches depth t hWord).bind fun first first' _ hFirst hRest => ?_
      have hShort := first.short
      exact (parts_matches depth (.inl hRest)).keep fun r r' hValue =>
        ⟨_, _, rfl, rfl, by rw [hFirst, hValue], rfl, rfl⟩
termination_by 8 * ts.length + 3
decreasing_by all_goals subst_vars; simp; try omega

theorem command_matches (depth : Nat) (t : Token) {more more' : List Token}
    (h : Respaced e (Quoting.outside.step t.kind) more more') :
    Matches e (command c depth t more) (command c depth t more') := by
  unfold command
  refine .enter depth t t ((part_matches (depth + 1) t h).bind ?_)
  intro first first' _ hFirst hRest
  have hShort := first.short
  exact (parts_matches (depth + 1) (.inl hRest)).keep fun r r' hValue =>
    ⟨_, _, rfl, rfl, by rw [hFirst, hValue], rfl, rfl⟩
termination_by 8 * (more.length + 1) + 3
decreasing_by all_goals simp; try omega

theorem operand_matches (nested : Bool) (depth : Nat) (operator : Token) {ts us : List Token}
    (h : Loose e ts us) :
    Matches e (operand c nested depth operator ts) (operand c nested depth operator us) := by
  cases h.fronts with
  | same => exact .refl _
  | space hSpace =>
    rw [operand_space hSpace]
    exact matches_within _ _
  | newline hSemicolon =>
    -- The semicolon is a fault here.
    rw [operand_semicolon hSemicolon]
    exact .fail _ _
  | @cons _ t more more' hFollows =>
    cases front t more with
    | space hSpace =>
      rw [operand_space hSpace, operand_space hSpace]
      exact (operand_matches nested depth operator (hFollows.skip (by rw [hSpace]; rfl))).within
    | continuation _ hContinuation =>
      rw [operand_continuation hContinuation,
        operand_continuation (hFollows.continues.trans hContinuation)]
      exact (operand_matches nested depth operator (hFollows.continued hContinuation)).within
    | separator hSeparator =>
      by_cases hNewline : t.kind = .newline
      · rw [operand_newline hNewline, operand_newline hNewline]
        exact (operand_matches nested depth operator
          (hFollows.skip (by rw [hNewline]; rfl))).within
      · have hSemicolon := eq_semicolon hSeparator hNewline
        rw [operand_semicolon hSemicolon, operand_semicolon hSemicolon]
        exact .fault rfl
    | operator hOperator =>
      rw [operand_operator hOperator, operand_operator hOperator]
      exact .fault rfl
    | finish hEnd =>
      rw [operand_finish hEnd, operand_finish hEnd]
      exact .ite (fun _ => .fault rfl) fun _ => .fault rfl
    | close hParen =>
      rw [operand_close hParen, operand_close hParen]
      exact .ite (fun _ => .fault rfl) fun _ => .fault rfl
    | word hOpen =>
      have hWord := hFollows.word (isBreak_of_open hOpen)
      rw [operand_word hOpen, operand_word ((atWordEnd_congr hFollows.continues).trans hOpen)]
      exact (command_matches depth t hWord).within
termination_by 8 * ts.length + 4
decreasing_by all_goals subst_vars; simp; try omega

theorem chain_matches (nested : Bool) (depth : Nat) (item : Item) {ts us : List Token}
    (h : Respaced e .outside ts us) {u : Token} {rest : List Token} (hFront : us = u :: rest)
    (hEnds : u.kind.endsCommand = true) :
    Matches e (chain c nested depth item ts) (chain c nested depth item us) := by
  cases Loose.fronts (.inl h) with
  | same => exact .refl _
  | space hSpace =>
    -- A command has skipped the blanks behind it.
    obtain ⟨rfl, -⟩ := List.cons.inj hFront
    rw [hSpace] at hEnds
    cases hEnds
  | newline hSemicolon hNewline =>
    rw [chain, chain, if_neg (by simp [hSemicolon, Token.Kind.isOperator]),
      if_neg (by simp [hNewline, Token.Kind.isOperator])]
    exact .ok rfl h
  | @cons _ t more more' hFollows =>
    unfold chain
    refine .ite (fun hOperator => .ite (fun _ => .fault rfl) fun _ => ?_) fun _ => .ok rfl h
    have hLoose := hFollows.skip (Grammar.not_isQuote_of_isOperator hOperator)
    refine (operand_matches nested depth t hLoose).bind fun next next' hOk hNext hRest => ?_
    obtain ⟨v, others, hLeft, hStops⟩ := operand_rest hOk
    have hShort := next.short
    rw [hNext]
    exact (chain_matches nested depth (item.join t.kind next.value) hRest hLeft hStops).within
termination_by 8 * ts.length + 5
decreasing_by all_goals subst_vars; simp; try omega

theorem items_matches (nested : Bool) (depth : Nat) (done : List Tree) {ts us : List Token}
    (h : Loose e ts us) :
    Matches e (items c nested depth done ts) (items c nested depth done us) := by
  cases h.fronts with
  | same => exact .refl _
  | space hSpace =>
    rw [items_space hSpace]
    exact matches_within _ _
  | newline hSemicolon hNewline =>
    rw [items_separator (by rw [hSemicolon]; rfl), items_separator (by rw [hNewline]; rfl)]
    exact .within (.refl _)
  | @cons _ t more more' hFollows =>
    cases front t more with
    | space hSpace =>
      rw [items_space hSpace, items_space hSpace]
      exact (items_matches nested depth done (hFollows.skip (by rw [hSpace]; rfl))).within
    | continuation _ hContinuation =>
      rw [items_continuation hContinuation,
        items_continuation (hFollows.continues.trans hContinuation)]
      exact (items_matches nested depth done (hFollows.continued hContinuation)).within
    | separator hSeparator =>
      have hQuote := not_isQuote_of_isBreak (t := t) (by simp [Token.Kind.isBreak, hSeparator])
      rw [items_separator hSeparator, items_separator hSeparator]
      exact (items_matches nested depth done (hFollows.skip hQuote)).within
    | operator hOperator =>
      rw [items_operator hOperator, items_operator hOperator]
      exact .fault rfl
    | finish hEnd =>
      have hLeft := hFollows.word (by rw [hEnd]; rfl)
      rw [hEnd] at hLeft
      rw [items_finish hEnd, items_finish hEnd]
      refine .ite (fun _ => .fault rfl) fun _ => ?_
      cases done with
      | nil => exact .fault rfl
      | cons first others => exact .ok rfl hLeft
    | close hParen =>
      rw [items_close hParen, items_close hParen]
      refine .ite (fun _ => ?_) fun _ => .fault rfl
      cases done with
      | nil => exact .fault rfl
      | cons first others => exact .ok rfl hFollows.whole
    | word hOpen =>
      have hWord := hFollows.word (isBreak_of_open hOpen)
      rw [items_word hOpen, items_word ((atWordEnd_congr hFollows.continues).trans hOpen)]
      refine (command_matches depth t hWord).bind fun first first' hOk hFirst hBehind => ?_
      obtain ⟨u, rest, hLeft, hStops⟩ := command_rest hOk
      have hFirstShort := first.short
      rw [hFirst]
      refine (chain_matches nested depth (.single first.value) hBehind hLeft hStops).bind
        fun item item' _ hItem hRest => ?_
      have hItemShort := item.short
      rw [hItem]
      exact (items_matches nested depth (done ++ [item.value]) (.inl hRest)).within
termination_by 8 * ts.length + 5
decreasing_by all_goals subst_vars; simp; try omega

/-- A sequence is read in the same way in both lists. -/
theorem sequence_matches (nested : Bool) (depth : Nat) {ts us : List Token}
    (h : Respaced e .outside ts us) :
    Matches e (sequence c nested depth ts) (sequence c nested depth us) := by
  have hItems : Matches e (items c nested (depth + 1) [] ts) (items c nested (depth + 1) [] us) :=
    items_matches nested (depth + 1) [] (.inl h)
  cases h.faces with
  | nil => exact .refl _
  | @breaks t u =>
    rw [sequence, sequence]
    exact .enter depth t u hItems
  | cons t =>
    rw [sequence, sequence]
    exact .enter depth t t hItems
termination_by 8 * ts.length + 6
decreasing_by all_goals simp; try omega

end

-- ---------------------------------------------------------------------------
-- Whole lists
-- ---------------------------------------------------------------------------

/-- A change at one place, behind tokens that close every string that they open. A backslash
must not come to stand before a newline, nor cease to. -/
theorem Respaced.append {front : List Token} (h : Respaced e .outside ts us)
    (hOutside : q.after (front.map (·.kind)) = .outside)
    (hJoint : front.getLast?.map (·.kind) = some .backslash →
      (us.head?.map (·.kind) == some .newline) = (ts.head?.map (·.kind) == some .newline)) :
    Respaced e q (front ++ ts) (front ++ us) := by
  induction front generalizing q with
  | nil =>
    obtain rfl : q = .outside := hOutside
    exact h
  | cons t front ih =>
    rw [List.cons_append, List.cons_append]
    refine .cons (ih hOutside fun hLast => hJoint ?_) ?_
    · cases front with
      | nil => cases hLast
      | cons u front => simpa using hLast
    · rw [startsContinuation_cons, startsContinuation_cons]
      cases front with
      | cons u front => rfl
      | nil =>
        by_cases hKind : t.kind = .backslash
        · rw [List.nil_append, List.nil_append, hJoint (by simp [hKind])]
        · rw [beq_eq_false_iff_ne.2 hKind, Bool.false_and, Bool.false_and]

/-- What can be wrong behind a sequence. -/
theorem checkEnd_cause {tokens : List Token} {r : Reading Tree n} {fault : Fault}
    (h : checkEnd tokens r = .error fault) :
    fault.cause = .missingEnd ∨ fault.cause = .afterEnd := by
  rw [checkEnd] at h
  split at h
  · exact .inl (by rw [← Except.error.inj h])
  · split at h
    · cases h
    · exact .inr (by rw [← Except.error.inj h]; rfl)

/-- A list whose only end is its last token is read as its sequence is. -/
theorem parseTokens_eq_map {body : List Token} {last : Token} (limit : Int) (hBody : Endless body)
    (hLast : last.kind = .endOfInput) :
    parseTokens (body ++ [last]) limit =
      (sequence ⟨limit, some last⟩ false 0 (body ++ [last])).map (·.value) := by
  cases hParse : parseTokens (body ++ [last]) limit with
  | ok tree =>
    obtain ⟨r, hSequence, -, -, rfl⟩ := parseTokens_eq_ok_iff.1 hParse
    rw [List.getLast?_concat] at hSequence
    rw [hSequence]
    rfl
  | error fault =>
    obtain ⟨t, -, -, hShows⟩ := parseTokens_fault_of_end hBody hLast hParse
    rw [parseTokens, List.getLast?_concat] at hParse
    cases hSequence : sequence ⟨limit, some last⟩ false 0 (body ++ [last]) with
    | error fault' =>
      rw [hSequence] at hParse
      exact hParse.symm
    | ok r =>
      rw [hSequence] at hParse
      rcases checkEnd_cause hParse with hCause | hCause <;>
      · rw [hCause] at hShows
        exact hShows.elim

/-- Two lists whose only end is the last token, which is the same. -/
theorem parseTokens_matches {body body' : List Token} {last : Token} (limit : Int)
    (hBody : Endless body) (hBody' : Endless body') (hLast : last.kind = .endOfInput)
    (h : Respaced e .outside (body ++ [last]) (body' ++ [last])) :
    (∃ tree, parseTokens (body ++ [last]) limit = .ok tree ∧
        parseTokens (body' ++ [last]) limit = .ok tree) ∨
      ∃ fault, parseTokens (body ++ [last]) limit = .error fault ∧
        (e = .blank → ∃ fault', parseTokens (body' ++ [last]) limit = .error fault' ∧
          fault'.cause = fault.cause) := by
  have hMatches := sequence_matches (c := ⟨limit, some last⟩) false 0 h
  rw [parseTokens_eq_map limit hBody hLast, parseTokens_eq_map limit hBody' hLast]
  generalize sequence _ false 0 (body ++ [last]) = x at hMatches ⊢
  generalize sequence _ false 0 (body' ++ [last]) = y at hMatches ⊢
  cases hMatches with
  | fault hCause => exact .inr ⟨_, rfl, fun _ => ⟨_, rfl, hCause⟩⟩
  | ok hValue => exact .inl ⟨_, rfl, congrArg Except.ok hValue⟩
  | fail fault y => exact .inr ⟨_, rfl, nofun⟩

end Descent

/-- Two outcomes are the same as to what is said of them: the same tree, or a fault of the
same category in the same words. -/
def Agree : Except Failure Tree → Except Failure Tree → Prop
  | .ok tree, .ok tree' => tree' = tree
  | .error (.fault fault), .error (.fault fault') =>
    fault'.report.category = fault.report.category ∧ fault'.report.detail = fault.report.detail
  | _, _ => False

theorem Agree.eq_ok {result : Except Failure Tree} {tree : Tree} (h : Agree (.ok tree) result) :
    result = .ok tree := by
  cases result with
  | ok tree' => exact congrArg Except.ok h
  | error why => exact h.elim

open Descent (Endless Respaced)

/-- A blank next to a token that stands between words makes no difference. -/
theorem agree_of_respaced {body body' : List Token} {last : Token}
    (h : Respaced .blank .outside (body ++ [last]) (body' ++ [last])) (limit : Int)
    (hBody : Endless body) (hBody' : Endless body') (hLast : last.kind = .endOfInput) :
    Agree (parseTokens (body ++ [last]) limit) (parseTokens (body' ++ [last]) limit) := by
  rw [parseTokens, parseTokens, Machine.outcome_readTree, Machine.outcome_readTree]
  rcases Descent.parseTokens_matches limit hBody hBody' hLast h with
    ⟨tree, hTree, hTree'⟩ | ⟨fault, hFault, hSame⟩
  · rw [hTree, hTree']
    exact rfl
  · obtain ⟨fault', hFault', hCause⟩ := hSame rfl
    rw [hFault, hFault']
    exact ⟨congrArg Fault.Cause.category hCause, congrArg Fault.Cause.detail hCause⟩

/-- A newline does where a semicolon does. -/
theorem parseTokens_of_respaced {body body' : List Token} {last : Token} {tree : Tree}
    (h : Respaced .newline .outside (body ++ [last]) (body' ++ [last])) {limit : Int}
    (hBody : Endless body) (hBody' : Endless body') (hLast : last.kind = .endOfInput)
    (hTree : parseTokens (body ++ [last]) limit = .ok tree) :
    parseTokens (body' ++ [last]) limit = .ok tree := by
  rw [parseTokens, Machine.outcome_readTree] at hTree ⊢
  rcases Descent.parseTokens_matches limit hBody hBody' hLast h with
    ⟨tree', hTree', hAgain⟩ | ⟨fault, hFault, -⟩
  · rw [hTree'] at hTree
    rw [hAgain]
    exact hTree
  · rw [hFault] at hTree
    cases hTree

/-- **Blanks and separators.** Outside strings, a blank may be put next to a blank, a separator
or an operator, though not between a backslash and a newline: the list has the same tree or
the same fault. And a newline may take the place of a semicolon that a list is read with, if
there is no backslash before it. -/
theorem parseTokens_respaced {front back : List Token} {t last : Token} (limit : Int)
    (hEndless : Endless (front ++ t :: back)) (hLast : last.kind = .endOfInput)
    (hOutside : Quoting.outside.after (front.map (·.kind)) = .outside) :
    (∀ space : Token, space.kind = .space → t.kind.isBreak = true →
      (¬ (front.getLast?.map (·.kind) = some .backslash ∧ t.kind = .newline) →
        Agree (parseTokens (front ++ t :: back ++ [last]) limit)
          (parseTokens (front ++ space :: t :: back ++ [last]) limit)) ∧
      Agree (parseTokens (front ++ t :: back ++ [last]) limit)
        (parseTokens (front ++ t :: space :: back ++ [last]) limit)) ∧
    ∀ (newline : Token) (tree : Tree), t.kind = .semicolon → newline.kind = .newline →
      front.getLast?.map (·.kind) ≠ some .backslash →
      parseTokens (front ++ t :: back ++ [last]) limit = .ok tree →
      parseTokens (front ++ newline :: back ++ [last]) limit = .ok tree := by
  obtain ⟨hFront, hRest⟩ := Descent.endless_append.1 hEndless
  obtain ⟨ht, hBack⟩ := Descent.endless_cons.1 hRest
  refine ⟨fun space hSpace hBreak => ⟨fun hJoint => ?_, ?_⟩, ?_⟩
  · refine agree_of_respaced ?_ limit hEndless ?_ hLast
    · rw [List.append_assoc, List.append_assoc]
      refine Respaced.append (.before hBreak hSpace _) hOutside fun hBackslash => ?_
      have hNewline : t.kind ≠ .newline := fun hNewline => hJoint ⟨hBackslash, hNewline⟩
      simp [hSpace, hNewline]
    · exact Descent.endless_append.2 ⟨hFront, Descent.endless_cons.2 ⟨by simp [hSpace], hRest⟩⟩
  · refine agree_of_respaced ?_ limit hEndless ?_ hLast
    · rw [List.append_assoc, List.append_assoc]
      exact Respaced.append (.behind hBreak hSpace _) hOutside fun _ => rfl
    · refine Descent.endless_append.2 ⟨hFront, Descent.endless_cons.2 ⟨ht, ?_⟩⟩
      exact Descent.endless_cons.2 ⟨by simp [hSpace], hBack⟩
  · intro newline tree hSemicolon hNewline hJoint hTree
    refine parseTokens_of_respaced ?_ hEndless ?_ hLast hTree
    · rw [List.append_assoc, List.append_assoc]
      exact Respaced.append (.newline hSemicolon hNewline _) hOutside fun hBackslash =>
        absurd hBackslash hJoint
    · exact Descent.endless_append.2 ⟨hFront, Descent.endless_cons.2 ⟨by simp [hNewline], hBack⟩⟩

/-- A semicolon behind a string, in which there is another one. -/
theorem parseTokens_respaced_string :
    let word : Token := ⟨.word, ['a'], 0⟩
    let quote : Token := ⟨.singleQuote, ['\x27'], 0⟩
    let semicolon : Token := ⟨.semicolon, [';'], 0⟩
    let space : Token := ⟨.space, [' '], 0⟩
    let newline : Token := ⟨.newline, ['\n'], 0⟩
    let last : Token := ⟨.endOfInput, [], 0⟩
    ∃ tree, parseTokens [quote, semicolon, quote, semicolon, word, last] 4 = .ok tree ∧
      parseTokens [quote, semicolon, quote, space, semicolon, word, last] 4 = .ok tree ∧
      parseTokens [quote, semicolon, quote, semicolon, space, word, last] 4 = .ok tree ∧
      parseTokens [quote, semicolon, quote, newline, word, last] 4 = .ok tree := by
  intro word quote semicolon space newline last
  have hOk : (parseTokens [quote, semicolon, quote, semicolon, word, last] 4).isOk = true := by cbv
  obtain ⟨tree, hTree⟩ := exists_of_isOk hOk
  have hEndless : Endless ([quote, semicolon, quote] ++ semicolon :: [word]) := by
    simp [Endless, word, quote, semicolon]
  have hLast : last.kind = .endOfInput := rfl
  obtain ⟨hBlank, hNewline⟩ := parseTokens_respaced 4 hEndless hLast rfl
  obtain ⟨hBefore, hBehind⟩ := hBlank space rfl rfl
  have hBefore := hBefore (by decide)
  change Agree (parseTokens [quote, semicolon, quote, semicolon, word, last] 4) _ at hBefore hBehind
  rw [hTree] at hBefore hBehind
  exact ⟨tree, hTree, hBefore.eq_ok, hBehind.eq_ok,
    hNewline newline tree rfl rfl (by decide) hTree⟩

end ShellReader
