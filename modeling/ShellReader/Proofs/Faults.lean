import ShellReader.Proofs.Offsets
import ShellReader.Proofs.RoundTrip

/-!
# ShellReader — what goes wrong, and where

A list of tokens that has no tree has a fault, whatever the list: the machine is never
misused, and two of the causes a fault may have never come about. The tokens behind an
assignment or a substitution that is entered have been looked at before, so a token of
another kind is never met there (`mismatch`); and a nested sequence is read up to a
closing parenthesis or not at all, so no other token is met there (`unclosedSubstitution`).

A fault shows at a token of the list, and its cause says of which kind. The one
exception is a list that runs out, which has no end token. The tokens of a command line
have one, so every fault of a command line is about a piece of the line.

## Results

* `Descent.sequence_sane` — a sequence is read to its end, or its tokens explain why not.
* `parseTokens_ok_or_fault` — a token list has a tree or a fault of an ordinary cause.
* `parse_fault_located` — a fault of a command line is classified, and shows at a token
  of the line.
-/

namespace ShellReader

-- ---------------------------------------------------------------------------
-- Causes and tokens
-- ---------------------------------------------------------------------------

/-- Whether a cause shows at a token of this kind and text. -/
def Fault.Cause.ShowsAt : Fault.Cause → Token → Prop
  | .unexpected text, t =>
    (t.kind.isOperator = true ∧ text = t.text) ∨ (t.kind = .rightParenthesis ∧ text = [')'])
  | .noCommandAfter _, t =>
    t.kind = .semicolon ∨ t.kind = .endOfInput ∨ t.kind = .rightParenthesis
  | .noCommand, t => t.kind = .endOfInput ∨ t.kind = .rightParenthesis
  | .openString _, t | .openSubstitution, t => t.kind = .endOfInput
  | .tooManyCommands _, t => t.kind.isOperator = true
  | .tooDeep _, _ => True
  | .missingEnd, _ | .afterEnd, _ | .mismatch .., _ | .unclosedSubstitution, _ => False

namespace Descent

open Grammar (Closes)
open Production (startsAssignment atWordEnd startsEscape)

variable {c : Context} {depth n m : Nat} {t : Token} {ts us more : List Token}
  {role : WordRole} {α β : Type}

/-- The end is not among the tokens. -/
def Endless (ts : List Token) : Prop := ∀ t ∈ ts, t.kind ≠ .endOfInput

theorem endless_nil : Endless [] := by simp [Endless]

theorem endless_cons : Endless (t :: ts) ↔ t.kind ≠ .endOfInput ∧ Endless ts := by
  simp [Endless]

theorem endless_append : Endless (ts ++ us) ↔ Endless ts ∧ Endless us := by
  simp only [Endless, List.mem_append, or_imp, forall_and]

/-- The tokens explain the fault: they have no end, or the fault shows at one of them. -/
def Explains (c : Context) (ts : List Token) (fault : Fault) : Prop :=
  (fault = c.missingEnd ∧ Endless ts) ∨
    ∃ t ∈ ts, fault.token = some t ∧ fault.cause.ShowsAt t

/-- What reading `ts` may come to. It reads tokens without an end and leaves what `L`
allows it to leave, or `ts` explains the fault. -/
def Sane (c : Context) (ts : List Token) (L : List Token → List Token → Prop) :
    Except Fault (Reading α n) → Prop
  | .ok r => ∃ read tail, ts = read ++ tail ∧ Endless read ∧ L tail r.rest
  | .error fault => Explains c ts fault

-- ---------------------------------------------------------------------------
-- Rules for sane results
-- ---------------------------------------------------------------------------

section Rules

variable {L L' : List Token → List Token → Prop} {x : Except Fault (Reading α n)}
  {f : Reading α n → Except Fault (Reading β m)}

theorem Explains.behind {fault : Fault} (front : List Token) (hFront : Endless front)
    (h : Explains c ts fault) : Explains c (front ++ ts) fault := by
  rcases h with ⟨hCause, hEnd⟩ | ⟨t, ht, hFault⟩
  · exact .inl ⟨hCause, endless_append.2 ⟨hFront, hEnd⟩⟩
  · exact .inr ⟨t, List.mem_append_right _ ht, hFault⟩

/-- Tokens in front that are read first. -/
theorem Sane.behind (front : List Token) (hFront : Endless front) (h : Sane c ts L x) :
    Sane c (front ++ ts) L x := by
  cases x with
  | error fault => exact Explains.behind front hFront h
  | ok r =>
    obtain ⟨read, tail, rfl, hRead, hTail⟩ := h
    exact ⟨front ++ read, tail, by simp, endless_append.2 ⟨hFront, hRead⟩, hTail⟩

/-- Reading in two parts, the second one of what the first one leaves. -/
theorem Sane.bind (h : Sane c ts L x)
    (hNext : ∀ r tail, L tail r.rest → Sane c tail L' (f r)) : Sane c ts L' (x >>= f) := by
  cases x with
  | error fault => exact h
  | ok r =>
    obtain ⟨read, tail, rfl, hRead, hTail⟩ := h
    exact (hNext r tail hTail).behind read hRead

/-- A reading that leaves what `L` allows. -/
theorem Sane.ok {r : Reading α n} (h : L ts r.rest) : Sane c ts L (.ok r) :=
  ⟨[], ts, rfl, endless_nil, h⟩

/-- What is read may be put to any use. -/
theorem Sane.keep (h : Sane c ts L x) (hKeep : ∀ r, ∃ r', f r = .ok r' ∧ r'.rest = r.rest) :
    Sane c ts L (x >>= f) := by
  refine h.bind fun r tail hTail => ?_
  obtain ⟨r', hr, hRest⟩ := hKeep r
  rw [hr]
  exact .ok (hRest ▸ hTail)

/-- A fault that shows at one of the tokens. -/
theorem Sane.fault {cause : Fault.Cause} (ht : t ∈ ts) (h : cause.ShowsAt t) :
    Sane c ts L (.error (.atToken t cause) : Except Fault (Reading α n)) :=
  .inr ⟨t, ht, rfl, h⟩

/-- Nothing is left to read. -/
theorem Sane.missing : Sane c [] L (.error c.missingEnd : Except Fault (Reading α n)) :=
  .inl ⟨rfl, endless_nil⟩

/-- A production that is entered at one of the tokens. -/
theorem Sane.enter {f : Unit → Except Fault (Reading α n)} (ht : t ∈ ts)
    (h : Sane c ts L (f ())) : Sane c ts L (c.enter depth t >>= f) := by
  rw [Context.enter]
  by_cases hFull : c.limit ≤ depth
  · rw [if_pos hFull]
    exact .fault ht trivial
  · rw [if_neg hFull]
    exact h

end Rules

-- ---------------------------------------------------------------------------
-- Words
-- ---------------------------------------------------------------------------

/-- A token that does not end a word is no end. -/
theorem endless_of_atWordEnd (h : atWordEnd t more = false) : Endless [t] :=
  endless_cons.2 ⟨(atWordEnd_eq_false.1 h).2.2.2.2.1, endless_nil⟩

theorem quoted_sane (opener : Token) (ts : List Token) :
    Sane c ts Eq (quoted c opener ts) := by
  fun_induction quoted c opener ts with
  | case1 => exact .missing
  | case2 t more hEnd => exact .fault (by simp) hEnd
  | case3 t more hEnd hClose =>
    exact Sane.behind [t] (endless_cons.2 ⟨hEnd, endless_nil⟩) (.ok rfl)
  | case4 t more hEnd hClose hEscape ih =>
    cases more with
    | nil => simp [startsEscape] at hEscape
    | cons u more =>
      have hNext : u.kind ≠ .endOfInput := by
        intro hKind
        simp [startsEscape, hKind] at hEscape
      refine Sane.behind [t, u] (endless_cons.2 ⟨hEnd, endless_cons.2 ⟨hNext, endless_nil⟩⟩) ?_
      exact ih.keep fun r => ⟨_, rfl, rfl⟩
  | case5 t more hEnd hClose hEscape ih =>
    refine Sane.behind [t] (endless_cons.2 ⟨hEnd, endless_nil⟩) ?_
    exact ih.keep fun r => ⟨_, rfl, rfl⟩

/-- Nested sequences shorter than `n` are sane. -/
def NestedSane (c : Context) (n : Nat) : Prop :=
  ∀ (depth : Nat) (ts : List Token), ts.length < n →
    Sane c ts (Closes true) (sequence c true depth ts)

/-- Behind a nested sequence there is nothing but the parenthesis that closes it. -/
theorem substitution_sane (hNested : NestedSane c n) {dollar paren : Token}
    {inside : List Token} (hLength : inside.length < n) (hDollar : dollar.kind = .dollar)
    (hParen : paren.kind = .leftParenthesis) :
    Sane c (dollar :: paren :: inside) Eq (substitution c depth dollar inside) := by
  have hFront : Endless [dollar, paren] := by simp [Endless, hDollar, hParen]
  rw [substitution]
  refine Sane.enter (by simp) ((hNested (depth + 1) inside hLength).behind _ hFront |>.bind ?_)
  rintro ⟨root, rest, hShort⟩ tail ⟨close, behind, rfl, hClose, rfl⟩
  rw [closing, if_pos hClose]
  exact Sane.behind [close] (by simp [Endless, hClose]) (.ok rfl)

theorem piece_sane (hNested : NestedSane c n) (hLength : more.length ≤ n)
    (hOpen : atWordEnd t more = false) :
    Sane c (t :: more) Eq (piece c role depth t more) := by
  rw [piece]
  by_cases hQuote : t.kind.isQuote = true
  · rw [if_pos hQuote]
    refine Sane.enter (by simp) (Sane.behind [t] (endless_of_atWordEnd hOpen) ?_)
    exact (quoted_sane t more).keep fun r => ⟨_, rfl, rfl⟩
  rw [if_neg hQuote]
  by_cases hStart : startsSubstitution t more = true
  · rw [if_pos hStart]
    obtain ⟨hDollar, paren, inside, rfl, hParen⟩ := startsSubstitution_iff.1 hStart
    rw [List.length_cons] at hLength
    exact (substitution_sane hNested (by omega) hDollar hParen).keep fun r => ⟨_, rfl, rfl⟩
  · rw [if_neg hStart]
    exact Sane.behind [t] (endless_of_atWordEnd hOpen) (.ok rfl)

theorem pieces_sane (hNested : NestedSane c n) (hLength : ts.length ≤ n) :
    Sane c ts Eq (pieces c role depth ts) := by
  obtain ⟨size, hSize⟩ : ∃ size, ts.length = size := ⟨_, rfl⟩
  induction size using Nat.strongRecOn generalizing ts with
  | ind size ih =>
    rw [pieces.eq_def]
    cases ts with
    | nil => exact .missing
    | cons t more =>
      rw [List.length_cons] at hLength hSize
      dsimp only
      by_cases hEnd : atWordEnd t more = true
      · rw [if_pos hEnd]
        exact .ok rfl
      · rw [if_neg hEnd]
        refine (piece_sane hNested (by omega) (by simpa using hEnd)).bind ?_
        rintro first _ rfl
        have hShort := first.short
        exact (ih first.rest.length (by omega) (by omega) rfl).keep fun r => ⟨_, rfl, rfl⟩

theorem word_sane (hNested : NestedSane c n) (hLength : more.length ≤ n)
    (hOpen : atWordEnd t more = false) :
    Sane c (t :: more) Eq (word c role depth t more) := by
  rw [word]
  refine Sane.enter (by simp) ((piece_sane hNested hLength hOpen).bind ?_)
  rintro first _ rfl
  have hShort := first.short
  exact (pieces_sane hNested (by omega)).keep fun r => ⟨_, rfl, rfl⟩

-- ---------------------------------------------------------------------------
-- Commands
-- ---------------------------------------------------------------------------

theorem assignment_sane (hNested : NestedSane c n) {name equals : Token}
    (hLength : ts.length ≤ n) (hName : name.kind = .word) (hEquals : equals.kind = .equals) :
    Sane c (name :: equals :: ts) Eq (assignment c depth name ts) := by
  have hFront : Endless [name, equals] := by simp [Endless, hName, hEquals]
  rw [assignment.eq_def]
  cases ts with
  | nil => exact Sane.enter (by simp) (Sane.behind _ hFront .missing)
  | cons t more =>
    rw [List.length_cons] at hLength
    refine Sane.enter (by simp) (Sane.behind [name, equals] hFront ?_)
    by_cases hEnd : atWordEnd t more = true
    · rw [if_pos hEnd]
      exact .ok rfl
    · rw [if_neg hEnd]
      exact (word_sane hNested (by omega) (by simpa using hEnd)).keep fun r => ⟨_, rfl, rfl⟩

theorem part_sane (hNested : NestedSane c n) (hLength : more.length ≤ n)
    (hOpen : atWordEnd t more = false) : Sane c (t :: more) Eq (part c depth t more) := by
  rw [part]
  by_cases hStart : startsAssignment t more = true
  · rw [if_pos hStart]
    obtain ⟨hName, -, equals, rest, rfl, hEquals⟩ := startsAssignment_iff.1 hStart
    exact (assignment_sane hNested (Nat.le_of_succ_le hLength) hName hEquals).keep
      fun r => ⟨_, rfl, rfl⟩
  · rw [if_neg hStart]
    exact word_sane hNested hLength hOpen

theorem parts_sane (hNested : NestedSane c n) (hLength : ts.length ≤ n) :
    Sane c ts Eq (parts c depth ts) := by
  obtain ⟨size, hSize⟩ : ∃ size, ts.length = size := ⟨_, rfl⟩
  induction size using Nat.strongRecOn generalizing ts with
  | ind size ih =>
    cases ts with
    | nil =>
      rw [parts]
      exact .missing
    | cons t more =>
      rw [List.length_cons] at hLength hSize
      cases commandFront t more with
      | ends hEnds =>
        rw [parts_ends hEnds]
        exact .ok rfl
      | space hSpace =>
        rw [parts_space hSpace]
        refine Sane.behind [t] (by simp [Endless, hSpace]) ?_
        exact (ih more.length (by omega) (by omega) rfl).keep fun r => ⟨_, rfl, rfl⟩
      | continuation hKind hContinuation =>
        rw [parts_continuation hContinuation]
        obtain ⟨-, u, rest, rfl, hNewline⟩ := startsContinuation_iff.1 hContinuation
        rw [List.length_cons] at hLength hSize
        refine Sane.behind [t, u] (by simp [Endless, hKind, hNewline]) ?_
        exact (ih rest.length (by omega) (by omega) rfl).keep fun r => ⟨_, rfl, rfl⟩
      | word hOpen =>
        rw [parts_word hOpen]
        refine (part_sane hNested (by omega) hOpen).bind ?_
        rintro first _ rfl
        have hShort := first.short
        exact (ih first.rest.length (by omega) (by omega) rfl).keep fun r => ⟨_, rfl, rfl⟩

theorem command_sane (hNested : NestedSane c n) (hLength : more.length ≤ n)
    (hOpen : atWordEnd t more = false) :
    Sane c (t :: more) Eq (command c depth t more) := by
  rw [command]
  refine Sane.enter (by simp) ((part_sane hNested hLength hOpen).bind ?_)
  rintro first _ rfl
  have hShort := first.short
  exact (parts_sane hNested (by omega)).keep fun r => ⟨_, rfl, rfl⟩

-- ---------------------------------------------------------------------------
-- Sequences
-- ---------------------------------------------------------------------------

theorem operand_sane (hNested : NestedSane c n) {nested : Bool} (operator : Token)
    (hLength : ts.length ≤ n) : Sane c ts Eq (operand c nested depth operator ts) := by
  obtain ⟨size, hSize⟩ : ∃ size, ts.length = size := ⟨_, rfl⟩
  induction size using Nat.strongRecOn generalizing ts with
  | ind size ih =>
    cases ts with
    | nil =>
      rw [operand]
      exact .missing
    | cons t more =>
      rw [List.length_cons] at hLength hSize
      cases front t more with
      | space hKind =>
        rw [operand_space hKind]
        refine Sane.behind [t] (by simp [Endless, hKind]) ?_
        exact (ih more.length (by omega) (by omega) rfl).keep fun r => ⟨_, rfl, rfl⟩
      | continuation hKind hContinuation =>
        rw [operand_continuation hContinuation]
        obtain ⟨-, u, rest, rfl, hNewline⟩ := startsContinuation_iff.1 hContinuation
        rw [List.length_cons] at hLength hSize
        refine Sane.behind [t, u] (by simp [Endless, hKind, hNewline]) ?_
        exact (ih rest.length (by omega) (by omega) rfl).keep fun r => ⟨_, rfl, rfl⟩
      | separator hSeparator =>
        by_cases hNewline : t.kind = .newline
        · rw [operand_newline hNewline]
          refine Sane.behind [t] (by simp [Endless, hNewline]) ?_
          exact (ih more.length (by omega) (by omega) rfl).keep fun r => ⟨_, rfl, rfl⟩
        · have hKind := eq_semicolon hSeparator hNewline
          rw [operand_semicolon hKind]
          exact .fault (by simp) (.inl hKind)
      | operator hOperator =>
        rw [operand_operator hOperator]
        exact .fault (by simp) (.inl ⟨hOperator, rfl⟩)
      | finish hKind =>
        rw [operand_finish hKind]
        cases nested with
        | true => exact .fault (by simp) hKind
        | false => exact .fault (by simp) (.inr (.inl hKind))
      | close hKind =>
        rw [operand_close hKind]
        cases nested with
        | true => exact .fault (by simp) (.inr (.inr hKind))
        | false => exact .fault (by simp) (.inr ⟨hKind, rfl⟩)
      | word hOpen =>
        rw [operand_word hOpen]
        exact (command_sane hNested (by omega) hOpen).keep fun r => ⟨_, rfl, rfl⟩

theorem chain_sane (hNested : NestedSane c n) {nested : Bool} (item : Item)
    (hLength : ts.length ≤ n) : Sane c ts Eq (chain c nested depth item ts) := by
  obtain ⟨size, hSize⟩ : ∃ size, ts.length = size := ⟨_, rfl⟩
  induction size using Nat.strongRecOn generalizing ts item with
  | ind size ih =>
    rw [chain.eq_def]
    cases ts with
    | nil => exact .missing
    | cons t more =>
      rw [List.length_cons] at hLength hSize
      dsimp only
      by_cases hOperator : t.kind.isOperator = true
      · rw [if_pos hOperator]
        by_cases hFull : c.limit ≤ item.operands
        · rw [if_pos hFull]
          exact .fault (by simp) hOperator
        · rw [if_neg hFull]
          have hKind : t.kind ≠ .endOfInput := by
            intro hKind
            simp [hKind, Token.Kind.isOperator] at hOperator
          refine Sane.behind [t] (endless_cons.2 ⟨hKind, endless_nil⟩) ?_
          refine (operand_sane hNested t (by omega)).bind ?_
          rintro next _ rfl
          have hShort := next.short
          exact (ih next.rest.length (by omega) _ (by omega) rfl).keep fun r => ⟨_, rfl, rfl⟩
      · rw [if_neg hOperator]
        exact .ok rfl

theorem items_sane (hNested : NestedSane c n) {nested : Bool} (done : List Tree)
    (hLength : ts.length ≤ n) :
    Sane c ts (Closes nested) (items c nested depth done ts) := by
  obtain ⟨size, hSize⟩ : ∃ size, ts.length = size := ⟨_, rfl⟩
  induction size using Nat.strongRecOn generalizing ts done with
  | ind size ih =>
    cases ts with
    | nil =>
      rw [items]
      exact .missing
    | cons t more =>
      rw [List.length_cons] at hLength hSize
      cases front t more with
      | space hKind =>
        rw [items_space hKind]
        refine Sane.behind [t] (by simp [Endless, hKind]) ?_
        exact (ih more.length (by omega) _ (by omega) rfl).keep fun r => ⟨_, rfl, rfl⟩
      | continuation hKind hContinuation =>
        rw [items_continuation hContinuation]
        obtain ⟨-, u, rest, rfl, hNewline⟩ := startsContinuation_iff.1 hContinuation
        rw [List.length_cons] at hLength hSize
        refine Sane.behind [t, u] (by simp [Endless, hKind, hNewline]) ?_
        exact (ih rest.length (by omega) _ (by omega) rfl).keep fun r => ⟨_, rfl, rfl⟩
      | separator hSeparator =>
        rw [items_separator hSeparator]
        have hEnd : t.kind ≠ .endOfInput := by
          intro hKind
          simp [hKind, Token.Kind.isSeparator] at hSeparator
        refine Sane.behind [t] (endless_cons.2 ⟨hEnd, endless_nil⟩) ?_
        exact (ih more.length (by omega) _ (by omega) rfl).keep fun r => ⟨_, rfl, rfl⟩
      | operator hOperator =>
        rw [items_operator hOperator]
        exact .fault (by simp) (.inl ⟨hOperator, rfl⟩)
      | finish hKind =>
        rw [items_finish hKind]
        cases nested with
        | true => exact .fault (by simp) hKind
        | false =>
          cases done with
          | nil => exact .fault (by simp) (.inl hKind)
          | cons first others => exact .ok ⟨t, more, rfl, hKind, rfl⟩
      | close hKind =>
        rw [items_close hKind]
        cases nested with
        | true =>
          cases done with
          | nil => exact .fault (by simp) (.inr hKind)
          | cons first others => exact .ok ⟨t, more, rfl, hKind, rfl⟩
        | false => exact .fault (by simp) (.inr ⟨hKind, rfl⟩)
      | word hOpen =>
        rw [items_word hOpen]
        refine (command_sane hNested (by omega) hOpen).bind ?_
        rintro first _ rfl
        have hFirst := first.short
        refine (chain_sane hNested _ (by omega)).bind ?_
        rintro item _ rfl
        have hShort := item.short
        exact (ih item.rest.length (by omega) _ (by omega) rfl).keep fun r => ⟨_, rfl, rfl⟩

/-- Sequences as long as the nested ones that are known to be sane. -/
theorem sequence_sane_of_nested (hNested : NestedSane c n) (nested : Bool) (depth : Nat)
    (hLength : ts.length ≤ n) :
    Sane c ts (Closes nested) (sequence c nested depth ts) := by
  rw [sequence.eq_def]
  cases ts with
  | nil => exact .missing
  | cons t more => exact Sane.enter (by simp) (items_sane hNested [] hLength)

theorem nestedSane (c : Context) (n : Nat) : NestedSane c n := by
  induction n with
  | zero =>
    intro depth ts hLength
    exact absurd hLength (Nat.not_lt_zero _)
  | succ n ih =>
    intro depth ts hLength
    exact sequence_sane_of_nested ih true depth (Nat.le_of_lt_succ hLength)

/-- A sequence is read to its end, or its tokens explain why not. -/
theorem sequence_sane (c : Context) (nested : Bool) (depth : Nat) (ts : List Token) :
    Sane c ts (Closes nested) (sequence c nested depth ts) :=
  sequence_sane_of_nested (nestedSane c ts.length) nested depth (Nat.le_refl _)

-- ---------------------------------------------------------------------------
-- Whole lists
-- ---------------------------------------------------------------------------

/-- A sequence that closes at an end has read it, so all depends on what is behind it. -/
theorem checkEnd_of_end {tokens read : List Token} {r : Reading Tree n}
    (hTokens : tokens = read ++ t :: r.rest) (hEnd : t.kind = .endOfInput) :
    checkEnd tokens r = match r.rest with
      | [] => .ok r.value
      | next :: _ => .error (.atToken next .afterEnd) := by
  have hRead : tokens.take (tokens.length - r.rest.length) = read ++ [t] := by
    have hLength : tokens.length - r.rest.length = (read ++ [t]).length := by
      simp [hTokens]
      omega
    rw [hLength, hTokens, List.append_cons read t r.rest, List.take_left]
  unfold checkEnd
  dsimp only
  rewrite [hRead, List.getLast?_concat, Option.map_some, hEnd, if_neg (not_not_intro rfl)]
  cases r.rest <;> rfl

/-- Nothing but more tokens behind the end can be wrong there. -/
theorem checkEnd_error {tokens read : List Token} {r : Reading Tree n} {fault : Fault}
    (hTokens : tokens = read ++ t :: r.rest) (hEnd : t.kind = .endOfInput)
    (h : checkEnd tokens r = .error fault) :
    ∃ next more, r.rest = next :: more ∧ fault = .atToken next .afterEnd := by
  rw [checkEnd_of_end hTokens hEnd] at h
  cases hRest : r.rest with
  | nil =>
    rw [hRest] at h
    cases h
  | cons next more =>
    rw [hRest] at h
    exact ⟨next, more, rfl, (Except.error.inj h).symm⟩

/-- The fault of a token list: there is no end, or there is more behind the end, or the
fault shows at one of the tokens. -/
theorem parseTokens_fault {tokens : List Token} {limit : Int} {fault : Fault}
    (h : parseTokens tokens limit = .error fault) :
    (fault.cause = .missingEnd ∧ Endless tokens) ∨
      (fault.cause = .afterEnd ∧
        ∃ read t next more, tokens = read ++ t :: next :: more ∧ t.kind = .endOfInput) ∨
      ∃ t ∈ tokens, fault.token = some t ∧ fault.cause.ShowsAt t := by
  have hSane := sequence_sane ⟨limit, tokens.getLast?⟩ false 0 tokens
  rw [parseTokens] at h
  cases hSequence : sequence ⟨limit, tokens.getLast?⟩ false 0 tokens with
  | error fault' =>
    rw [hSequence] at h hSane
    obtain rfl : fault' = fault := Except.error.inj h
    rcases hSane with ⟨rfl, hEndless⟩ | hShows
    · exact .inl ⟨rfl, hEndless⟩
    · exact .inr (.inr hShows)
  | ok r =>
    rw [hSequence] at h hSane
    obtain ⟨read, tail, hTokens, -, t, more, rfl, hEnd, hRest⟩ := hSane
    rw [← hRest] at hTokens
    obtain ⟨next, behind, hBehind, rfl⟩ := checkEnd_error hTokens hEnd h
    rw [hBehind] at hTokens
    exact .inr (.inl ⟨rfl, read, t, next, behind, hTokens, hEnd⟩)

/-- Where the only end is the last token, the fault shows at one of the tokens. -/
theorem parseTokens_fault_of_end {body : List Token} {last : Token} {limit : Int}
    {fault : Fault} (hBody : Endless body) (hLast : last.kind = .endOfInput)
    (h : parseTokens (body ++ [last]) limit = .error fault) :
    ∃ t ∈ body ++ [last], fault.token = some t ∧ fault.cause.ShowsAt t := by
  rcases parseTokens_fault h with ⟨-, hEndless⟩ | ⟨-, read, t, next, more, hTokens, hEnd⟩ | hShows
  · exact absurd hLast (hEndless last (by simp))
  · -- The end before the last token would be in the body.
    have hInit : body = (read ++ t :: next :: more).dropLast := by
      rw [← hTokens, List.dropLast_concat]
    have hMem : t ∈ body := by
      rw [hInit, List.dropLast_append_cons]
      simp
    exact absurd hEnd (hBody t hMem)
  · exact hShows

end Descent

namespace Fault

/-- Every fault is of a special category. -/
theorem Cause.category_ne_general (cause : Cause) : cause.category ≠ .general := by
  cases cause <;> simp [category]

/-- The category of a fault that shows at a token, and what kinds of tokens it shows at. -/
theorem Cause.ShowsAt.category {cause : Cause} {t : Token} (h : cause.ShowsAt t) :
    cause.category ∈ [Category.unexpectedToken, .unterminatedString,
        .unterminatedSubstitution, .nestingTooDeep] ∧
      (cause.category = .unterminatedString ∨ cause.category = .unterminatedSubstitution →
        t.kind = .endOfInput) ∧
      (cause.category = .unexpectedToken → t.kind ∈ [Token.Kind.endOfInput, .semicolon,
        .rightParenthesis, .pipe, .andIf, .orIf]) := by
  cases cause with
  | unexpected text =>
    refine ⟨by simp [Cause.category], by simp [Cause.category], fun _ => ?_⟩
    rcases h with ⟨hOperator, -⟩ | ⟨hKind, -⟩
    · rcases Descent.eq_of_isOperator hOperator with hKind | hKind | hKind <;> simp [hKind]
    · simp [hKind]
  | noCommandAfter operator =>
    refine ⟨by simp [Cause.category], by simp [Cause.category], fun _ => ?_⟩
    rcases h with hKind | hKind | hKind <;> simp [hKind]
  | noCommand =>
    refine ⟨by simp [Cause.category], by simp [Cause.category], fun _ => ?_⟩
    rcases h with hKind | hKind <;> simp [hKind]
  | openString quote => exact ⟨by simp [Cause.category], fun _ => h, by simp [Cause.category]⟩
  | openSubstitution => exact ⟨by simp [Cause.category], fun _ => h, by simp [Cause.category]⟩
  | tooDeep limit => simp [Cause.category]
  | tooManyCommands limit => simp [Cause.category]
  | missingEnd => exact h.elim
  | afterEnd => exact h.elim
  | mismatch wanted found => exact h.elim
  | unclosedSubstitution => exact h.elim

end Fault

/-- **No internal failure.** Whatever the tokens and the limit, there is a tree or a fault;
the machine is not misused, and no fault is due to a token of a kind that was not called
for or to a substitution whose commands are read and that is not closed. -/
theorem parseTokens_ok_or_fault (tokens : List Token) (limit : Int) :
    (∃ tree, parseTokens tokens limit = .ok tree) ∨
      ∃ fault, parseTokens tokens limit = .error (.fault fault) ∧
        fault.cause.category ≠ .general ∧
        (∀ wanted found, fault.cause ≠ .mismatch wanted found) ∧
        fault.cause ≠ .unclosedSubstitution := by
  rw [parseTokens, Machine.outcome_readTree]
  cases h : Descent.parseTokens tokens limit with
  | ok tree => exact .inl ⟨tree, rfl⟩
  | error fault =>
    refine .inr ⟨fault, rfl, fault.cause.category_ne_general, ?_⟩
    rcases Descent.parseTokens_fault h with ⟨hCause, -⟩ | ⟨hCause, -⟩ | ⟨t, -, -, hShows⟩
    · simp [hCause]
    · simp [hCause]
    · constructor
      · intro wanted found hCause
        rw [hCause] at hShows
        exact hShows
      · intro hCause
        rw [hCause] at hShows
        exact hShows

/-- The end of a command line is the last of its tokens and no other. -/
theorem tokenize_endless (line : Text) :
    ∃ body last, tokenize line = body ++ [last] ∧ last.kind = .endOfInput ∧
      Descent.Endless body := by
  obtain ⟨body, last, hTokens, hLast, ⟨hFits, -⟩, -⟩ := tokenize_sound line
  refine ⟨body, last, hTokens, congrArg Prod.fst hLast, fun t ht hKind => ?_⟩
  have hText := hFits t ht
  rw [hKind] at hText
  cases hText

/-- **Faults are located.** A command line without a tree has a fault that is no structural
one and shows at a token of the line, whose text stands in the line at the token's offset.
What is unterminated shows at the end, and what is merely unexpected at an end, a
separator, a closing parenthesis or an operator. -/
theorem parse_fault_located {line : Text} {limit : Int} {why : Failure}
    (h : parse line limit = .error why) :
    ∃ fault t, why = .fault fault ∧ fault.token = some t ∧ t ∈ tokenize line ∧
      (0 ≤ t.offset ∧ (line.drop t.offset.toNat).take t.text.length = t.text) ∧
      fault.cause.category ∈ [Fault.Category.unexpectedToken, .unterminatedString,
        .unterminatedSubstitution, .nestingTooDeep] ∧
      (fault.cause.category = .unterminatedString ∨
          fault.cause.category = .unterminatedSubstitution → t.kind = .endOfInput) ∧
      (fault.cause.category = .unexpectedToken → t.kind ∈ [Token.Kind.endOfInput, .semicolon,
        .rightParenthesis, .pipe, .andIf, .orIf]) := by
  obtain ⟨body, last, hTokens, hLast, hBody⟩ := tokenize_endless line
  rw [parse, parseTokens, Machine.outcome_readTree, hTokens] at h
  cases hFault : Descent.parseTokens (body ++ [last]) limit with
  | ok tree =>
    rw [hFault] at h
    cases h
  | error fault =>
    rw [hFault] at h
    obtain ⟨t, ht, hToken, hShows⟩ := Descent.parseTokens_fault_of_end hBody hLast hFault
    rw [← hTokens] at ht
    exact ⟨fault, t, (Except.error.inj h).symm, hToken, ht, tokenize_slice ht, hShows.category⟩

/-- A separator where a command is called for, behind blanks that belong to no token. -/
theorem parse_fault_located_operand :
    parse "\n a | ;".toList 7 =
        .error (.fault ⟨.noCommandAfter ['|'], some ⟨.semicolon, [';'], 6⟩⟩) ∧
      (⟨.semicolon, [';'], 6⟩ : Token) ∈ tokenize "\n a | ;".toList := by
  have hError : parse "\n a | ;".toList 7 =
      .error (.fault ⟨.noCommandAfter ['|'], some ⟨.semicolon, [';'], 6⟩⟩) := by cbv
  obtain ⟨fault, t, hWhy, hToken, hMem, -⟩ := parse_fault_located hError
  obtain rfl := Failure.fault.inj hWhy
  obtain rfl := Option.some.inj hToken
  exact ⟨hError, hMem⟩

end ShellReader
