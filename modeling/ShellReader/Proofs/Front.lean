import ShellReader.Proofs.Descent

/-!
# ShellReader — what stands in front

A sequence and a command choose what to do by the token in front of them, and by the one
behind it where that token is a backslash. The machine and recursive descent choose in the
same way, with chains of conditions in which the order counts. Here the conditions are taken
apart: there are seven kinds of fronts for a sequence and four for a command, and for each of
them one equation says what the machine answers and what recursive descent does.

Proofs about either of the two follow the fronts and rewrite with these equations, so that the
order of the conditions does not show in them.

* `Front`, `CommandFront` — what can stand in front of a sequence and of a command, with
  `front` and `commandFront` saying that there is nothing else;
* `Production.respondSequence_space` and the like — what the machine answers;
* `parts_space`, `operand_space`, `items_space` and the like — what recursive descent does.

## Results

* `parts_rest`, `command_rest`, `operand_rest` — a command is read up to a token that ends
  one.
-/

namespace ShellReader

namespace Descent

open Production (startsAssignment atWordEnd)

-- ---------------------------------------------------------------------------
-- Fronts
-- ---------------------------------------------------------------------------

/-- What a sequence tells apart when it looks at the token in front of it. -/
inductive Front (t : Token) (more : List Token) : Prop where
  | space (h : t.kind = .space)
  | continuation (hKind : t.kind = .backslash)
      (h : Token.startsContinuation (t :: more) = true)
  | separator (h : t.kind.isSeparator = true)
  | operator (h : t.kind.isOperator = true)
  | finish (h : t.kind = .endOfInput)
  | close (h : t.kind = .rightParenthesis)
  | word (h : atWordEnd t more = false)

/-- Only a backslash continues a line. -/
theorem startsContinuation_of_ne {t : Token} {more : List Token} (h : t.kind ≠ .backslash) :
    Token.startsContinuation (t :: more) = false := by
  cases more <;> simp [Token.startsContinuation, h]

theorem startsContinuation_cons (t : Token) (more : List Token) :
    Token.startsContinuation (t :: more) =
      (t.kind == .backslash && more.head?.map (·.kind) == some .newline) := by
  cases more <;> simp [Token.startsContinuation]

/-- A continuation is a backslash and a newline. -/
theorem startsContinuation_iff {t : Token} {more : List Token} :
    Token.startsContinuation (t :: more) = true ↔
      t.kind = .backslash ∧ ∃ u rest, more = u :: rest ∧ u.kind = .newline := by
  cases more <;> simp [Token.startsContinuation]

/-- A substitution starts with a `$` and a parenthesis. -/
theorem startsSubstitution_iff {t : Token} {more : List Token} :
    startsSubstitution t more = true ↔ t.kind = .dollar ∧
      ∃ paren inside, more = paren :: inside ∧ paren.kind = .leftParenthesis := by
  cases more <;> simp [startsSubstitution]

/-- An assignment starts with an identifier and an `=`. -/
theorem startsAssignment_iff {t : Token} {more : List Token} :
    startsAssignment t more = true ↔ t.kind = .word ∧ t.text.isIdentifier = true ∧
      ∃ equals rest, more = equals :: rest ∧ equals.kind = .equals := by
  cases more with
  | nil => simp [startsAssignment]
  | cons equals rest =>
    simp only [startsAssignment, List.head?_cons, Option.map_some, Bool.and_eq_true,
      beq_iff_eq, Option.some.injEq, List.cons.injEq]
    constructor
    · rintro ⟨⟨hKind, hEquals⟩, hText⟩
      exact ⟨hKind, hText, equals, rest, ⟨rfl, rfl⟩, hEquals⟩
    · rintro ⟨hKind, hText, _, _, ⟨rfl, rfl⟩, hEquals⟩
      exact ⟨⟨hKind, hEquals⟩, hText⟩

/-- Two kinds separate items. -/
theorem isSeparator_eq_false {k : Token.Kind} :
    k.isSeparator = false ↔ k ≠ .newline ∧ k ≠ .semicolon := by
  cases k <;> simp [Token.Kind.isSeparator]

/-- A separator that is no newline is a semicolon. -/
theorem eq_semicolon {k : Token.Kind} (h : k.isSeparator = true) (hNewline : k ≠ .newline) :
    k = .semicolon := by
  cases k <;> simp [Token.Kind.isSeparator] at h hNewline ⊢

/-- A separator is no blank. -/
theorem of_isSeparator {t : Token} (more : List Token) (h : t.kind.isSeparator = true) :
    t.kind ≠ .space ∧ Token.startsContinuation (t :: more) = false := by
  have hKind : t.kind = .newline ∨ t.kind = .semicolon := by
    cases hKind : t.kind <;> simp [hKind, Token.Kind.isSeparator] at h ⊢
  rcases hKind with hKind | hKind <;> simp [hKind, startsContinuation_of_ne]

theorem eq_of_isOperator {kind : Token.Kind} (h : kind.isOperator = true) :
    kind = .pipe ∨ kind = .andIf ∨ kind = .orIf := by
  cases kind <;> simp [Token.Kind.isOperator] at h ⊢

/-- An operator is none of what a sequence looks for before it. -/
theorem of_isOperator {t : Token} (more : List Token) (h : t.kind.isOperator = true) :
    t.kind ≠ .space ∧ Token.startsContinuation (t :: more) = false ∧
      t.kind.isSeparator = false := by
  rcases eq_of_isOperator h with hKind | hKind | hKind <;>
    simp [hKind, Token.Kind.isSeparator, startsContinuation_of_ne]

/-- What does not end a word does not end a command either, and is no blank. -/
theorem atWordEnd_eq_false {t : Token} {more : List Token} :
    atWordEnd t more = false ↔ t.kind ≠ .space ∧
      Token.startsContinuation (t :: more) = false ∧ t.kind.isSeparator = false ∧
      t.kind.isOperator = false ∧ t.kind ≠ .endOfInput ∧ t.kind ≠ .rightParenthesis := by
  simp only [atWordEnd, Token.Kind.endsArgument, Token.Kind.endsCommand, Bool.or_eq_false_iff,
    beq_eq_false_iff_ne]
  tauto

/-- There is nothing else. -/
theorem front (t : Token) (more : List Token) : Front t more := by
  by_cases hContinuation : Token.startsContinuation (t :: more) = true
  · refine .continuation (Decidable.byContradiction fun hKind => ?_) hContinuation
    rw [startsContinuation_of_ne hKind] at hContinuation
    exact Bool.noConfusion hContinuation
  · cases hKind : t.kind <;>
      first
      | exact .space hKind
      | exact .separator (by rw [hKind]; rfl)
      | exact .finish hKind
      | exact .close hKind
      | exact .operator (by rw [hKind]; rfl)
      | exact .word (atWordEnd_eq_false.2 (by simp [hKind, hContinuation,
          Token.Kind.isSeparator, Token.Kind.isOperator]))

/-- What a command tells apart when it looks at the token in front of it. -/
inductive CommandFront (t : Token) (more : List Token) : Prop where
  | ends (h : t.kind.endsCommand = true)
  | space (h : t.kind = .space)
  | continuation (hKind : t.kind = .backslash)
      (h : Token.startsContinuation (t :: more) = true)
  | word (h : atWordEnd t more = false)

theorem commandFront (t : Token) (more : List Token) : CommandFront t more := by
  cases front t more with
  | space h => exact .space h
  | continuation hKind h => exact .continuation hKind h
  | separator h => exact .ends (by simp [Token.Kind.endsCommand, h])
  | operator h => exact .ends (by simp [Token.Kind.endsCommand, h])
  | finish h => exact .ends (by simp [Token.Kind.endsCommand, h])
  | close h => exact .ends (by simp [Token.Kind.endsCommand, h])
  | word h => exact .word h

end Descent

-- ---------------------------------------------------------------------------
-- Answers of the machine
-- ---------------------------------------------------------------------------

namespace Production

section Sequence

variable {limit : Int} {t operator : Token} {more : List Token} {nested : Bool}
  {items : List (List Part)} {current : List Part}

theorem respondSequence_space (h : t.kind = .space) :
    respondSequence limit t more nested items current =
      .read 1 (.sequence nested items current) := by
  rw [respondSequence, if_pos h]

theorem respondSequence_continuation (h : Token.startsContinuation (t :: more) = true) :
    respondSequence limit t more nested items current =
      .read 2 (.sequence nested items current) := by
  obtain ⟨hKind, -⟩ := Descent.startsContinuation_iff.1 h
  rw [respondSequence, if_neg (by simp [hKind]), if_pos h]

/-- A separator ends an item. -/
theorem respondSequence_separator (h : t.kind.isSeparator = true)
    (hAwaiting : awaiting? current = none) :
    respondSequence limit t more nested items current =
      .read 1 (.sequence nested (finished items current) []) := by
  obtain ⟨hSpace, hContinuation⟩ := Descent.of_isSeparator more h
  rw [respondSequence, if_neg hSpace, if_neg (by simp [hContinuation]), if_pos h, hAwaiting]

/-- Behind an operator a newline is skipped. -/
theorem respondSequence_newline (h : t.kind = .newline)
    (hAwaiting : awaiting? current = some operator) :
    respondSequence limit t more nested items current =
      .read 1 (.sequence nested items current) := by
  obtain ⟨hSpace, hContinuation⟩ := Descent.of_isSeparator (t := t) more (by rw [h]; rfl)
  rw [respondSequence, if_neg hSpace, if_neg (by simp [hContinuation]),
    if_pos (by rw [h]; rfl), hAwaiting]
  exact if_pos h

theorem respondSequence_semicolon (h : t.kind = .semicolon)
    (hAwaiting : awaiting? current = some operator) :
    respondSequence limit t more nested items current =
      .faultAt t (.noCommandAfter operator.text) := by
  obtain ⟨hSpace, hContinuation⟩ := Descent.of_isSeparator (t := t) more (by rw [h]; rfl)
  rw [respondSequence, if_neg hSpace, if_neg (by simp [hContinuation]),
    if_pos (by rw [h]; rfl), hAwaiting]
  exact if_neg (by simp [h])

theorem respondSequence_operator (h : t.kind.isOperator = true) :
    respondSequence limit t more nested items current =
      if current.isEmpty || (awaiting? current).isSome then .faultAt t (.unexpected t.text)
      else if limit ≤ operands current then .faultAt t (.tooManyCommands limit)
      else .read 1 (.sequence nested items (current ++ [.token t])) := by
  obtain ⟨hSpace, hContinuation, hSeparator⟩ := Descent.of_isOperator more h
  rw [respondSequence, if_neg hSpace, if_neg (by simp [hContinuation]),
    if_neg (by simp [hSeparator]), if_pos h]

theorem respondSequence_finish (h : t.kind = .endOfInput) :
    respondSequence limit t more nested items current =
      if nested then .faultAt t .openSubstitution
      else closeSequence t 1 nested items current := by
  simp [respondSequence, h, Descent.startsContinuation_of_ne, Token.Kind.isSeparator,
    Token.Kind.isOperator]

theorem respondSequence_close (h : t.kind = .rightParenthesis) :
    respondSequence limit t more nested items current =
      if nested then closeSequence t 0 nested items current
      else .faultAt t (.unexpected [')']) := by
  simp [respondSequence, h, Descent.startsContinuation_of_ne, Token.Kind.isSeparator,
    Token.Kind.isOperator]

theorem respondSequence_word (h : atWordEnd t more = false) :
    respondSequence limit t more nested items current = .spawn (.command []) := by
  simp [respondSequence, Descent.atWordEnd_eq_false.1 h]

end Sequence

section Command

variable {t : Token} {more : List Token} {parts : List ProductionId}

theorem respondCommand_ends (h : t.kind.endsCommand = true) :
    respondCommand t more parts = .leave 0 (.command parts) := by
  rw [respondCommand, if_pos h]

theorem respondCommand_space (h : t.kind = .space) :
    respondCommand t more parts = .read 1 (.command parts) := by
  rw [respondCommand, if_neg (by rw [h]; decide), if_pos h]

theorem respondCommand_continuation (h : Token.startsContinuation (t :: more) = true) :
    respondCommand t more parts = .advance 2 (.command parts) (some .continuation) false := by
  obtain ⟨hKind, -⟩ := Descent.startsContinuation_iff.1 h
  rw [respondCommand, if_neg (by rw [hKind]; decide), if_neg (by simp [hKind]), if_pos h]

theorem respondCommand_word (h : atWordEnd t more = false) :
    respondCommand t more parts =
      if startsAssignment t more then .spawn (.assignment none none)
      else .spawn (.word .argument []) := by
  obtain ⟨hSpace, hContinuation, hSeparator, hOperator, hEnd, hParen⟩ :=
    Descent.atWordEnd_eq_false.1 h
  have hEnds : ¬ t.kind.endsCommand = true := by
    simp [Token.Kind.endsCommand, hSeparator, hOperator, hEnd, hParen]
  rw [respondCommand, if_neg hEnds, if_neg hSpace, if_neg (by simp [hContinuation])]

end Command

end Production

-- ---------------------------------------------------------------------------
-- Steps of recursive descent
-- ---------------------------------------------------------------------------

namespace Descent

open Production (atWordEnd)

section Step

variable {c : Context} {nested : Bool} {depth : Nat} {operator t : Token} {more : List Token}
  {done : List Tree}

theorem parts_ends (h : t.kind.endsCommand = true) :
    parts c depth (t :: more) = .ok ⟨[], t :: more, Nat.le_refl _⟩ := by
  rw [parts, if_pos h]

theorem parts_space (h : t.kind = .space) :
    parts c depth (t :: more) = parts c depth more >>= fun r => pure (r.within (by simp)) := by
  have hEnds : ¬ t.kind.endsCommand = true := by
    rw [h]
    decide
  rw [parts, if_neg hEnds, if_pos h]

theorem parts_continuation (h : Token.startsContinuation (t :: more) = true) :
    parts c depth (t :: more) =
      parts c depth (more.drop 1) >>= fun r =>
        pure (r.within (Nat.le_succ_of_le (List.drop_sublist 1 more).length_le)) := by
  obtain ⟨hKind, -⟩ := startsContinuation_iff.1 h
  have hEnds : ¬ t.kind.endsCommand = true := by
    rw [hKind]
    decide
  rw [parts, if_neg hEnds, if_neg (by simp [hKind]), if_pos h]

theorem parts_word (h : atWordEnd t more = false) :
    parts c depth (t :: more) = (do
      let first ← part c depth t more
      let others ← parts c depth first.rest
      return ⟨first.value :: others.value, others.rest,
        Nat.le_succ_of_le (Nat.le_trans others.short first.short)⟩) := by
  obtain ⟨hSpace, hContinuation, hSeparator, hOperator, hEnd, hParen⟩ := atWordEnd_eq_false.1 h
  have hEnds : ¬ t.kind.endsCommand = true := by
    simp [Token.Kind.endsCommand, hSeparator, hOperator, hEnd, hParen]
  rw [parts, if_neg hEnds, if_neg hSpace, if_neg (by simp [hContinuation])]

theorem operand_space (h : t.kind = .space) :
    operand c nested depth operator (t :: more) =
      operand c nested depth operator more >>= fun r => pure (r.within (by simp)) := by
  rw [operand, if_pos h]

theorem operand_continuation (h : Token.startsContinuation (t :: more) = true) :
    operand c nested depth operator (t :: more) =
      operand c nested depth operator (more.drop 1) >>= fun r =>
        pure (r.within (Nat.le_succ_of_le (List.drop_sublist 1 more).length_le)) := by
  obtain ⟨hKind, -⟩ := startsContinuation_iff.1 h
  rw [operand, if_neg (by simp [hKind]), if_pos h]

theorem operand_newline (h : t.kind = .newline) :
    operand c nested depth operator (t :: more) =
      operand c nested depth operator more >>= fun r => pure (r.within (by simp)) := by
  rw [operand, if_neg (by simp [h]), if_neg (by simp [startsContinuation_of_ne, h]), if_pos h]

theorem operand_semicolon (h : t.kind = .semicolon) :
    operand c nested depth operator (t :: more) =
      .error (.atToken t (.noCommandAfter operator.text)) := by
  rw [operand, if_neg (by simp [h]), if_neg (by simp [startsContinuation_of_ne, h]),
    if_neg (by simp [h]), if_pos h]

theorem operand_operator (h : t.kind.isOperator = true) :
    operand c nested depth operator (t :: more) = .error (.atToken t (.unexpected t.text)) := by
  obtain ⟨hSpace, hContinuation, hSeparator⟩ := of_isOperator more h
  obtain ⟨hNewline, hSemicolon⟩ := isSeparator_eq_false.1 hSeparator
  rw [operand, if_neg hSpace, if_neg (by simp [hContinuation]), if_neg hNewline,
    if_neg hSemicolon, if_pos h]

theorem operand_finish (h : t.kind = .endOfInput) :
    operand c nested depth operator (t :: more) =
      if nested then .error (.atToken t .openSubstitution)
      else .error (.atToken t (.noCommandAfter operator.text)) := by
  rw [operand]
  simp [h, startsContinuation_of_ne, Token.Kind.isOperator]

theorem operand_close (h : t.kind = .rightParenthesis) :
    operand c nested depth operator (t :: more) =
      if nested then .error (.atToken t (.noCommandAfter operator.text))
      else .error (.atToken t (.unexpected [')'])) := by
  rw [operand]
  simp [h, startsContinuation_of_ne, Token.Kind.isOperator]

theorem operand_word (h : atWordEnd t more = false) :
    operand c nested depth operator (t :: more) =
      command c depth t more >>= fun r => pure (r.within (by simp)) := by
  obtain ⟨hSpace, hContinuation, hSeparator, hOperator, hEnd, hParen⟩ := atWordEnd_eq_false.1 h
  obtain ⟨hNewline, hSemicolon⟩ := isSeparator_eq_false.1 hSeparator
  rw [operand, if_neg hSpace, if_neg (by simp [hContinuation]), if_neg hNewline,
    if_neg hSemicolon, if_neg (by simp [hOperator]), if_neg hEnd, if_neg hParen]

theorem items_space (h : t.kind = .space) :
    items c nested depth done (t :: more) =
      items c nested depth done more >>= fun r => pure (r.within (by simp)) := by
  rw [items.eq_def]
  dsimp only
  rw [if_pos h]

theorem items_continuation (h : Token.startsContinuation (t :: more) = true) :
    items c nested depth done (t :: more) =
      items c nested depth done (more.drop 1) >>= fun r =>
        pure (r.within (Nat.le_succ_of_le (List.drop_sublist 1 more).length_le)) := by
  obtain ⟨hKind, -⟩ := startsContinuation_iff.1 h
  rw [items.eq_def]
  dsimp only
  rw [if_neg (by simp [hKind]), if_pos h]

theorem items_separator (h : t.kind.isSeparator = true) :
    items c nested depth done (t :: more) =
      items c nested depth done more >>= fun r => pure (r.within (by simp)) := by
  obtain ⟨hSpace, hContinuation⟩ := of_isSeparator more h
  rw [items.eq_def]
  dsimp only
  rw [if_neg hSpace, if_neg (by simp [hContinuation]), if_pos h]

theorem items_operator (h : t.kind.isOperator = true) :
    items c nested depth done (t :: more) = .error (.atToken t (.unexpected t.text)) := by
  obtain ⟨hSpace, hContinuation, hSeparator⟩ := of_isOperator more h
  rw [items.eq_def]
  dsimp only
  rw [if_neg hSpace, if_neg (by simp [hContinuation]), if_neg (by simp [hSeparator]), if_pos h]

theorem items_finish (h : t.kind = .endOfInput) :
    items c nested depth done (t :: more) =
      if nested then .error (.atToken t .openSubstitution)
      else match done with
        | [] => .error (.atToken t .noCommand)
        | first :: others => .ok ⟨.node .root first others none, more, by simp⟩ := by
  rw [items.eq_def]
  cases done <;>
    simp [h, startsContinuation_of_ne, Token.Kind.isOperator, Token.Kind.isSeparator]

theorem items_close (h : t.kind = .rightParenthesis) :
    items c nested depth done (t :: more) =
      if nested then match done with
        | [] => .error (.atToken t .noCommand)
        | first :: others => .ok ⟨.node .root first others none, t :: more, Nat.le_refl _⟩
      else .error (.atToken t (.unexpected [')'])) := by
  rw [items.eq_def]
  cases done <;>
    simp [h, startsContinuation_of_ne, Token.Kind.isOperator, Token.Kind.isSeparator]

theorem items_word (h : atWordEnd t more = false) :
    items c nested depth done (t :: more) = (do
      let first ← command c depth t more
      let item ← chain c nested depth (.single first.value) first.rest
      let r ← items c nested depth (done ++ [item.value]) item.rest
      return r.within (Nat.le_succ_of_le (Nat.le_trans item.short first.short))) := by
  obtain ⟨hSpace, hContinuation, hSeparator, hOperator, hEnd, hParen⟩ := atWordEnd_eq_false.1 h
  rw [items.eq_def]
  dsimp only
  rw [if_neg hSpace, if_neg (by simp [hContinuation]), if_neg (by simp [hSeparator]),
    if_neg (by simp [hOperator]), if_neg hEnd, if_neg hParen]

end Step

-- ---------------------------------------------------------------------------
-- Results of a computation
-- ---------------------------------------------------------------------------

/-- A computation in two parts succeeds when the parts do, one after the other. -/
theorem bind_ok {ε α β : Type} {x : Except ε α} {f : α → Except ε β} {b : β} :
    (x >>= f) = .ok b ↔ ∃ a, x = .ok a ∧ f a = .ok b := by
  cases x with
  | error e => simp [bind, Except.bind]
  | ok a => simp [bind, Except.bind]

/-- A reading that is taken for one of a longer list. -/
theorem within_ok {α : Type} {n m : Nat} {x : Except Fault (Reading α n)} {h : n ≤ m}
    {r : Reading α m} :
    (x >>= fun r => pure (r.within h)) = .ok r ↔ ∃ r', x = .ok r' ∧ r'.within h = r := by
  simp [bind_ok, pure, Except.pure]

-- ---------------------------------------------------------------------------
-- What commands leave
-- ---------------------------------------------------------------------------

/-- The parts of a command are read up to a token that ends a command. -/
theorem parts_rest {c : Context} {depth : Nat} {ts : List Token}
    {r : Reading (List Tree) ts.length} (h : parts c depth ts = .ok r) :
    ∃ t more, r.rest = t :: more ∧ t.kind.endsCommand = true := by
  obtain ⟨size, hSize⟩ : ∃ size, ts.length = size := ⟨_, rfl⟩
  induction size using Nat.strongRecOn generalizing ts with
  | ind size ih =>
    cases ts with
    | nil =>
      rw [parts] at h
      cases h
    | cons t more =>
      rw [List.length_cons] at hSize
      cases commandFront t more with
      | ends hEnds =>
        rw [parts_ends hEnds] at h
        obtain rfl := Except.ok.inj h
        exact ⟨t, more, rfl, hEnds⟩
      | space hSpace =>
        rw [parts_space hSpace] at h
        obtain ⟨r', hr, rfl⟩ := within_ok.1 h
        rw [Reading.within_rest]
        exact ih more.length (by omega) hr rfl
      | continuation _ hContinuation =>
        rw [parts_continuation hContinuation] at h
        obtain ⟨r', hr, rfl⟩ := within_ok.1 h
        rw [Reading.within_rest]
        exact ih (more.drop 1).length (by simp; omega) hr rfl
      | word hWord =>
        rw [parts_word hWord] at h
        obtain ⟨first, -, h⟩ := bind_ok.1 h
        obtain ⟨others, hr, h⟩ := bind_ok.1 h
        obtain rfl := Except.ok.inj h
        have hShort := first.short
        have hRest := ih first.rest.length (by omega) hr rfl
        exact hRest

/-- A command is read up to a token that ends a command. -/
theorem command_rest {c : Context} {depth : Nat} {t : Token} {more : List Token}
    {r : Reading Tree more.length} (h : command c depth t more = .ok r) :
    ∃ u rest, r.rest = u :: rest ∧ u.kind.endsCommand = true := by
  rw [command] at h
  obtain ⟨-, -, h⟩ := bind_ok.1 h
  obtain ⟨first, -, h⟩ := bind_ok.1 h
  obtain ⟨others, hParts, h⟩ := bind_ok.1 h
  obtain rfl := Except.ok.inj h
  exact parts_rest hParts

/-- The command behind an operator is read up to a token that ends a command. -/
theorem operand_rest {c : Context} {nested : Bool} {depth : Nat} {operator : Token}
    {ts : List Token} {r : Reading Tree ts.length}
    (h : operand c nested depth operator ts = .ok r) :
    ∃ u rest, r.rest = u :: rest ∧ u.kind.endsCommand = true := by
  obtain ⟨size, hSize⟩ : ∃ size, ts.length = size := ⟨_, rfl⟩
  induction size using Nat.strongRecOn generalizing ts with
  | ind size ih =>
    cases ts with
    | nil =>
      rw [operand] at h
      cases h
    | cons t more =>
      rw [List.length_cons] at hSize
      cases front t more with
      | space hSpace =>
        rw [operand_space hSpace] at h
        obtain ⟨r', hr, rfl⟩ := within_ok.1 h
        rw [Reading.within_rest]
        exact ih more.length (by omega) hr rfl
      | continuation _ hContinuation =>
        rw [operand_continuation hContinuation] at h
        obtain ⟨r', hr, rfl⟩ := within_ok.1 h
        rw [Reading.within_rest]
        exact ih (more.drop 1).length (by simp; omega) hr rfl
      | separator hSeparator =>
        by_cases hNewline : t.kind = .newline
        · rw [operand_newline hNewline] at h
          obtain ⟨r', hr, rfl⟩ := within_ok.1 h
          rw [Reading.within_rest]
          exact ih more.length (by omega) hr rfl
        · rw [operand_semicolon (eq_semicolon hSeparator hNewline)] at h
          cases h
      | operator hOperator =>
        rw [operand_operator hOperator] at h
        cases h
      | finish hEnd =>
        rw [operand_finish hEnd] at h
        cases nested <;> cases h
      | close hParen =>
        rw [operand_close hParen] at h
        cases nested <;> cases h
      | word hWord =>
        rw [operand_word hWord] at h
        obtain ⟨r', hr, rfl⟩ := within_ok.1 h
        rw [Reading.within_rest]
        exact command_rest hr

end Descent

end ShellReader
