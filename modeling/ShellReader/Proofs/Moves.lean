import ShellReader.Proofs.Termination

/-!
# ShellReader — what one step does

All that a step of the machine can do, said once. A production that reads on either
advances, by one of the ways that `Production.Advances` lists, or opens another production,
which is made and entered on top of the stack. `Machine.Moves` says what the machine looks
like after either of the two, its log aside.

## Results

* `Production.advances_of_respond` — the ways in which a production advances.
* `Production.atWordEnd_of_spawn` — another production is opened only where a word can start.
* `Machine.moves_of_handleTop` — what a step that succeeds leaves behind.
-/

namespace ShellReader

namespace Production

variable {limit : Int} {rest : List Token} {p next : Production} {count : Nat}
  {remark : Option Remark} {leave : Bool}

-- ---------------------------------------------------------------------------
-- Advancing
-- ---------------------------------------------------------------------------

/-- The ways in which a production advances: the tokens that are left, the production before
and after, the number of tokens that it reads and whether it closes. -/
inductive Advances : List Token → Production → Production → Nat → Bool → Prop where
  /-- A sequence skips what is before or between its commands. -/
  | skip {t : Token} {more : List Token} {nested : Bool} {items : List (List Part)}
      {current : List Part} {count : Nat}
      (h : t.kind.endsCommand = false ∨ (awaiting? current).isSome = true) :
      Advances (t :: more) (sequence nested items current) (sequence nested items current)
        count false
  /-- A sequence finishes an item. -/
  | finish {t : Token} {more : List Token} {nested : Bool} {items : List (List Part)}
      {current : List Part} (h : awaiting? current = none) :
      Advances (t :: more) (sequence nested items current)
        (sequence nested (finished items current) []) 1 false
  /-- A sequence takes an operator behind a command. -/
  | operator {t : Token} {more : List Token} {nested : Bool} {items : List (List Part)}
      {current : List Part} (h : t.kind.isOperator = true) (hSome : current ≠ [])
      (hAwaiting : awaiting? current = none) :
      Advances (t :: more) (sequence nested items current)
        (sequence nested items (current ++ [.token t])) 1 false
  /-- A sequence closes. -/
  | close {t : Token} {more : List Token} {nested : Bool} {items : List (List Part)}
      {current : List Part} {count : Nat} (hAwaiting : awaiting? current = none)
      (hSome : finished items current ≠ []) :
      Advances (t :: more) (sequence nested items current)
        (sequence nested (finished items current) []) count true
  /-- A command skips what is between its parts. -/
  | commandSkip {t : Token} {more : List Token} {parts : List ProductionId} {count : Nat}
      (h : atWordEnd t more = true) :
      Advances (t :: more) (command parts) (command parts) count false
  /-- A command closes in front of what ends it. -/
  | commandClose {t : Token} {more : List Token} {parts : List ProductionId}
      (h : t.kind.endsCommand = true) :
      Advances (t :: more) (command parts) (command parts) 0 true
  | assignmentClose {rest : List Token} {name : Option Token} {value : Option ProductionId} :
      Advances rest (assignment name value) (assignment name value) 0 true
  /-- A word closes in front of what ends it. -/
  | wordClose {t : Token} {more : List Token} {role : WordRole} {parts : List Part}
      (h : atWordEnd t more = true) :
      Advances (t :: more) (word role parts) (word role parts) 0 true
  /-- A word reads literal tokens. -/
  | wordRead {t : Token} {more : List Token} {role : WordRole} {parts read : List Part}
      {count : Nat} (h : read ≠ []) :
      Advances (t :: more) (word role parts) (word role (parts ++ read)) count false
  /-- A quotation reads a token or two, or its closing quote. -/
  | quotation {t : Token} {more : List Token} {opener : Token} {parts parts' : List Token}
      {count : Nat} {leave : Bool} :
      Advances (t :: more) (quotation (some opener) parts) (quotation (some opener) parts')
        count leave
  | substitutionClose {t : Token} {more : List Token} {parts : List ProductionId} :
      Advances (t :: more) (substitution parts) (substitution parts) 1 true

theorem advances_of_closeSequence {t : Token} {more : List Token} {nested : Bool}
    {items : List (List Part)} {current : List Part} {read : Nat}
    (h : closeSequence t read nested items current = .advance count next remark leave) :
    Advances (t :: more) (sequence nested items current) next count leave := by
  unfold closeSequence at h
  cases hAwaiting : awaiting? current with
  | some operator =>
    rw [hAwaiting] at h
    cases h
  | none =>
    rw [hAwaiting] at h
    dsimp only at h
    split at h
    · cases h
    · rename_i hSome
      cases h
      exact .close hAwaiting (by simpa using hSome)

theorem advances_of_respondSequence {t : Token} {more : List Token} {nested : Bool}
    {items : List (List Part)} {current : List Part}
    (h : respondSequence limit t more nested items current = .advance count next remark leave) :
    Advances (t :: more) (sequence nested items current) next count leave := by
  cases Descent.front t more with
  | space hSpace =>
    rw [respondSequence_space hSpace] at h
    cases h
    exact .skip (.inl (by rw [hSpace]; rfl))
  | continuation hKind hContinuation =>
    rw [respondSequence_continuation hContinuation] at h
    cases h
    exact .skip (.inl (by rw [hKind]; rfl))
  | separator hSeparator =>
    cases hAwaiting : awaiting? current with
    | none =>
      rw [respondSequence_separator hSeparator hAwaiting] at h
      cases h
      exact .finish hAwaiting
    | some operator =>
      by_cases hNewline : t.kind = .newline
      · rw [respondSequence_newline hNewline hAwaiting] at h
        cases h
        exact .skip (.inr (by rw [hAwaiting]; rfl))
      · rw [respondSequence_semicolon (Descent.eq_semicolon hSeparator hNewline) hAwaiting] at h
        cases h
  | operator hOperator =>
    rw [respondSequence_operator hOperator] at h
    split at h
    · cases h
    · rename_i hPlace
      split at h
      · cases h
      · cases h
        simp only [Bool.or_eq_true, List.isEmpty_iff, not_or, Option.not_isSome_iff_eq_none]
          at hPlace
        exact .operator hOperator hPlace.1 hPlace.2
  | finish hKind =>
    rw [respondSequence_finish hKind] at h
    split at h
    · cases h
    · exact advances_of_closeSequence h
  | close hKind =>
    rw [respondSequence_close hKind] at h
    split at h
    · exact advances_of_closeSequence h
    · cases h
  | word hWord =>
    rw [respondSequence_word hWord] at h
    cases h

theorem advances_of_respondCommand {t : Token} {more : List Token} {parts : List ProductionId}
    (h : respondCommand t more parts = .advance count next remark leave) :
    Advances (t :: more) (command parts) next count leave := by
  cases Descent.commandFront t more with
  | ends hEnds =>
    rw [respondCommand_ends hEnds] at h
    cases h
    exact .commandClose hEnds
  | space hSpace =>
    rw [respondCommand_space hSpace] at h
    cases h
    exact .commandSkip (by simp [atWordEnd, Token.Kind.endsArgument, hSpace])
  | continuation _ hContinuation =>
    rw [respondCommand_continuation hContinuation] at h
    cases h
    exact .commandSkip (by simp [atWordEnd, hContinuation])
  | word hWord =>
    rw [respondCommand_word hWord] at h
    split at h <;> cases h

theorem advances_of_respondWord {t : Token} {more : List Token} {role : WordRole}
    {parts : List Part} (h : respondWord t more role parts = .advance count next remark leave) :
    Advances (t :: more) (word role parts) next count leave := by
  unfold respondWord at h
  split at h
  · cases h
    exact .wordClose ‹_›
  rename_i hOpen
  split at h
  · cases h
  rename_i hQuote
  split at h
  · split at h
    · cases h
    · cases h
      exact .wordRead (by simp)
  rename_i hDollar
  dsimp only at h
  split at h
  · cases h
  · -- A run of literal tokens is not empty where it may start.
    have hRun := @takeUntil_stopsLiteral_ne_nil t more (by
      simp_all [stopsLiteral, Token.Kind.endsLiteral, atWordEnd])
    cases h
    exact .wordRead (by simpa using hRun)

/-- The ways in which a production advances. -/
theorem advances_of_respond (h : p.respond limit rest = .advance count next remark leave) :
    Advances rest p next count leave := by
  cases rest with
  | nil =>
    rw [respond, respondAtNothing.eq_def] at h
    split at h
    · cases h
    · cases h
      exact .assignmentClose
    · cases h
    · cases h
  | cons t more =>
    cases p with
    | blank => cases h
    | sequence nested items current => exact advances_of_respondSequence h
    | command parts => exact advances_of_respondCommand h
    | assignment name value =>
      cases value with
      | some value =>
        cases h
        exact .assignmentClose
      | none =>
        change respondAssignment t more name = _ at h
        unfold respondAssignment at h
        split at h
        · cases h
          exact .assignmentClose
        · cases h
    | word role parts => exact advances_of_respondWord h
    | quotation opener parts =>
      cases opener with
      | none => cases h
      | some opener =>
        change respondQuotation t more opener parts = _ at h
        unfold respondQuotation at h
        split at h
        · cases h
        split at h
        · cases h
          exact .quotation
        split at h
        · cases h
          exact .quotation
        · cases h
          exact .quotation
    | substitution parts =>
      change respondSubstitution t parts = _ at h
      unfold respondSubstitution at h
      split at h
      · cases h
        exact .substitutionClose
      · cases h

-- ---------------------------------------------------------------------------
-- Opening
-- ---------------------------------------------------------------------------

/-- A command opens a part only where a word can start. -/
theorem atWordEnd_of_respondCommand {t : Token} {more : List Token} {child : Production}
    {parts : List ProductionId} (h : respondCommand t more parts = .spawn child) :
    atWordEnd t more = false := by
  cases Descent.commandFront t more with
  | ends hEnds =>
    rw [respondCommand_ends hEnds] at h
    cases h
  | space hSpace =>
    rw [respondCommand_space hSpace] at h
    cases h
  | continuation _ hContinuation =>
    rw [respondCommand_continuation hContinuation] at h
    cases h
  | word hWord => exact hWord

/-- Another production is opened only where a word can start. -/
theorem atWordEnd_of_spawn {child : Production} (h : p.respond limit rest = .spawn child) :
    ∃ t more, rest = t :: more ∧ atWordEnd t more = false := by
  have hOpens := opens_of_respond h
  cases rest with
  | nil => cases hOpens <;> cases h
  | cons t more =>
    refine ⟨t, more, rfl, ?_⟩
    cases hOpens with
    | command =>
      -- The command that is opened would open a part in turn.
      have hWeight := weight_command_of_respond h
      cases hr : (Production.command []).respond limit (t :: more) with
      | spawn part => exact atWordEnd_of_respondCommand hr
      | fail why =>
        rw [hr] at hWeight
        cases hWeight
      | starve =>
        rw [hr] at hWeight
        cases hWeight
      | advance count next remark leave =>
        rw [hr] at hWeight
        cases count <;> cases leave <;> cases hWeight
    | assignment => exact atWordEnd_of_respondCommand h
    | argument => exact atWordEnd_of_respondCommand h
    | @value name =>
      change respondAssignment t more name = _ at h
      unfold respondAssignment at h
      split at h
      · cases h
      · simpa using ‹¬ atWordEnd t more = true›
    | @quotation role parts =>
      change respondWord t more role parts = _ at h
      unfold respondWord at h
      split at h
      · cases h
      · simpa using ‹¬ atWordEnd t more = true›
    | @substitution role parts =>
      change respondWord t more role parts = _ at h
      unfold respondWord at h
      split at h
      · cases h
      · simpa using ‹¬ atWordEnd t more = true›

end Production

namespace Machine

variable {m next : Machine} {top : ProductionId} {below : List ProductionId}

/-- What opening a production comes to, given the number it gets: the productions that are
made, the numbers that are put on the stack and how many tokens are read. -/
inductive Entry (id : ProductionId) :
    Production → List Production → List ProductionId → Nat → Prop where
  | command : Entry id (.command []) [.command []] [id] 0
  | word (role : WordRole) : Entry id (.word role []) [.word role []] [id] 0
  | assignment (name : Token) :
      Entry id (.assignment none none) [.assignment (some name) none] [id] 2
  | quotation (opener : Token) :
      Entry id (.quotation none []) [.quotation (some opener) []] [id] 1
  | substitution :
      Entry id (.substitution []) [.substitution [id + 1], .freshSequence true] [id + 1, id] 2

/-- What a step of the production on top leaves behind, the log aside. -/
inductive Moves (m : Machine) (top : ProductionId) (below : List ProductionId)
    (next : Machine) : Prop where
  | advance {p : Production} {count : Nat} {leave : Bool}
      (hAdvances : Production.Advances m.cursor.rest (m.production top) p count leave)
      (hLimit : next.limit = m.limit) (hCursor : next.cursor = m.cursor.advance count)
      (hProductions : next.productions = m.productions.set top p)
      (hStack : next.stack = if leave then below else top :: below)
  | spawn {child : Production} {new : List Production} {opened : List ProductionId}
      {count : Nat} {t : Token} {more : List Token}
      (hOpens : Production.Opens (m.production top) child)
      (hEntry : Entry m.productions.length child new opened count)
      (hRest : m.cursor.rest = t :: more) (hStart : Production.atWordEnd t more = false)
      (hLimit : next.limit = m.limit) (hCursor : next.cursor = m.cursor.advance count)
      (hProductions : next.productions = (m.productions ++ new).set top
        ((m.production top).adopt m.productions.length))
      (hStack : next.stack = opened ++ top :: below)
      (hHeight : (next.stack.length : Int) ≤ next.limit)

/-- A production is placed where there is room for it. -/
theorem place_height {p : Production} {id : ProductionId} (h : place p m = .ok id next) :
    (next.stack.length : Int) ≤ next.limit := by
  simp only [place, bind_ok, make_ok, push_ok, pure_ok] at h
  obtain ⟨_, _, ⟨rfl, rfl⟩, _, _, ⟨hRoom, rfl⟩, rfl, rfl⟩ := h
  simp only [note, List.length_cons] at hRoom ⊢
  omega

/-- What opening a production comes to. -/
theorem spawn_entry {p child : Production} {id : ProductionId}
    (hOpens : Production.Opens p child) (h : Machine.spawn child m = .ok id next) :
    id = m.productions.length ∧ (next.stack.length : Int) ≤ next.limit ∧
      ∃ new opened count, Entry id child new opened count ∧ Entered m new opened count next := by
  simp only [Machine.spawn, bind_ok, pure_ok] at h
  obtain ⟨_, placed, hPlace, _, mid, hEnter, rfl, rfl⟩ := h
  have hHeight := place_height hPlace
  obtain ⟨rfl, hCursor, hLimit, hProductions, hStack⟩ := place_ok hPlace
  have hChild : placed.production m.productions.length = child := by
    simp [production, hProductions]
  refine ⟨rfl, ?_⟩
  cases hOpens with
  | command =>
    obtain rfl := enter_plain (.inl ⟨_, hChild⟩) hEnter
    exact ⟨hHeight, _, _, _, .command, hProductions, hStack, hCursor, hLimit⟩
  | argument =>
    obtain rfl := enter_plain (.inr ⟨_, _, hChild⟩) hEnter
    exact ⟨hHeight, _, _, _, .word _, hProductions, hStack, hCursor, hLimit⟩
  | value =>
    obtain rfl := enter_plain (.inr ⟨_, _, hChild⟩) hEnter
    exact ⟨hHeight, _, _, _, .word _, hProductions, hStack, hCursor, hLimit⟩
  | assignment =>
    simp only [enter, bind_ok, get_ok] at hEnter
    obtain ⟨_, _, ⟨rfl, rfl⟩, hEnter⟩ := hEnter
    rw [hChild] at hEnter
    simp only [bind_ok, expect_ok, modify_ok, pure_ok] at hEnter
    obtain ⟨name, _, ⟨-, -, rfl⟩, _, _, rfl, _, _, ⟨-, -, rfl⟩, -, rfl⟩ := hEnter
    refine ⟨hHeight, _, _, _, .assignment name, ?_, hStack, ?_, hLimit⟩
    · simp [update, skip, hProductions]
    · simp [update, skip, hCursor, advance_advance]
  | quotation =>
    simp only [enter, bind_ok, get_ok] at hEnter
    obtain ⟨_, _, ⟨rfl, rfl⟩, hEnter⟩ := hEnter
    rw [hChild] at hEnter
    simp only [bind_ok, consume_ok, modify_ok] at hEnter
    obtain ⟨opener, _, ⟨-, rfl⟩, rfl⟩ := hEnter
    refine ⟨hHeight, _, _, _, .quotation opener, ?_, hStack, ?_, hLimit⟩
    · simp [update, skip, hProductions]
    · simp [skip, hCursor]
  | substitution =>
    simp only [enter, bind_ok, get_ok] at hEnter
    obtain ⟨_, _, ⟨rfl, rfl⟩, hEnter⟩ := hEnter
    rw [hChild] at hEnter
    simp only [bind_ok, expect_ok, modify_ok] at hEnter
    obtain ⟨_, _, ⟨-, -, rfl⟩, _, _, ⟨-, -, rfl⟩, _, both, hInner, rfl⟩ := hEnter
    have hHeight' := place_height hInner
    obtain ⟨rfl, hCursor', hLimit', hProductions', hStack'⟩ := place_ok hInner
    refine ⟨hHeight', _, _, _, .substitution, ?_, ?_, ?_, ?_⟩
    · simp [update, skip, hProductions', hProductions]
    · simp [skip, hStack', hStack, hProductions]
    · simp [update, skip, hCursor', hCursor, advance_advance]
    · exact hLimit'.trans hLimit

/-- What a step that succeeds leaves behind. -/
theorem moves_of_handleTop {u : Unit} (hStack : m.stack = top :: below)
    (h : handleTop m = .ok u next) : Moves m top below next := by
  rw [handleTop_eq hStack] at h
  cases hr : (m.production top).respond m.limit m.cursor.rest with
  | fail why =>
    rw [hr] at h
    exact absurd h throw_ok
  | starve =>
    rw [hr] at h
    cases h
  | advance count p comment leave =>
    rw [hr] at h
    have hAdvances := Production.advances_of_respond hr
    simp only [perform, bind_ok, modify_ok] at h
    obtain ⟨_, _, rfl, hPop⟩ := h
    cases leave with
    | false =>
      simp only [Bool.false_eq_true, if_false, pure_ok] at hPop
      obtain ⟨-, rfl⟩ := hPop
      exact .advance hAdvances (by simp [skip]) (by simp [skip]) (by simp [update, skip])
        (by simp [hStack])
    | true =>
      simp only [if_true, pop_ok] at hPop
      obtain ⟨_, hTop, rfl⟩ := hPop
      refine .advance hAdvances ?_ ?_ ?_ ?_
      · simp [note, skip]
      · simp [skip]
      · simp [note, update, skip]
      · simp_all [note]
  | spawn child =>
    rw [hr] at h
    obtain ⟨t, more, hRest, hStart⟩ := Production.atWordEnd_of_spawn hr
    have hOpens := Production.opens_of_respond hr
    simp only [perform, bind_ok, modify_ok] at h
    obtain ⟨id, mid, hSpawn, rfl⟩ := h
    obtain ⟨rfl, hHeight, new, opened, count, hEntry, hEntered⟩ := spawn_entry hOpens hSpawn
    refine .spawn hOpens hEntry hRest hStart hEntered.limit hEntered.cursor ?_ ?_ hHeight
    · rw [update, hEntered.productions]
    · rw [update_stack, hEntered.stack, hStack]

end Machine

end ShellReader
