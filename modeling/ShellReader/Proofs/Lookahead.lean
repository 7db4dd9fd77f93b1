import ShellReader.Proofs.Stopping

/-!
# ShellReader — how far the machine looks ahead

A production decides what to do from the token at the cursor and the one behind it. So what
the machine does up to some place of a token list depends on the tokens up to that place and on
two more, and whatever stands behind them can be exchanged.

* `Machine.withRest` — a machine with other tokens in front of its cursor;
* `Production.Response.reads` — how many tokens a response reads;
* `Machine.Online` — a computation looks at no token but those it reads and the two behind them.

## Results

* `Production.respond_of_take_eq` — a production responds alike to tokens that agree as far as it
  reads and two further.
* `Machine.handle_online`, `Machine.run_online` — so does the machine, in a step and in a run.
* `parseTokens_online` — a fault is found before the tokens behind it are looked at.
-/

namespace ShellReader

-- ---------------------------------------------------------------------------
-- Tokens that agree for a while
-- ---------------------------------------------------------------------------

/-- Where two lists agree for a while, so do their first elements. -/
theorem exists_cons_of_take_eq {α : Type} {a : α} {as bs : List α} {n : Nat}
    (h : bs.take (n + 1) = (a :: as).take (n + 1)) :
    ∃ bs', bs = a :: bs' ∧ bs'.take n = as.take n := by
  cases bs with
  | nil => simp at h
  | cons b bs' =>
    simp only [List.take_succ_cons, List.cons.injEq] at h
    obtain ⟨rfl, hTail⟩ := h
    exact ⟨bs', rfl, hTail⟩

/-- A list that agrees with another one to its end and further is the other one. -/
theorem eq_of_take_eq {α : Type} {as bs : List α} {n : Nat} (hLength : as.length < n)
    (h : bs.take n = as.take n) : bs = as := by
  rw [List.take_of_length_le (Nat.le_of_lt hLength)] at h
  have hShort : bs.length ≤ n := by
    have hLengths := congrArg List.length h
    rw [List.length_take] at hLengths
    omega
  rwa [List.take_of_length_le hShort] at h

theorem head?_of_take_eq {α : Type} {as bs : List α} {n : Nat}
    (h : bs.take (n + 1) = as.take (n + 1)) : bs.head? = as.head? := by
  have hHeads := congrArg List.head? h
  rwa [List.head?_take, List.head?_take, if_neg (by omega), if_neg (by omega)] at hHeads

theorem take_eq_of_le {α : Type} {as bs : List α} {n k : Nat} (hLe : k ≤ n)
    (h : bs.take n = as.take n) : bs.take k = as.take k := by
  have hTake := congrArg (List.take k) h
  rwa [List.take_take, List.take_take, Nat.min_eq_left hLe] at hTake

namespace Cursor

/-- The cursor with other tokens in front of it. -/
def withRest (c : Cursor) (rest : List Token) : Cursor := { c with rest := rest }

/-- Where the tokens agree, the cursor moves over them alike. -/
theorem advance_withRest {c : Cursor} {rest : List Token} {n : Nat}
    (h : rest.take n = c.rest.take n) :
    (c.withRest rest).advance n = (c.advance n).withRest (rest.drop n) := by
  fun_induction advance c n generalizing rest with
  | case1 => rfl
  | case2 done n =>
    obtain rfl : rest = [] := by simpa using h
    rfl
  | case3 done t more n ih =>
    obtain ⟨rest', rfl, hTail⟩ := exists_cons_of_take_eq h
    exact ih hTail

end Cursor

namespace Production

open Descent (startsContinuation_cons)

variable {t : Token} {more more' rest rest' : List Token} {limit : Int} {p : Production}

-- ---------------------------------------------------------------------------
-- What a production looks at
-- ---------------------------------------------------------------------------

/-- How many tokens a response reads, `rest` being left. -/
def Response.reads (rest : List Token) : Response → Nat
  | .advance count _ _ _ => count
  | .starve => rest.length
  | .fail _ | .spawn _ => 0

section Head

variable (h : more'.head? = more.head?)
include h

theorem startsContinuation_of_head? :
    Token.startsContinuation (t :: more') = Token.startsContinuation (t :: more) := by
  rw [startsContinuation_cons, startsContinuation_cons, h]

theorem atWordEnd_of_head? : atWordEnd t more' = atWordEnd t more := by
  rw [atWordEnd, atWordEnd, startsContinuation_of_head? h]

theorem startsAssignment_of_head? : startsAssignment t more' = startsAssignment t more := by
  rw [startsAssignment, startsAssignment, h]

theorem startsEscape_of_head? : startsEscape t more' = startsEscape t more := by
  rw [startsEscape, startsEscape, h]

theorem stopsLiteral_of_head? : stopsLiteral (t :: more') = stopsLiteral (t :: more) := by
  rw [stopsLiteral, stopsLiteral, startsContinuation_of_head? h]

end Head

/-- A run of literal tokens is told by the two tokens behind it. -/
theorem takeUntil_of_take_eq
    (h : rest'.take ((Cursor.takeUntil stopsLiteral rest).length + 2) =
      rest.take ((Cursor.takeUntil stopsLiteral rest).length + 2)) :
    Cursor.takeUntil stopsLiteral rest' = Cursor.takeUntil stopsLiteral rest := by
  induction rest generalizing rest' with
  | nil =>
    obtain rfl : rest' = [] := by simpa using h
    rfl
  | cons t more ih =>
    obtain ⟨more', rfl, hMore⟩ := exists_cons_of_take_eq h
    have hHead : more'.head? = more.head? := head?_of_take_eq hMore
    rw [Cursor.takeUntil, Cursor.takeUntil, stopsLiteral_of_head? hHead]
    rw [Cursor.takeUntil] at hMore
    split
    · rfl
    · rename_i hGoesOn
      rw [if_neg hGoesOn, List.length_cons] at hMore
      rw [ih (by rwa [Nat.add_right_comm] at hMore)]

/-- A word that goes on behind a run of literal tokens is told by the two tokens behind it. -/
theorem respondWord_of_take_eq {role : WordRole} {parts : List Part}
    (hHead : more'.head? = more.head?)
    (h : (t :: more').take ((respondWord t more role parts).reads (t :: more) + 2) =
      (t :: more).take ((respondWord t more role parts).reads (t :: more) + 2)) :
    respondWord t more' role parts = respondWord t more role parts := by
  unfold respondWord at h ⊢
  rw [atWordEnd_of_head? hHead, hHead]
  split
  · rfl
  split
  · rfl
  split
  · rfl
  rename_i hOpen hQuote hDollar
  rw [if_neg hOpen, if_neg hQuote, if_neg hDollar] at h
  by_cases hAll : (Cursor.takeUntil stopsLiteral (t :: more)).length = more.length + 1
  · -- The run goes to the end of the list, where the lists agree as a whole.
    rw [if_pos hAll] at h
    obtain ⟨-, rfl⟩ := List.cons.inj (eq_of_take_eq (Nat.lt_add_of_pos_right Nat.two_pos) h)
    rfl
  · rw [if_neg hAll] at h
    have hRun := takeUntil_of_take_eq h
    have hLength : (Cursor.takeUntil stopsLiteral (t :: more)).length ≠ more'.length + 1 := by
      intro hEnd
      have hShort := Cursor.takeUntil_length_le stopsLiteral (t :: more)
      have hLengths := congrArg List.length h
      simp only [Response.reads, List.length_take, List.length_cons] at hLengths hShort
      omega
    rw [hRun, if_neg hAll, if_neg hLength]

/-- A production responds alike to tokens that agree as far as it reads and two further: the token
where it stops and the one behind it. -/
theorem respond_of_take_eq
    (h : rest'.take ((p.respond limit rest).reads rest + 2) =
      rest.take ((p.respond limit rest).reads rest + 2)) :
    p.respond limit rest' = p.respond limit rest := by
  cases rest with
  | nil =>
    obtain rfl : rest' = [] := by simpa using h
    rfl
  | cons t more =>
    obtain ⟨more', rfl, hMore⟩ := exists_cons_of_take_eq h
    have hHead : more'.head? = more.head? := head?_of_take_eq hMore
    cases p with
    | blank => rfl
    | sequence nested items current =>
      show respondSequence limit t more' nested items current = _
      unfold respondSequence
      rw [startsContinuation_of_head? hHead]
      rfl
    | command parts =>
      show respondCommand t more' parts = _
      unfold respondCommand
      rw [startsContinuation_of_head? hHead, startsAssignment_of_head? hHead]
      rfl
    | assignment name value =>
      cases value with
      | some value => rfl
      | none =>
        show respondAssignment t more' name = _
        unfold respondAssignment
        rw [atWordEnd_of_head? hHead]
        rfl
    | word role parts => exact respondWord_of_take_eq hHead h
    | quotation opener parts =>
      cases opener with
      | none => rfl
      | some opener =>
        have hTwo : (t :: more').take 2 = (t :: more).take 2 := take_eq_of_le (by omega) h
        show respondQuotation t more' opener parts = _
        unfold respondQuotation
        rw [startsEscape_of_head? hHead, hTwo]
        rfl
    | substitution parts => rfl

end Production

namespace Machine

variable {α β : Type} {m : Machine} {n : Nat}

-- ---------------------------------------------------------------------------
-- Computations
-- ---------------------------------------------------------------------------

/-- The machine with other tokens in front of its cursor. -/
def withRest (m : Machine) (rest : List Token) : Machine :=
  { m with cursor := m.cursor.withRest rest }

/-- The result of a computation, with other tokens in front of the cursor. -/
def resultWithRest (rest : List Token) :
    EStateM.Result Failure Machine α → EStateM.Result Failure Machine α
  | .ok a m => .ok a (m.withRest rest)
  | .error why m => .error why (m.withRest rest)

/-- The computation reads at least `n` tokens of `m`, and but for the tokens it reads and the
two behind them the list may as well be another one. -/
def Online (n : Nat) (m : Machine) (x : Step α) : Prop :=
  ∃ k, n ≤ k ∧ (machineOf (x m)).cursor = m.cursor.advance k ∧
    ∀ rest, rest.take (k + 2) = m.cursor.rest.take (k + 2) →
      x (m.withRest rest) = resultWithRest (rest.drop k) (x m)

namespace Online

/-- One computation behind another: the second looks on from where the first has stopped. -/
theorem bind {x : Step α} {f : α → Step β} (h : Online n m x)
    (hNext : ∀ a next, x m = .ok a next → Online 0 next (f a)) : Online n m (x >>= f) := by
  obtain ⟨k, hCount, hCursor, hSame⟩ := h
  cases hx : x m with
  | error why next =>
    rw [hx] at hCursor hSame
    have hBind : (x >>= f) m = .error why next := by simp only [Bind.bind, EStateM.bind, hx]
    refine ⟨k, hCount, by rw [hBind]; exact hCursor, fun rest hRest => ?_⟩
    rw [hBind]
    simp only [Bind.bind, EStateM.bind, hSame rest hRest]
    rfl
  | ok a next =>
    rw [hx] at hCursor hSame
    obtain ⟨j, -, hCursor', hSame'⟩ := hNext a next hx
    have hBind : (x >>= f) m = f a next := by simp only [Bind.bind, EStateM.bind, hx]
    have hNextCursor : next.cursor = m.cursor.advance k := hCursor
    refine ⟨k + j, Nat.le_add_right_of_le hCount, ?_, fun rest hRest => ?_⟩
    · rw [hBind, hCursor', hNextCursor, advance_advance]
    · have hFirst : rest.take (k + 2) = m.cursor.rest.take (k + 2) :=
        take_eq_of_le (by omega) hRest
      have hSecond : (rest.drop k).take (j + 2) = next.cursor.rest.take (j + 2) := by
        rw [hNextCursor, Cursor.rest_advance, List.take_drop, List.take_drop, ← Nat.add_assoc,
          hRest]
      rw [hBind, ← List.drop_drop, ← hSame' _ hSecond]
      simp only [Bind.bind, EStateM.bind, hSame rest hFirst]
      rfl

/-- A computation that does what another one does, on all lists that cannot be told apart. -/
theorem congr {x y : Step α} (h : Online n m y)
    (hSame : ∀ rest, rest.take (n + 2) = m.cursor.rest.take (n + 2) →
      x (m.withRest rest) = y (m.withRest rest)) : Online n m x := by
  obtain ⟨k, hCount, hCursor, hOnline⟩ := h
  have hHere : x m = y m := hSame m.cursor.rest rfl
  refine ⟨k, hCount, by rw [hHere, hCursor], fun rest hRest => ?_⟩
  rw [hSame rest (take_eq_of_le (by omega) hRest), hOnline rest hRest, hHere]

/-- A computation that looks at the machine and goes by what it sees. -/
theorem get {f : Machine → Step α} (h : Online n m (f m))
    (hSame : ∀ rest, rest.take (n + 2) = m.cursor.rest.take (n + 2) →
      f (m.withRest rest) = f m) : Online n m (get >>= f) :=
  h.congr fun rest hRest => congrFun (hSame rest hRest) (m.withRest rest)

/-- A change that leaves the cursor alone. -/
theorem modified {f : Machine → Machine} (hCursor : (f m).cursor = m.cursor)
    (hSame : ∀ rest, f (m.withRest rest) = (f m).withRest rest) :
    Online 0 m (modify f : Step PUnit) :=
  ⟨0, Nat.le_refl _, hCursor, fun rest _ => congrArg (EStateM.Result.ok PUnit.unit) (hSame rest)⟩

theorem mono {k : Nat} {x : Step α} (h : Online n m x) (hLe : k ≤ n) : Online k m x := by
  obtain ⟨reads, hCount, hOnline⟩ := h
  exact ⟨reads, Nat.le_trans hLe hCount, hOnline⟩

theorem returned (a : α) : Online 0 m (pure a : Step α) :=
  ⟨0, Nat.le_refl _, rfl, fun _ _ => rfl⟩

theorem thrown (why : Failure) : Online 0 m (throw why : Step α) :=
  ⟨0, Nat.le_refl _, rfl, fun _ _ => rfl⟩

end Online

-- ---------------------------------------------------------------------------
-- Operations
-- ---------------------------------------------------------------------------

/-- The machine moves over tokens that agree alike. -/
theorem skip_online (n : Nat) : Online n m (modify (·.skip n) : Step PUnit) := by
  refine ⟨n, Nat.le_refl n, rfl, fun rest hRest => ?_⟩
  have hCursor := Cursor.advance_withRest (take_eq_of_le (Nat.le_add_right n 2) hRest)
  have hSkip : (m.withRest rest).skip n = (m.skip n).withRest (rest.drop n) := by
    simp only [skip, withRest, hCursor]
  exact congrArg (EStateM.Result.ok PUnit.unit) hSkip

theorem current_online : Online 0 m current := by
  refine ⟨0, Nat.le_refl 0, ?_, fun rest hRest => ?_⟩
  · simp only [current]
    cases m.cursor.current <;> rfl
  · have hCurrent : (m.withRest rest).cursor.current = m.cursor.current := by
      cases hTokens : m.cursor.rest with
      | nil =>
        obtain rfl : rest = [] := by simpa [hTokens] using hRest
        simp only [Cursor.current, withRest, Cursor.withRest, hTokens]
        rfl
      | cons t more =>
        rw [hTokens] at hRest
        obtain ⟨more', rfl, -⟩ := exists_cons_of_take_eq hRest
        simp only [Cursor.current, withRest, Cursor.withRest, hTokens]
    simp only [current, hCurrent]
    cases m.cursor.current <;> rfl

theorem consume_online : Online 0 m consume :=
  current_online.bind fun _ _ _ =>
    .bind ((skip_online 1).mono (Nat.zero_le 1)) fun _ _ _ => .returned _

theorem expect_online (kind : Token.Kind) : Online 0 m (expect kind) := by
  refine current_online.bind fun t _ _ => ?_
  split
  · exact consume_online
  · exact .thrown _

/-- What reads to the end of the list has seen all of it. -/
theorem starve_online : Online m.cursor.rest.length m (starve : Step α) := by
  refine ⟨m.cursor.rest.length, Nat.le_refl _, rfl, fun rest hRest => ?_⟩
  obtain rfl : rest = m.cursor.rest := eq_of_take_eq (Nat.lt_add_of_pos_right Nat.two_pos) hRest
  have hDrained : (m.skip m.cursor.rest.length).withRest (m.cursor.rest.drop m.cursor.rest.length) =
      m.skip m.cursor.rest.length := by
    rw [← skip_rest]
    rfl
  simp only [starve, resultWithRest]
  rw [hDrained]
  rfl

theorem push_online (id : ProductionId) : Online 0 m (push id) := by
  by_cases hFull : m.limit ≤ m.stack.length
  · have hFails : Online 0 m (do
        let t ← current
        throw (.fault (.atToken t (.tooDeep m.limit))) : Step Unit) :=
      current_online.bind fun _ _ _ => .thrown _
    exact hFails.congr fun rest _ => congrFun (if_pos hFull) (m.withRest rest)
  · have hPushes : Online 0 m (modify fun m =>
        { m with stack := id :: m.stack }.note (.pushed m.stack.length (m.label id)) :
          Step Unit) :=
      .modified rfl fun _ => rfl
    exact hPushes.congr fun rest _ => congrFun (if_neg hFull) (m.withRest rest)

theorem pop_online (id : ProductionId) : Online 0 m (pop id) := by
  cases hStack : m.stack with
  | nil =>
    refine (Online.thrown (.noElement .outOfRange)).congr fun rest _ => ?_
    exact pop_empty (m := m.withRest rest) hStack id
  | cons top below =>
    by_cases hTop : top = id
    · subst hTop
      have hPops : Online 0 m (modify fun m =>
          { m with stack := below }.note (.popped below.length (m.label top)) : Step Unit) :=
        .modified rfl fun _ => rfl
      exact hPops.congr fun rest _ => pop_ok.2 ⟨below, hStack, rfl⟩
    · refine (Online.thrown (.notOnTop (m.label id) (m.label top))).congr fun rest _ => ?_
      exact pop_other (m := m.withRest rest) hStack hTop

theorem place_online (p : Production) : Online 0 m (place p) :=
  Online.bind ⟨0, Nat.le_refl 0, rfl, fun _ _ => rfl⟩ fun id _ _ =>
    (push_online id).bind fun _ _ _ => .returned _

theorem enter_online (id : ProductionId) : Online 0 m (enter id) := by
  refine .get ?_ fun rest _ => rfl
  cases m.production id with
  | assignment name value =>
    refine (expect_online .word).bind fun name _ _ => ?_
    refine .bind (.modified rfl fun _ => rfl) fun _ _ _ => ?_
    exact (expect_online .equals).bind fun _ _ _ => .returned _
  | quotation opener parts =>
    exact consume_online.bind fun opener _ _ => .modified rfl fun _ => rfl
  | substitution parts =>
    refine (expect_online .dollar).bind fun _ _ _ => ?_
    refine (expect_online .leftParenthesis).bind fun _ _ _ => ?_
    exact (place_online _).bind fun _ _ _ => .modified rfl fun _ => rfl
  | _ => exact .returned _

theorem spawn_online (p : Production) : Online 0 m (spawn p) :=
  (place_online p).bind fun id _ _ => (enter_online id).bind fun _ _ _ => .returned _

/-- What a production has decided is carried out without looking further. -/
theorem perform_online (id : ProductionId) (p : Production) (response : Production.Response) :
    Online (response.reads m.cursor.rest) m (perform id p response) := by
  cases response with
  | fail why => exact .thrown why
  | starve => exact starve_online
  | spawn child => exact (spawn_online child).bind fun _ _ _ => .modified rfl fun _ => rfl
  | advance count next comment leave =>
    have hReads : Online count m (do
        modify (·.skip count)
        modify fun m => (m.update id next).remark id comment : Step PUnit) := by
      refine (skip_online count).bind fun _ _ _ => .modified ?_ fun rest => ?_
      · rw [remark_cursor, update_cursor]
      · cases comment <;> rfl
    refine (hReads.congr fun _ _ => rfl).bind fun _ _ _ => ?_
    split
    · exact pop_online id
    · exact .returned _

/-- Letting a production read on looks no further than two tokens behind those it reads. -/
theorem handle_online (id : ProductionId) : Online 0 m (handle id) := by
  let response := (m.production id).respond m.limit m.cursor.rest
  have hPerform : Online (response.reads m.cursor.rest) m
      (perform id (m.production id) response) := perform_online id _ response
  have hHandle : Online (response.reads m.cursor.rest) m (handle id) := by
    refine hPerform.get fun rest hRest => ?_
    show perform id (m.production id) ((m.production id).respond m.limit rest) = _
    rw [Production.respond_of_take_eq hRest]
  exact hHandle.mono (Nat.zero_le _)

theorem handleTop_online : Online 0 m handleTop := by
  refine .get ?_ fun rest _ => rfl
  cases m.stack with
  | nil => exact .thrown _
  | cons top below => exact handle_online top

/-- So does a whole run. -/
theorem run_online : Online 0 m run := by
  induction hPotential : m.potential using Nat.strongRecOn generalizing m with
  | ind n ih =>
    by_cases hOpen : m.stack.isEmpty
    · refine (Online.returned ()).congr fun rest _ => ?_
      rw [run_eq]
      exact if_pos hOpen
    · have hStep : Online 0 m (handleTop >>= fun _ => run) :=
        handleTop_online.bind fun _ next hTop =>
          ih next.potential (hPotential ▸ potential_handleTop hTop) rfl
      refine hStep.congr fun rest _ => ?_
      rw [run_eq]
      exact if_neg hOpen

-- ---------------------------------------------------------------------------
-- Whole lists
-- ---------------------------------------------------------------------------

/-- Looking at the end of the list takes one token more, if there is one. -/
theorem readTree_online : Online 0 m readTree := by
  refine (spawn_online _).bind fun root _ _ => run_online.bind fun _ last _ => .get ?_ ?_
  · cases last.cursor.last? with
    | none => exact .thrown _
    | some t =>
      dsimp only
      by_cases hEnd : t.kind ≠ .endOfInput
      · rw [if_pos hEnd]
        exact .thrown _
      · rw [if_neg hEnd]
        cases last.cursor.rest with
        | cons behind more => exact .thrown _
        | nil =>
          cases last.tree root with
          | error why => exact .thrown why
          | ok tree => exact .returned tree
  · intro rest hRest
    cases hTokens : last.cursor.rest with
    | nil =>
      obtain rfl : rest = [] := by simpa [hTokens] using hRest
      have hSelf : last.withRest [] = last := by
        rw [← hTokens]
        rfl
      rw [hSelf, hTokens]
    | cons t more =>
      rw [hTokens] at hRest
      obtain ⟨more', rfl, -⟩ := exists_cons_of_take_eq hRest
      rfl

theorem outcome_resultWithRest (rest : List Token) (r : EStateM.Result Failure Machine α) :
    outcome (resultWithRest rest r) = outcome r := by
  cases r <;> rfl

theorem pos_resultWithRest (rest : List Token) (r : EStateM.Result Failure Machine α) :
    (machineOf (resultWithRest rest r)).cursor.pos = (machineOf r).cursor.pos := by
  cases r <;> rfl

end Machine

/-- **One token of lookahead**: where a list of tokens fails, so does every list that has the same
tokens up to the one at which the cursor stops and the one behind it. It fails in the same way,
and its cursor stops at the same place. -/
theorem parseTokens_online {tokens tokens' : List Token} {limit : Int} {why : Failure}
    (h : parseTokens tokens limit = .error why)
    (hSame : tokens'.take (stoppedAt tokens limit + 2) =
      tokens.take (stoppedAt tokens limit + 2)) :
    parseTokens tokens' limit = .error why ∧ stoppedAt tokens' limit = stoppedAt tokens limit := by
  obtain ⟨k, -, hCursor, hOnline⟩ := Machine.readTree_online (m := .start tokens limit)
  have hStopped : stoppedAt tokens limit = min k tokens.length := by
    rw [stoppedAt, hCursor, Cursor.pos_advance]
    exact Nat.zero_add _
  rcases Nat.lt_or_ge tokens.length k with hLong | hShort
  · -- The list is read to its end, so it is the other list.
    rw [hStopped, Nat.min_eq_right (Nat.le_of_lt hLong)] at hSame
    obtain rfl := eq_of_take_eq (Nat.lt_add_of_pos_right Nat.two_pos) hSame
    exact ⟨h, rfl⟩
  · rw [hStopped, Nat.min_eq_left hShort] at hSame
    have hRead : Machine.readTree (.start tokens' limit) =
        Machine.resultWithRest (tokens'.drop k) (Machine.readTree (.start tokens limit)) :=
      hOnline tokens' hSame
    constructor
    · rw [parseTokens, hRead, Machine.outcome_resultWithRest]
      exact h
    · rw [stoppedAt, hRead, Machine.pos_resultWithRest]
      rfl

/-- There is no room for a substitution at `$`, which is one for the parenthesis behind it. What
comes after the two is not looked at. -/
theorem parseTokens_online_substitution :
    stoppedAt (tokenize "a$(b)".toList) 3 = 1 ∧
      parseTokens (tokenize "a$(b)".toList) 3 =
        .error (.fault ⟨.tooDeep 3, some ⟨.dollar, ['$'], 1⟩⟩) ∧
      parseTokens (tokenize "a$(;\x22".toList) 3 =
        .error (.fault ⟨.tooDeep 3, some ⟨.dollar, ['$'], 1⟩⟩) ∧
      stoppedAt (tokenize "a$(;\x22".toList) 3 = 1 := by
  have hStopped : stoppedAt (tokenize "a$(b)".toList) 3 = 1 := by cbv
  have hError : parseTokens (tokenize "a$(b)".toList) 3 =
      .error (.fault ⟨.tooDeep 3, some ⟨.dollar, ['$'], 1⟩⟩) := by cbv
  have hSame : (tokenize "a$(;\x22".toList).take (stoppedAt (tokenize "a$(b)".toList) 3 + 2) =
      (tokenize "a$(b)".toList).take (stoppedAt (tokenize "a$(b)".toList) 3 + 2) := by
    rw [hStopped]
    decide +kernel
  obtain ⟨hError', hStopped'⟩ := parseTokens_online hError hSame
  exact ⟨hStopped, hError, hError', hStopped'.trans hStopped⟩

end ShellReader
