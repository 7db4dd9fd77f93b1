import ShellReader.Proofs.Refinement

/-!
# ShellReader — where a reading stops

Recursive descent forgets where it was when it failed; the machine keeps its cursor. This
module says where the cursor is then. No operation of the machine changes the token list,
and none fails at a token that is not at the cursor. The one fault that shows elsewhere is
that the list has no end, which shows at the last token when there is none at the cursor.

* `Cursor.Shows` — a fault shows at the cursor;
* `Machine.Stops` — what this means for a computation of the machine;
* `stoppedAt` — how much of a token list is read.

## Results

* `Machine.handle_stops`, `Machine.run_stops` — a step keeps the tokens and stops where its
  fault shows, and so does a whole run.
* `getElem?_stoppedAt` — a fault of a token list shows at the first token that is not read.
-/

namespace ShellReader

/-- The fault shows at the token at the cursor, unless it is that the list has no end. -/
def Cursor.Shows (c : Cursor) (fault : Fault) : Prop :=
  fault.cause = .missingEnd ∨ ∃ t more, c.rest = t :: more ∧ fault.token = some t

namespace Production

/-- A response that is no fault, or one that shows at the token `t`. -/
def Response.FailsAt (t : Token) : Response → Prop
  | .fail (.fault fault) => fault.token = some t
  | _ => True

theorem closeSequence_failsAt (t : Token) (count : Nat) (nested : Bool)
    (items : List (List Part)) (current : List Part) :
    (closeSequence t count nested items current).FailsAt t := by
  unfold closeSequence
  split
  · exact rfl
  · split
    · exact rfl
    · trivial

theorem respondSequence_failsAt (limit : Int) (t : Token) (rest : List Token) (nested : Bool)
    (items : List (List Part)) (current : List Part) :
    (respondSequence limit t rest nested items current).FailsAt t := by
  unfold respondSequence
  repeat' split
  all_goals first | exact closeSequence_failsAt t _ nested items current | exact rfl | trivial

/-- A production that looks at a token fails at no other. -/
theorem respondAt_failsAt (limit : Int) (t : Token) (rest : List Token) (p : Production) :
    (p.respondAt limit t rest).FailsAt t := by
  cases p with
  | blank => trivial
  | sequence nested items current => exact respondSequence_failsAt limit t rest nested items current
  | command parts =>
    show (respondCommand t rest parts).FailsAt t
    unfold respondCommand
    repeat' split
    all_goals trivial
  | assignment name value =>
    cases value with
    | some value => trivial
    | none =>
      show (respondAssignment t rest name).FailsAt t
      unfold respondAssignment
      split <;> trivial
  | word role parts =>
    show (respondWord t rest role parts).FailsAt t
    unfold respondWord
    dsimp only
    repeat' split
    all_goals trivial
  | quotation opener parts =>
    cases opener with
    | none => trivial
    | some opener =>
      show (respondQuotation t rest opener parts).FailsAt t
      unfold respondQuotation
      split
      · exact rfl
      · repeat' split
        all_goals trivial
  | substitution parts =>
    show (respondSubstitution t parts).FailsAt t
    unfold respondSubstitution
    split
    · trivial
    · exact rfl

/-- A production fails at the token in front of it. -/
theorem token_of_respond {p : Production} {limit : Int} {rest : List Token} {fault : Fault}
    (h : p.respond limit rest = .fail (.fault fault)) :
    ∃ t more, rest = t :: more ∧ fault.token = some t := by
  cases rest with
  | nil =>
    cases p with
    | assignment name value => cases value <;> cases h
    | quotation opener parts => cases opener <;> cases h
    | _ => cases h
  | cons t more =>
    have hFails := p.respondAt_failsAt limit t more
    rw [show p.respondAt limit t more = .fail (.fault fault) from h] at hFails
    exact ⟨t, more, rfl, hFails⟩

end Production

namespace Machine

variable {α β : Type} {m : Machine}

-- ---------------------------------------------------------------------------
-- Computations
-- ---------------------------------------------------------------------------

/-- What a computation may come to: the token list is the same as before, and a fault shows
at the token where the cursor stops. -/
def Stops (m : Machine) : EStateM.Result Failure Machine α → Prop
  | .ok _ next => next.cursor.tokens = m.cursor.tokens
  | .error why next => next.cursor.tokens = m.cursor.tokens ∧
      ∀ fault, why = .fault fault → next.cursor.Shows fault

theorem Stops.bind {x : Step α} {f : α → Step β} (h : Stops m (x m))
    (hNext : ∀ a next, x m = .ok a next → Stops next (f a next)) : Stops m ((x >>= f) m) := by
  show Stops m (EStateM.bind x f m)
  unfold EStateM.bind
  cases hx : x m with
  | error why next =>
    rw [hx] at h
    exact h
  | ok a next =>
    rw [hx] at h
    have hTokens : next.cursor.tokens = m.cursor.tokens := h
    have hStops := hNext a next hx
    show Stops m (f a next)
    cases hf : f a next with
    | error why last =>
      rw [hf] at hStops
      exact ⟨hStops.1.trans hTokens, hStops.2⟩
    | ok b last =>
      rw [hf] at hStops
      exact Eq.trans hStops hTokens

theorem Stops.modified {f : Machine → Machine} (h : (f m).cursor.tokens = m.cursor.tokens) :
    Stops m ((modify f : Step PUnit) m) := h

theorem Stops.returned (a : α) : Stops m ((pure a : Step α) m) := rfl

theorem Stops.thrown {why : Failure} (h : ∀ fault, why = .fault fault → m.cursor.Shows fault) :
    Stops m ((throw why : Step α) m) := ⟨rfl, h⟩

/-- A failure that is no fault shows nowhere. -/
theorem Stops.misuse {why : Failure} (h : ∀ fault, why ≠ .fault fault) :
    Stops m ((throw why : Step α) m) :=
  .thrown fun fault hFault => absurd hFault (h fault)

theorem Stops.faultAt {t : Token} {cause : Fault.Cause} (h : m.cursor.rest.head? = some t) :
    Stops m ((throw (.fault (.atToken t cause)) : Step α) m) := by
  refine .thrown fun fault hFault => .inr ?_
  obtain ⟨more, hRest⟩ := List.head?_eq_some_iff.1 h
  obtain rfl := Failure.fault.inj hFault
  exact ⟨t, more, hRest, rfl⟩

-- ---------------------------------------------------------------------------
-- Operations
-- ---------------------------------------------------------------------------

theorem skip_tokens (m : Machine) (n : Nat) : (m.skip n).cursor.tokens = m.cursor.tokens :=
  Cursor.tokens_advance m.cursor n

theorem current_stops : Stops m (current m) := by
  cases hRest : m.cursor.rest with
  | nil =>
    simp only [current, Cursor.current, hRest]
    exact ⟨rfl, fun _ hFault => .inl (Failure.fault.inj hFault ▸ rfl)⟩
  | cons t more =>
    simp only [current, Cursor.current, hRest]
    exact rfl

theorem consume_stops : Stops m (consume m) :=
  current_stops.bind fun _ next _ => .bind (.modified (skip_tokens next 1)) fun _ _ _ => .returned _

theorem expect_stops (kind : Token.Kind) : Stops m (expect kind m) := by
  refine current_stops.bind fun t next hCurrent => ?_
  obtain ⟨hHead, rfl⟩ := current_ok.1 hCurrent
  split
  · exact consume_stops
  · exact .faultAt hHead

theorem starve_stops : Stops m (starve m : EStateM.Result Failure Machine α) :=
  ⟨skip_tokens m _, fun _ hFault => .inl (Failure.fault.inj hFault ▸ rfl)⟩

theorem push_stops (id : ProductionId) : Stops m (push id m) := by
  refine Stops.bind rfl fun _ _ hGet => ?_
  obtain ⟨rfl, rfl⟩ := get_ok.1 hGet
  split
  · refine current_stops.bind fun t next hCurrent => ?_
    obtain ⟨hHead, rfl⟩ := current_ok.1 hCurrent
    exact .faultAt hHead
  · exact rfl

theorem pop_stops (id : ProductionId) : Stops m (pop id m) := by
  refine Stops.bind rfl fun _ _ hGet => ?_
  obtain ⟨rfl, rfl⟩ := get_ok.1 hGet
  cases m.stack with
  | nil => exact .misuse (by simp)
  | cons top below =>
    dsimp only
    split
    · exact rfl
    · exact .misuse (by simp)

theorem place_stops (p : Production) : Stops m (place p m) :=
  Stops.bind rfl fun id _ _ => (push_stops id).bind fun _ _ _ => .returned _

theorem enter_stops (id : ProductionId) : Stops m (enter id m) := by
  refine Stops.bind rfl fun _ _ hGet => ?_
  obtain ⟨rfl, rfl⟩ := get_ok.1 hGet
  cases m.production id with
  | assignment name value =>
    refine (expect_stops .word).bind fun name _ _ => ?_
    exact .bind (.modified rfl) fun _ _ _ => (expect_stops .equals).bind fun _ _ _ => .returned _
  | quotation opener parts =>
    refine consume_stops.bind fun opener _ _ => .modified ?_
    rw [remark_cursor, update_cursor]
  | substitution parts =>
    refine (expect_stops .dollar).bind fun _ _ _ => ?_
    refine (expect_stops .leftParenthesis).bind fun _ _ _ => ?_
    exact (place_stops _).bind fun _ _ _ => .modified rfl
  | _ => exact .returned _

theorem spawn_stops (p : Production) : Stops m (spawn p m) :=
  (place_stops p).bind fun id _ _ => (enter_stops id).bind fun _ _ _ => .returned _

/-- Letting a production read on keeps the tokens, and a fault shows where it stops. -/
theorem handle_stops (id : ProductionId) : Stops m (handle id m) := by
  refine Stops.bind rfl fun _ _ hGet => ?_
  obtain ⟨rfl, rfl⟩ := get_ok.1 hGet
  generalize hResponse : (m.production id).respond m.limit m.cursor.rest = response
  cases response with
  | fail why =>
    refine .thrown fun fault hFault => .inr ?_
    rw [hFault] at hResponse
    exact Production.token_of_respond hResponse
  | starve => exact starve_stops
  | advance count next comment leave =>
    refine .bind (.modified ?_) fun _ _ _ => ?_
    · rw [remark_cursor, update_cursor, skip_tokens]
    · split
      · exact pop_stops id
      · exact .returned _
  | spawn child => exact (spawn_stops child).bind fun _ _ _ => .modified rfl

theorem handleTop_stops : Stops m (handleTop m) := by
  refine Stops.bind rfl fun _ _ hGet => ?_
  obtain ⟨rfl, rfl⟩ := get_ok.1 hGet
  cases m.stack with
  | nil => exact .misuse (by simp)
  | cons top below => exact handle_stops top

/-- So does a whole run. -/
theorem run_stops : Stops m (run m) := by
  induction hPotential : m.potential using Nat.strongRecOn generalizing m with
  | ind n ih =>
    rw [run_eq]
    split
    · exact rfl
    · refine handleTop_stops.bind fun _ next hStep => ?_
      exact ih next.potential (hPotential ▸ potential_handleTop hStep) rfl

-- ---------------------------------------------------------------------------
-- Whole lists
-- ---------------------------------------------------------------------------

/-- When the outermost sequence is closed, its tree is there. -/
theorem tree_of_readOutermost {tokens : List Token} {limit : Int} {root : ProductionId}
    {m : Machine} (h : readOutermost (.start tokens limit) = .ok root m) :
    ∃ tree, m.tree root = .ok tree := by
  have hRun := readOutermost_completes tokens limit
  cases hSequence : Descent.sequence ⟨limit, tokens.getLast?⟩ false 0 tokens with
  | error fault =>
    rw [hSequence] at hRun
    obtain ⟨_, hRun⟩ := hRun
    rw [h] at hRun
    cases hRun
  | ok r =>
    rw [hSequence] at hRun
    obtain ⟨_, hRun, -, -, hTree⟩ := hRun
    rw [h] at hRun
    obtain ⟨rfl, rfl⟩ := EStateM.Result.ok.inj hRun
    exact ⟨r.value, hTree⟩

theorem readTree_stops (tokens : List Token) (limit : Int) :
    Stops (.start tokens limit) (readTree (.start tokens limit)) := by
  refine (spawn_stops _).bind fun root next hSpawn => run_stops.bind fun _ last hRun => ?_
  refine Stops.bind rfl fun _ _ hGet => ?_
  obtain ⟨rfl, rfl⟩ := get_ok.1 hGet
  cases last.cursor.last? with
  | none => exact .thrown fun _ hFault => .inl (Failure.fault.inj hFault ▸ rfl)
  | some t =>
    dsimp only
    by_cases hEnd : t.kind ≠ .endOfInput
    · rw [if_pos hEnd]
      exact .thrown fun _ hFault => .inl (Failure.fault.inj hFault ▸ rfl)
    · rw [if_neg hEnd]
      cases hRest : last.cursor.rest with
      | cons behind more => exact .faultAt (by rw [hRest, List.head?_cons])
      | nil =>
        have hOutermost : readOutermost (.start tokens limit) = .ok root last := by
          simp only [readOutermost, bind_ok]
          exact ⟨root, next, hSpawn, (), last, hRun, rfl⟩
        obtain ⟨tree, hTree⟩ := tree_of_readOutermost hOutermost
        rw [hTree]
        exact rfl

end Machine

/-- How many tokens of a list are read when the reading of the list is over. -/
def stoppedAt (tokens : List Token) (limit : Int) : Nat :=
  (machineOf (Machine.readTree (.start tokens limit))).cursor.pos

/-- A fault shows at the first token that is not read, unless it is that there is none. -/
theorem getElem?_stoppedAt {tokens : List Token} {limit : Int} {fault : Fault}
    (h : parseTokens tokens limit = .error (.fault fault)) (hCause : fault.cause ≠ .missingEnd) :
    ∃ t, tokens[stoppedAt tokens limit]? = some t ∧ fault.token = some t := by
  have hStops := Machine.readTree_stops tokens limit
  unfold parseTokens at h
  unfold stoppedAt
  cases hRead : Machine.readTree (.start tokens limit) with
  | ok tree m =>
    rw [hRead] at h
    cases h
  | error why m =>
    rw [hRead] at h hStops
    obtain ⟨hTokens, hShows⟩ := hStops
    obtain ⟨t, more, hRest, hToken⟩ := (hShows fault (Except.error.inj h)).resolve_left hCause
    refine ⟨t, ?_, hToken⟩
    rw [show tokens = m.cursor.tokens from hTokens.symm]
    simp [machineOf, Cursor.tokens, Cursor.pos, hRest]

end ShellReader
