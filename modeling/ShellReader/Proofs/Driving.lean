import ShellReader.Proofs.Trace

/-!
# ShellReader — machines driven in any order

The operations of a machine may come in any order and number, from productions that are on top of
the stack, below it or on no stack at all; they may fail, and fail halfway, with one of two tokens
read or with a child on the stack that no parent has recorded. Whatever happens, the token list is
the same, the cursor only moves forward and does not leave the list, the token that was read last
is the one right before it, and the stack is not higher than the limit.

One relation between two machines carries all of this: `Machine.Onward`, which leaves open what has
become of the productions and the log. Each operation leads onward from every machine, whether it
succeeds or fails, because each part of it does.

## Results

* `Machine.expect_error`, `Machine.push_error`, `Machine.pop_error` — the operations that change
  nothing when they fail.
* `Machine.handle_onward`, `Machine.enter_onward`, `Machine.run_onward` — a production that reads
  on or is entered, and a whole run, lead onward.
* `Machine.driven_sound` — what holds after any operations.
-/

namespace ShellReader

-- ---------------------------------------------------------------------------
-- Where the cursor is
-- ---------------------------------------------------------------------------

theorem Cursor.pos_le_length (c : Cursor) : c.pos ≤ c.tokens.length := by
  simp [pos, tokens]

/-- The token that was read last stands right before the cursor. -/
theorem Cursor.last?_eq (c : Cursor) :
    c.last? = if c.pos = 0 then none else c.tokens[c.pos - 1]? := by
  obtain ⟨done, rest⟩ := c
  cases done with
  | nil => rfl
  | cons t before => simp [last?, pos, tokens]

namespace Machine

variable {α β : Type} {m mid next : Machine} {why : Failure} {id : ProductionId}

-- ---------------------------------------------------------------------------
-- Operations
-- ---------------------------------------------------------------------------

/-- What a machine can be asked to do. Productions are given by their numbers, wherever they are. -/
inductive Operation where
  | current
  | consume
  | expect (kind : Token.Kind)
  | peek (n : Int)
  | peekKind (n : Int)
  | check (kinds : List Token.Kind)
  | atContinuation
  | consumeUntil (stop : List Token → Bool)
  | make (p : Production)
  | push (id : ProductionId)
  | pop (id : ProductionId)
  | enter (id : ProductionId)
  | handle (id : ProductionId)
  | handleTop
  | run
  | spawn (p : Production)
  | build (id : ProductionId)

/-- The kind of the token `n` further on. -/
def peekKind (n : Int) : Step (Option Token.Kind) := do
  match (← get).cursor.peekKind n with
  | .ok kind => return kind
  | .error miss => throw (.noElement miss)

/-- Whether the token at the cursor is of one of the given kinds. -/
def check (kinds : List Token.Kind) : Step Bool := do
  let t ← current
  return kinds.contains t.kind

/-- Carries out an operation, whatever its answer is. -/
def Operation.carryOut : Operation → Step Unit
  | current           => discard Machine.current
  | consume           => discard Machine.consume
  | expect kind       => discard (Machine.expect kind)
  | peek n            => discard (do return (← get).cursor.peek n)
  | peekKind n        => discard (Machine.peekKind n)
  | check kinds       => discard (Machine.check kinds)
  | atContinuation    => discard (do return (← get).cursor.atContinuation)
  | consumeUntil stop => discard (Machine.consumeUntil stop)
  | make p            => discard (Machine.make p)
  | push id           => Machine.push id
  | pop id            => Machine.pop id
  | enter id          => Machine.enter id
  | handle id         => Machine.handle id
  | handleTop         => Machine.handleTop
  | run               => Machine.run
  | spawn p           => discard (Machine.spawn p)
  | build id          => discard (do MonadExcept.ofExcept ((← get).tree id))

/-- The machine that an operation leaves behind, whether it succeeds or fails. -/
def after (m : Machine) (o : Operation) : Machine :=
  machineOf (o.carryOut m)

/-- The machine that some operations leave behind, one after the other. -/
def driven (m : Machine) (operations : List Operation) : Machine :=
  operations.foldl after m

-- ---------------------------------------------------------------------------
-- Failures that change nothing
-- ---------------------------------------------------------------------------

/-- A computation in two parts fails in the first part or, that being done, in the second. -/
theorem bind_error {x : Step α} {f : α → Step β} : (x >>= f) m = .error why next ↔
    x m = .error why next ∨ ∃ a mid, x m = .ok a mid ∧ f a mid = .error why next := by
  show EStateM.bind x f m = _ ↔ _
  unfold EStateM.bind
  cases x m with
  | ok a mid => simp
  | error other mid => simp

theorem current_error (h : current m = .error why next) : next = m := by
  unfold current at h
  split at h
  · cases h
  · exact (EStateM.Result.error.inj h).2.symm

/-- Where there is a token, it can be read. -/
theorem consume_error (h : consume m = .error why next) : next = m := by
  rcases bind_error.1 h with hCurrent | ⟨t, mid, -, hRest⟩
  · exact current_error hCurrent
  · cases hRest

/-- A token of another kind is not read. -/
theorem expect_error {kind : Token.Kind} (h : expect kind m = .error why next) : next = m := by
  rcases bind_error.1 h with hCurrent | ⟨t, mid, hCurrent, hRest⟩
  · exact current_error hCurrent
  obtain ⟨-, rfl⟩ := current_ok.1 hCurrent
  split at hRest
  · exact consume_error hRest
  · exact (EStateM.Result.error.inj hRest).2.symm

/-- What finds no room is not put on the stack. -/
theorem push_error (h : push id m = .error why next) : next = m := by
  by_cases hFull : m.limit ≤ m.stack.length
  · obtain ⟨_, hPush⟩ := push_full hFull id
    rw [hPush] at h
    exact (EStateM.Result.error.inj h).2.symm
  · rw [push_ok (u := ()).2 ⟨hFull, rfl⟩] at h
    cases h

/-- What is not on top stays where it is. -/
theorem pop_error (h : pop id m = .error why next) : next = m := by
  cases hStack : m.stack with
  | nil =>
    rw [pop_empty hStack] at h
    exact (EStateM.Result.error.inj h).2.symm
  | cons top below =>
    by_cases hTop : top = id
    · rw [pop_ok (u := ()).2 ⟨below, hTop ▸ hStack, rfl⟩] at h
      cases h
    · rw [pop_other hStack hTop] at h
      exact (EStateM.Result.error.inj h).2.symm

-- ---------------------------------------------------------------------------
-- Onward
-- ---------------------------------------------------------------------------

/-- The second machine comes from the first one: the tokens and the limit are the same, the cursor
has not moved back, and the stack is within the limit if it was. -/
structure Onward (m next : Machine) : Prop where
  tokens : next.cursor.tokens = m.cursor.tokens
  pos    : m.cursor.pos ≤ next.cursor.pos
  limit  : next.limit = m.limit
  height : (next.stack.length : Int) ≤ max (m.stack.length : Int) m.limit

/-- A computation leads onward from every machine, whether it succeeds or fails. -/
def LeadsOnward (x : Step α) : Prop := ∀ m, Onward m (machineOf (x m))

theorem Onward.refl (m : Machine) : Onward m m :=
  ⟨rfl, Nat.le_refl _, rfl, le_max_left ..⟩

theorem Onward.trans (h : Onward m mid) (h' : Onward mid next) : Onward m next where
  tokens := h'.tokens.trans h.tokens
  pos := h.pos.trans h'.pos
  limit := h'.limit.trans h.limit
  height := by
    have hHeight := h.height
    have hHeight' := h'.height
    rw [h.limit] at hHeight'
    omega

/-- Productions and the log do not count. -/
theorem Onward.congr (h : Onward m mid) (hCursor : next.cursor = mid.cursor)
    (hLimit : next.limit = mid.limit) (hStack : next.stack = mid.stack) : Onward m next := by
  refine ⟨?_, ?_, hLimit.trans h.limit, hStack ▸ h.height⟩
  · rw [hCursor]
    exact h.tokens
  · rw [hCursor]
    exact h.pos

theorem onward_skip (m : Machine) (n : Nat) : Onward m (m.skip n) where
  tokens := Cursor.tokens_advance ..
  pos := by
    rw [skip, Cursor.pos_advance]
    exact Nat.le_add_right ..
  limit := rfl
  height := le_max_left ..

theorem Onward.bind {x : Step α} {f : α → Step β} (h : Onward m (machineOf (x m)))
    (hNext : ∀ a mid, x m = .ok a mid → Onward mid (machineOf (f a mid))) :
    Onward m (machineOf ((x >>= f) m)) := by
  show Onward m (machineOf (EStateM.bind x f m))
  unfold EStateM.bind
  cases hx : x m with
  | error why mid =>
    rw [hx] at h
    exact h
  | ok a mid =>
    rw [hx] at h
    exact Onward.trans h (hNext a mid hx)

theorem LeadsOnward.bind {x : Step α} {f : α → Step β} (h : LeadsOnward x)
    (hNext : ∀ a, LeadsOnward (f a)) : LeadsOnward (x >>= f) :=
  fun m => (h m).bind fun a mid _ => hNext a mid

theorem LeadsOnward.discard {x : Step α} (h : LeadsOnward x) : LeadsOnward (discard x) := by
  intro m
  have hx := h m
  show Onward m (machineOf (EStateM.map _ x m))
  unfold EStateM.map
  cases hResult : x m with
  | ok a next =>
    rw [hResult] at hx
    exact hx
  | error why next =>
    rw [hResult] at hx
    exact hx

theorem pure_onward (a : α) : LeadsOnward (pure a : Step α) := .refl

theorem throw_onward (why : Failure) : LeadsOnward (throw why : Step α) := .refl

theorem get_onward : LeadsOnward (get : Step Machine) := .refl

theorem modify_onward {f : Machine → Machine} (h : ∀ m, Onward m (f m)) :
    LeadsOnward (modify f : Step PUnit) := h

theorem update_onward (id : ProductionId) (p : Production) :
    LeadsOnward (modify (·.update id p) : Step PUnit) :=
  modify_onward fun m => (Onward.refl m).congr rfl rfl rfl

-- ---------------------------------------------------------------------------
-- Every operation leads onward
-- ---------------------------------------------------------------------------

theorem current_onward : LeadsOnward current := by
  intro m
  unfold current
  split <;> exact .refl m

theorem consume_onward : LeadsOnward consume :=
  current_onward.bind fun t => (modify_onward (onward_skip · 1)).bind fun _ => pure_onward t

theorem expect_onward (kind : Token.Kind) : LeadsOnward (expect kind) := by
  refine current_onward.bind fun t => ?_
  split
  · exact consume_onward
  · exact throw_onward _

theorem starve_onward : LeadsOnward (starve : Step α) :=
  fun m => onward_skip m _

theorem consumeUntil_onward (stop : List Token → Bool) : LeadsOnward (consumeUntil stop) := by
  refine get_onward.bind fun m => ?_
  dsimp only
  split
  · exact starve_onward
  · exact (modify_onward (onward_skip · _)).bind fun _ => pure_onward _

theorem make_onward (p : Production) : LeadsOnward (make p) :=
  fun m => (Onward.refl m).congr rfl rfl rfl

/-- There is room for one more where the stack is lower than the limit. -/
theorem push_onward (id : ProductionId) : LeadsOnward (push id) := by
  intro m
  cases hPush : push id m with
  | error why next =>
    obtain rfl := push_error hPush
    exact .refl next
  | ok u next =>
    obtain ⟨hRoom, rfl⟩ := push_ok.1 hPush
    refine ⟨rfl, Nat.le_refl _, rfl, ?_⟩
    show ((m.stack.length + 1 : Nat) : Int) ≤ _
    omega

theorem pop_onward (id : ProductionId) : LeadsOnward (pop id) := by
  intro m
  cases hPop : pop id m with
  | error why next =>
    obtain rfl := pop_error hPop
    exact .refl next
  | ok u next =>
    obtain ⟨below, hStack, rfl⟩ := pop_ok.1 hPop
    refine ⟨rfl, Nat.le_refl _, rfl, ?_⟩
    show (below.length : Int) ≤ _
    rw [hStack, List.length_cons]
    omega

theorem place_onward (p : Production) : LeadsOnward (place p) :=
  (make_onward p).bind fun id => (push_onward id).bind fun _ => pure_onward id

/-- Entering a production leads onward, also where it fails between two tokens or finds no room
for what it opens. -/
theorem enter_onward (id : ProductionId) : LeadsOnward (enter id) := by
  refine get_onward.bind fun m => ?_
  cases m.production id with
  | assignment name value =>
    refine (expect_onward .word).bind fun name => (update_onward id _).bind fun _ => ?_
    exact (expect_onward .equals).bind fun _ => pure_onward _
  | quotation opener parts =>
    refine consume_onward.bind fun opener => modify_onward fun m => ?_
    exact (Onward.refl m).congr (remark_cursor ..) (remark_limit ..) (remark_stack ..)
  | substitution parts =>
    refine (expect_onward .dollar).bind fun _ => (expect_onward .leftParenthesis).bind fun _ => ?_
    exact (place_onward _).bind fun inner => update_onward id _
  | _ => exact pure_onward _

theorem spawn_onward (p : Production) : LeadsOnward (spawn p) :=
  (place_onward p).bind fun id => (enter_onward id).bind fun _ => pure_onward id

/-- Whatever a production has decided, carrying it out leads onward. -/
theorem perform_onward (id : ProductionId) (p : Production) (response : Production.Response) :
    LeadsOnward (perform id p response) := by
  cases response with
  | fail why => exact throw_onward why
  | starve => exact starve_onward
  | advance count p' comment leave =>
    refine (modify_onward fun m => ?_).bind fun _ => ?_
    · exact (onward_skip m count).congr (remark_cursor ..) (remark_limit ..) (remark_stack ..)
    · split
      · exact pop_onward id
      · exact pure_onward _
  | spawn child => exact (spawn_onward child).bind fun opened => update_onward id _

theorem handle_onward (id : ProductionId) : LeadsOnward (handle id) :=
  get_onward.bind fun _ => perform_onward id _ _

theorem handleTop_onward : LeadsOnward handleTop := by
  refine get_onward.bind fun m => ?_
  cases m.stack with
  | nil => exact throw_onward _
  | cons top below => exact handle_onward top

/-- So does a whole run: its steps do, and each of them lowers the potential. -/
theorem run_onward : LeadsOnward run := by
  intro m
  induction hPotential : m.potential using Nat.strongRecOn generalizing m with
  | ind n ih =>
    rw [run_eq]
    split
    · exact .refl m
    · refine (handleTop_onward m).bind fun _ next hStep => ?_
      exact ih next.potential (hPotential ▸ potential_handleTop hStep) next rfl

theorem ofExcept_onward (x : Except Failure α) : LeadsOnward (MonadExcept.ofExcept x : Step α) := by
  cases x with
  | ok a => exact pure_onward a
  | error why => exact throw_onward why

theorem peekKind_onward (n : Int) : LeadsOnward (peekKind n) := by
  refine get_onward.bind fun m => ?_
  split
  · exact pure_onward _
  · exact throw_onward _

/-- Every operation leads onward. -/
theorem carryOut_onward (o : Operation) : LeadsOnward o.carryOut := by
  cases o with
  | current => exact current_onward.discard
  | consume => exact consume_onward.discard
  | expect kind => exact (expect_onward kind).discard
  | peek n => exact (get_onward.bind fun _ => pure_onward _).discard
  | peekKind n => exact (peekKind_onward n).discard
  | check kinds => exact (current_onward.bind fun _ => pure_onward _).discard
  | atContinuation => exact (get_onward.bind fun _ => pure_onward _).discard
  | consumeUntil stop => exact (consumeUntil_onward stop).discard
  | make p => exact (make_onward p).discard
  | push id => exact push_onward id
  | pop id => exact pop_onward id
  | enter id => exact enter_onward id
  | handle id => exact handle_onward id
  | handleTop => exact handleTop_onward
  | run => exact run_onward
  | spawn p => exact (spawn_onward p).discard
  | build id => exact (get_onward.bind fun _ => ofExcept_onward _).discard

-- ---------------------------------------------------------------------------
-- Driven machines
-- ---------------------------------------------------------------------------

/-- Operations one after the other lead onward. -/
theorem driven_onward (m : Machine) (operations : List Operation) :
    Onward m (m.driven operations) := by
  induction operations generalizing m with
  | nil => exact .refl m
  | cons o operations ih => exact (carryOut_onward o m).trans (ih (m.after o))

/-- **Machines stay sound however they are driven.** After any operations, failures included, the
token list is the same, the cursor stands in it right behind the token that was read last, and the
stack is within the limit. One more operation does not move the cursor back; and where a token of
some kind is asked for in vain, or a production cannot be put on the stack or taken off it, the
machine is as it was. -/
theorem driven_sound (tokens : List Token) (limit : Int) (operations : List Operation) :
    let m := (start tokens limit).driven operations
    m.cursor.tokens = tokens ∧ m.cursor.pos ≤ tokens.length ∧
      (m.cursor.last? = if m.cursor.pos = 0 then none else tokens[m.cursor.pos - 1]?) ∧
      (m.stack.length : Int) ≤ max limit 0 ∧
      (∀ o, m.cursor.pos ≤ (m.after o).cursor.pos) ∧
      (∀ kind why next, expect kind m = .error why next → next = m) ∧
      (∀ id why next, push id m = .error why next → next = m) ∧
      ∀ id why next, pop id m = .error why next → next = m := by
  intro m
  have hOnward : Onward (start tokens limit) m := driven_onward _ operations
  have hTokens : m.cursor.tokens = tokens := hOnward.tokens
  refine ⟨hTokens, hTokens ▸ m.cursor.pos_le_length, hTokens ▸ m.cursor.last?_eq, ?_,
    fun o => (carryOut_onward o m).pos, fun _ _ _ => expect_error, fun _ _ _ => push_error,
    fun _ _ _ => pop_error⟩
  have hHeight : (m.stack.length : Int) ≤ max ((0 : Nat) : Int) limit := hOnward.height
  omega

/-- An assignment that is entered without being on the stack reads its name and finds no `=`. With
room for one production only, it is then put on the stack, and not once more. -/
theorem driven_sound_halfway :
    let m := (start [⟨.word, ['X'], 0⟩, ⟨.endOfInput, [], 1⟩] 1).driven
      [.make (.assignment none none), .enter 0, .push 0]
    m.cursor.pos = 1 ∧ m.cursor.last? = some ⟨.word, ['X'], 0⟩ ∧ m.stack = [0] ∧
      (∃ why, expect .equals m = .error why m) ∧ (∃ why, push 0 m = .error why m) ∧
      ∃ why, pop 7 m = .error why m := by
  intro m
  obtain ⟨-, -, hLast, -, -, hExpect, hPush, hPop⟩ :=
    driven_sound [⟨.word, ['X'], 0⟩, ⟨.endOfInput, [], 1⟩] 1
      [.make (.assignment none none), .enter 0, .push 0]
  obtain ⟨noEquals, next, h⟩ : ∃ why next, expect .equals m = .error why next := ⟨_, _, rfl⟩
  obtain rfl : next = m := hExpect _ _ _ h
  obtain ⟨noRoom, next, h'⟩ : ∃ why next, push 0 m = .error why next := ⟨_, _, rfl⟩
  obtain rfl : next = m := hPush _ _ _ h'
  obtain ⟨notOnTop, next, h''⟩ : ∃ why next, pop 7 m = .error why next := ⟨_, _, rfl⟩
  obtain rfl : next = m := hPop _ _ _ h''
  exact ⟨rfl, hLast, rfl, ⟨noEquals, h⟩, ⟨noRoom, h'⟩, ⟨notOnTop, h''⟩⟩

end Machine

end ShellReader
