import ShellReader.Parse
import ShellReader.Proofs.Front

/-!
# ShellReader — phases of a run

The life of a production on the stack, from the moment it is opened to the
moment it is closed, is a phase of the run. During its phase a production
changes itself and makes new productions, and it leaves every other one alone;
so the productions below it on the stack find themselves as they were, and a
tree that is finished stays what it is.

* `Holds m id tree` — the production `id` is finished and stands for `tree`,
  whatever becomes of the productions made before it.
* `Reaches id m m'` — the run of `m` goes through `m'`, with only `id` and new
  productions touched on the way.
* `At m c ts id p below` — `id` is on top of the stack, in the state `p`, and the
  tokens `ts` are left.
* `Completes m id below r Q` — the phase of `id` ends as the result `r` says: in
  its fault, or with its tokens left and `Q` of its value.

## Results

* `Holds.intro` — a production stands for what it builds out of the trees of
  later productions.
* `At.fails`, `At.starves`, `At.stays`, `At.leaves` and `At.opens` and its like —
  what one step does, for each response.
* `Completes.child` — a phase that goes through the phase of a child.
-/

namespace ShellReader.Machine

open Descent (Context Reading)

-- ---------------------------------------------------------------------------
-- Finished trees
-- ---------------------------------------------------------------------------

/-- `m'` has the productions of `m` from the number `id` on, and perhaps more. -/
structure Extends (id : Nat) (m m' : Machine) : Prop where
  length : m.productions.length ≤ m'.productions.length
  kept   : ∀ j, id ≤ j → j < m.productions.length → m'.production j = m.production j

theorem Extends.refl (id : Nat) (m : Machine) : Extends id m m :=
  ⟨Nat.le_refl _, fun _ _ _ => rfl⟩

theorem Extends.trans {id : Nat} {m₁ m₂ m₃ : Machine} (h : Extends id m₁ m₂)
    (h' : Extends id m₂ m₃) : Extends id m₁ m₃ := by
  refine ⟨Nat.le_trans h.length h'.length, ?_⟩
  intro j hj hLt
  rw [h'.kept j hj (Nat.lt_of_lt_of_le hLt h.length), h.kept j hj hLt]

theorem Extends.mono {id j : Nat} {m m' : Machine} (h : Extends id m m')
    (hj : id ≤ j) : Extends j m m' :=
  ⟨h.length, fun k hk hLt => h.kept k (Nat.le_trans hj hk) hLt⟩

/-- The production `id` stands for `tree`, also after any change to the productions
made before it and with any productions made after it. -/
def Holds (m : Machine) (id : Nat) (tree : Tree) : Prop :=
  ∀ m', Extends id m m' → ∀ fuel, m'.productions.length ≤ fuel + id →
    m'.treeWithin fuel id = .ok tree

theorem Holds.extend {m m' : Machine} {id : Nat} {tree : Tree}
    (h : Holds m id tree) (hExt : Extends id m m') : Holds m' id tree :=
  fun m'' hExt' => h m'' (hExt.trans hExt')

/-- A production stands for what it builds out of the trees of later productions. -/
theorem Holds.intro {m : Machine} {id : Nat} {tree : Tree}
    (hMade : id < m.productions.length)
    (hBuild : ∀ label (trees : Nat → Except Failure Tree),
      (∀ j t, id < j → Holds m j t → trees j = .ok t) →
      (m.production id).build label trees = .ok tree) : Holds m id tree := by
  intro m' hExt fuel hFuel
  have hLength := hExt.length
  obtain ⟨rest, rfl⟩ : ∃ rest, fuel = rest + 1 := ⟨fuel - 1, by omega⟩
  rw [treeWithin, hExt.kept id (Nat.le_refl _) hMade]
  apply hBuild
  intro j t hj hHolds
  exact hHolds m' (hExt.mono (Nat.le_of_lt hj)) rest (by omega)

/-- A finished production has its tree. -/
theorem Holds.tree {m : Machine} {id : Nat} {tree : Tree} (h : Holds m id tree) :
    m.tree id = .ok tree :=
  h m (.refl id m) _ (by omega)

-- ---------------------------------------------------------------------------
-- Stretches of a run
-- ---------------------------------------------------------------------------

/-- The run of `m` goes through `m'`. On the way only the production `id` and new ones
are touched. -/
structure Reaches (id : Nat) (m m' : Machine) : Prop where
  run    : run m = run m'
  tokens : m'.cursor.tokens = m.cursor.tokens
  limit  : m'.limit = m.limit
  length : m.productions.length ≤ m'.productions.length
  kept   : ∀ j, j < m.productions.length → j ≠ id → m'.production j = m.production j

namespace Reaches

variable {id new : Nat} {m₁ m₂ m₃ : Machine}

theorem refl (id : Nat) (m : Machine) : Reaches id m m :=
  ⟨rfl, rfl, rfl, Nat.le_refl _, fun _ _ _ => rfl⟩

theorem trans (h : Reaches id m₁ m₂) (h' : Reaches id m₂ m₃) : Reaches id m₁ m₃ where
  run := h.run.trans h'.run
  tokens := h'.tokens.trans h.tokens
  limit := h'.limit.trans h.limit
  length := Nat.le_trans h.length h'.length
  kept j hj hne := by
    rw [h'.kept j (Nat.lt_of_lt_of_le hj h.length) hne, h.kept j hj hne]

/-- What a new production does leaves the old ones alone. -/
theorem through (h : Reaches id m₁ m₂) (hNew : m₁.productions.length ≤ new)
    (h' : Reaches new m₂ m₃) : Reaches id m₁ m₃ where
  run := h.run.trans h'.run
  tokens := h'.tokens.trans h.tokens
  limit := h'.limit.trans h.limit
  length := Nat.le_trans h.length h'.length
  kept j hj hne := by
    rw [h'.kept j (Nat.lt_of_lt_of_le hj h.length) (by omega), h.kept j hj hne]

/-- The productions after `id` are as they were. -/
theorem extends_of_lt (h : Reaches id m₁ m₂) {j : Nat} (hj : id < j) :
    Extends j m₁ m₂ :=
  ⟨h.length, fun k hk hLt => h.kept k hLt (by omega)⟩

end Reaches

theorem Holds.reach {m m' : Machine} {id j : Nat} {tree : Tree}
    (h : Holds m j tree) (hReaches : Reaches id m m') (hj : id < j) : Holds m' j tree :=
  h.extend (hReaches.extends_of_lt hj)

-- ---------------------------------------------------------------------------
-- Phases
-- ---------------------------------------------------------------------------

/-- The production `id` is on top of the stack, in the state `p`, and `ts` is left. -/
structure At (m : Machine) (c : Context) (ts : List Token) (id : Nat)
    (p : Production) (below : List Nat) : Prop where
  limit      : m.limit = c.limit
  last       : m.cursor.tokens.getLast? = c.last
  rest       : m.cursor.rest = ts
  stack      : m.stack = id :: below
  made       : id < m.productions.length
  production : m.production id = p

/-- The phase of `id` in `m` ends as the result `r` says: in its fault, or closed, with
the tokens left that it leaves and `Q` of its value. -/
def Completes {α : Type} {n : Nat} (m : Machine) (id : Nat)
    (below : List Nat) (r : Except Fault (Reading α n)) (Q : α → Machine → Prop) :
    Prop :=
  match r with
  | .error fault => ∃ m', run m = .error (.fault fault) m'
  | .ok x => ∃ m', Reaches id m m' ∧ m'.cursor.rest = x.rest ∧ m'.stack = below ∧
      Q x.value m'

section Completes

variable {α β : Type} {n k : Nat} {m m' : Machine} {id new : Nat}
  {below : List Nat} {Q : α → Machine → Prop}

theorem completes_error {fault : Fault} (h : ∃ m', run m = .error (.fault fault) m') :
    Completes m id below (.error fault : Except Fault (Reading α n)) Q := h

theorem completes_ok {x : Reading α n} (h : ∃ m', Reaches id m m' ∧
    m'.cursor.rest = x.rest ∧ m'.stack = below ∧ Q x.value m') :
    Completes m id below (.ok x) Q := h

/-- A phase may be followed from a later machine on. -/
theorem Completes.after {r : Except Fault (Reading α n)} (hReaches : Reaches id m m')
    (h : Completes m' id below r Q) : Completes m id below r Q := by
  cases r with
  | error fault =>
    obtain ⟨last, hRun⟩ := h
    exact ⟨last, hReaches.run.trans hRun⟩
  | ok x =>
    obtain ⟨last, hLast, hRest⟩ := h
    exact ⟨last, hReaches.trans hLast, hRest⟩

/-- The phase of a child within the phase of its parent: either the child's fault ends
both, or the parent goes on from where the child has closed. -/
theorem Completes.child {r : Except Fault (Reading β k)} {between : List Nat}
    {next : Reading β k → Except Fault (Reading α n)} {P : β → Machine → Prop}
    (hReaches : Reaches id m m') (hNew : m.productions.length ≤ new)
    (hChild : Completes m' new between r P)
    (hNext : ∀ x last, r = .ok x → Reaches id m last → Reaches new m' last →
      last.cursor.rest = x.rest → last.stack = between → P x.value last →
      Completes m id below (next x) Q) :
    Completes m id below (r >>= next) Q := by
  cases r with
  | error fault =>
    obtain ⟨last, hRun⟩ := hChild
    exact ⟨last, hReaches.run.trans hRun⟩
  | ok x =>
    obtain ⟨last, hLast, hRest, hStack, hP⟩ := hChild
    exact hNext x last rfl (hReaches.through hNew hLast) hLast hRest hStack hP

/-- Two stretches of a phase, one after the other. -/
theorem Completes.bind {r : Except Fault (Reading β k)} {between : List Nat}
    {next : Reading β k → Except Fault (Reading α n)} {P : β → Machine → Prop}
    (h : Completes m id between r P)
    (hNext : ∀ x last, r = .ok x → Reaches id m last → last.cursor.rest = x.rest →
      last.stack = between → P x.value last → Completes last id below (next x) Q) :
    Completes m id below (r >>= next) Q := by
  cases r with
  | error fault => exact h
  | ok x =>
    obtain ⟨last, hLast, hRest, hStack, hP⟩ := h
    exact (hNext x last rfl hLast hRest hStack hP).after hLast

/-- A phase that ends with another value for the same tokens. -/
theorem Completes.map {r : Except Fault (Reading α n)} {P : β → Machine → Prop}
    {next : Reading α n → Reading β k} (h : Completes m id below r Q)
    (hRest : ∀ x, (next x).rest = x.rest)
    (hNext : ∀ x last, Reaches id m last → Q x.value last → P (next x).value last) :
    Completes m id below (r >>= fun x => pure (next x)) P := by
  cases r with
  | error fault => exact h
  | ok x =>
    obtain ⟨last, hLast, hLeft, hStack, hQ⟩ := h
    exact ⟨last, hLast, hLeft.trans (hRest x).symm, hStack, hNext x last hLast hQ⟩

/-- What the result says about the tokens it leaves holds of the machine too. -/
theorem Completes.and_rest {r : Except Fault (Reading α n)} {R : List Token → Prop}
    (h : Completes m id below r Q) (hRest : ∀ x, r = .ok x → R x.rest) :
    Completes m id below r fun v m' => Q v m' ∧ R m'.cursor.rest := by
  cases r with
  | error fault => exact h
  | ok x =>
    obtain ⟨last, hReaches, hLeft, hStack, hQ⟩ := h
    refine ⟨last, hReaches, hLeft, hStack, hQ, ?_⟩
    rw [hLeft]
    exact hRest x rfl

/-- A production is entered where there is room for it. -/
theorem completes_enter {c : Context} {depth : Nat} {t : Token}
    {r : Except Fault (Reading α n)}
    (hFull : c.limit ≤ depth →
      ∃ m', run m = .error (.fault (.atToken t (.tooDeep c.limit))) m')
    (hRoom : ¬ c.limit ≤ depth → Completes m id below r Q) :
    Completes m id below (c.enter depth t >>= fun _ => r) Q := by
  by_cases h : c.limit ≤ depth
  · rw [Context.enter, if_pos h]
    exact hFull h
  · rw [Context.enter, if_neg h]
    exact hRoom h

end Completes

-- ---------------------------------------------------------------------------
-- One step
-- ---------------------------------------------------------------------------

@[simp] theorem remark_productions (m : Machine) (id : Nat)
    (r : Option Production.Remark) : (m.remark id r).productions = m.productions := by
  cases r <;> rfl

@[simp] theorem remark_limit (m : Machine) (id : Nat) (r : Option Production.Remark) :
    (m.remark id r).limit = m.limit := by
  cases r <;> rfl

theorem production_update_self {m : Machine} {id : Nat} {p : Production}
    (h : id < m.productions.length) : (m.update id p).production id = p := by
  simp [production, update, h]

theorem production_congr {m m' : Machine} (h : m'.productions = m.productions) (id : Nat) :
    m'.production id = m.production id := by
  simp [production, h]

/-- Where nothing is left to read, the latest token is the last of the list. -/
theorem last?_of_rest_eq_nil {c : Cursor} (h : c.rest = []) :
    c.last? = c.tokens.getLast? := by
  simp [Cursor.tokens, Cursor.last?, h]

/-- Moving on twice is moving on by both numbers. -/
theorem advance_advance (c : Cursor) (n k : Nat) :
    (c.advance n).advance k = c.advance (n + k) := by
  fun_induction Cursor.advance c n with
  | case1 => simp
  | case2 done n =>
    rw [Nat.succ_add, Cursor.advance]
    cases k <;> rfl
  | case3 done t rest n ih => rw [ih, Nat.succ_add, Cursor.advance]

theorem handleTop_eq {m : Machine} {id : Nat} {below : List Nat}
    (hStack : m.stack = id :: below) :
    handleTop m = perform id (m.production id)
      ((m.production id).respond m.limit m.cursor.rest) m := by
  simp only [handleTop, handle, bind, EStateM.bind, get, getThe, MonadStateOf.get,
    EStateM.get, hStack]

namespace At

variable {m : Machine} {c : Context} {ts : List Token} {id : Nat} {p : Production}
  {below : List Nat}

theorem handleTop (h : At m c ts id p below) :
    handleTop m = perform id p (p.respond c.limit ts) m := by
  rw [handleTop_eq h.stack, h.production, h.limit, h.rest]

/-- The production is still on top after a stretch of the run. -/
theorem reach {m' : Machine} {ts' : List Token} {p' : Production} {below' : List Nat}
    (h : At m c ts id p below) (hReaches : Reaches id m m') (hRest : m'.cursor.rest = ts')
    (hStack : m'.stack = id :: below') (hp : m'.production id = p') :
    At m' c ts' id p' below' :=
  ⟨hReaches.limit.trans h.limit, by rw [hReaches.tokens, h.last], hRest, hStack,
    Nat.lt_of_lt_of_le h.made hReaches.length, hp⟩

/-- A step that succeeds leads on to the machine it leaves behind. -/
theorem run_ok (h : At m c ts id p below) {next : Machine}
    (hStep : perform id p (p.respond c.limit ts) m = .ok () next) : run m = run next := by
  rw [run_eq, h.stack]
  simp [bind, EStateM.bind, h.handleTop, hStep]

/-- A step that fails ends the run. -/
theorem run_error (h : At m c ts id p below) {why : Failure} {next : Machine}
    (hStep : perform id p (p.respond c.limit ts) m = .error why next) :
    run m = .error why next := by
  rw [run_eq, h.stack]
  simp [bind, EStateM.bind, h.handleTop, hStep]

/-- Where a production fails, so does its step. -/
theorem handleTop_fails (h : At m c ts id p below) {t : Token} {cause : Fault.Cause}
    (hr : p.respond c.limit ts = .faultAt t cause) :
    Machine.handleTop m = .error (.fault (.atToken t cause)) m := by
  rw [h.handleTop, hr]
  rfl

theorem fails (h : At m c ts id p below) {t : Token} {cause : Fault.Cause}
    (hr : p.respond c.limit ts = .faultAt t cause) :
    ∃ m', run m = .error (.fault (.atToken t cause)) m' :=
  ⟨m, h.run_error (h.handleTop ▸ h.handleTop_fails hr)⟩

/-- Where a production finds no end, its step fails behind the last token. -/
theorem handleTop_starves (h : At m c ts id p below) (hr : p.respond c.limit ts = .starve) :
    Machine.handleTop m =
      .error (.fault c.missingEnd) (m.skip m.cursor.rest.length) := by
  have hRest : (m.skip m.cursor.rest.length).cursor.rest = [] := by simp
  have hLast : (m.skip m.cursor.rest.length).cursor.last? = c.last := by
    rw [last?_of_rest_eq_nil hRest, ← h.last]
    simp [skip]
  rw [h.handleTop, hr, perform, starve, Cursor.missingEnd, hLast, Context.missingEnd]

theorem starves (h : At m c ts id p below) (hr : p.respond c.limit ts = .starve) :
    ∃ m', run m = .error (.fault c.missingEnd) m' :=
  ⟨_, h.run_error (h.handleTop ▸ h.handleTop_starves hr)⟩

/-- A step of a production that reads on and stays open. -/
theorem handleTop_stays (h : At m c ts id p below) {n : Nat} {next : Production}
    {remark : Option Production.Remark}
    (hr : p.respond c.limit ts = .advance n next remark false) :
    ∃ m', Machine.handleTop m = .ok () m' ∧ Reaches id m m' ∧
      At m' c (ts.drop n) id next below := by
  have hStep : perform id p (p.respond c.limit ts) m =
      .ok () (((m.skip n).update id next).remark id remark) := by
    rw [hr]
    rfl
  refine ⟨((m.skip n).update id next).remark id remark, h.handleTop.trans hStep, ?_, ?_⟩
  · refine ⟨h.run_ok hStep, by simp [skip], by simp [skip, h.limit],
      by simp [skip, update], ?_⟩
    intro j _ hne
    rw [production_congr (remark_productions ..), production_update_of_ne (Ne.symm hne)]
    rfl
  · refine ⟨by simp [skip, h.limit], ?_, by simp [h.rest], by simp [h.stack],
      by simpa [skip, update] using h.made, ?_⟩
    · rw [remark_cursor, update_cursor, skip, Cursor.tokens_advance]
      exact h.last
    · rw [production_congr (remark_productions ..)]
      exact production_update_self h.made

/-- A production that reads on and stays open. -/
theorem stays (h : At m c ts id p below) {n : Nat} {next : Production}
    {remark : Option Production.Remark}
    (hr : p.respond c.limit ts = .advance n next remark false) :
    ∃ m', Reaches id m m' ∧ At m' c (ts.drop n) id next below := by
  obtain ⟨m', -, hNext⟩ := h.handleTop_stays hr
  exact ⟨m', hNext⟩

/-- A step of a production that reads on and closes. -/
theorem handleTop_leaves (h : At m c ts id p below) {n : Nat} {next : Production}
    {remark : Option Production.Remark}
    (hr : p.respond c.limit ts = .advance n next remark true) :
    ∃ m', Machine.handleTop m = .ok () m' ∧ Reaches id m m' ∧
      m'.cursor.rest = ts.drop n ∧ m'.stack = below ∧ m'.production id = next := by
  let read := ((m.skip n).update id next).remark id remark
  have hStack : read.stack = id :: below := by simp [read, h.stack]
  have hPop : pop id read =
      .ok () ({ read with stack := below }.note (.popped below.length (read.label id))) :=
    pop_ok.2 ⟨below, hStack, rfl⟩
  have hStep : perform id p (p.respond c.limit ts) m =
      .ok () ({ read with stack := below }.note (.popped below.length (read.label id))) := by
    rw [hr]
    exact hPop
  refine ⟨_, h.handleTop.trans hStep, ⟨h.run_ok hStep, ?_, ?_, ?_, ?_⟩, ?_, rfl, ?_⟩
  · simp [read, note, skip]
  · simp [read, note, skip]
  · simp [read, note, skip, update]
  · intro j _ hne
    change read.production j = _
    rw [production_congr (remark_productions ..), production_update_of_ne (Ne.symm hne)]
    rfl
  · simp [read, h.rest]
  · change read.production id = _
    rw [production_congr (remark_productions ..)]
    exact production_update_self h.made

/-- A production that reads on and closes. -/
theorem leaves (h : At m c ts id p below) {n : Nat} {next : Production}
    {remark : Option Production.Remark}
    (hr : p.respond c.limit ts = .advance n next remark true) :
    ∃ m', Reaches id m m' ∧ m'.cursor.rest = ts.drop n ∧ m'.stack = below ∧
      m'.production id = next := by
  obtain ⟨m', -, hNext⟩ := h.handleTop_leaves hr
  exact ⟨m', hNext⟩

end At

-- ---------------------------------------------------------------------------
-- Opening a production
-- ---------------------------------------------------------------------------

/-- `m'` is `m` with the productions `new` made and `opened` put on the stack, `n` tokens
further on. -/
structure Entered (m : Machine) (new : List Production) (opened : List Nat) (n : Nat)
    (m' : Machine) : Prop where
  productions : m'.productions = m.productions ++ new
  stack       : m'.stack = opened ++ m.stack
  cursor      : m'.cursor = m.cursor.advance n
  limit       : m'.limit = m.limit

theorem place_of_room {m : Machine} (p : Production) (hRoom : ¬ m.limit ≤ m.stack.length) :
    ∃ m', place p m = .ok m.productions.length m' ∧
      Entered m [p] [m.productions.length] 0 m' := by
  let made : Machine := { m with productions := m.productions ++ [p] }
  refine ⟨{ made with stack := m.productions.length :: m.stack }.note
    (.pushed m.stack.length (made.label m.productions.length)), ?_, rfl, rfl, rfl, rfl⟩
  simp only [place, make, push, bind, EStateM.bind, get, getThe, MonadStateOf.get,
    EStateM.get, if_neg hRoom]
  rfl

theorem place_of_full {m : Machine} (p : Production) (hFull : m.limit ≤ m.stack.length) :
    ∃ m', place p m = match m.cursor.rest with
      | [] => .error (.fault m.cursor.missingEnd) m'
      | t :: _ => .error (.fault (.atToken t (.tooDeep m.limit))) m' := by
  refine ⟨{ m with productions := m.productions ++ [p] }, ?_⟩
  simp only [place, make, push, bind, EStateM.bind, get, getThe, MonadStateOf.get,
    EStateM.get, if_pos hFull, current, Cursor.current]
  cases m.cursor.rest <;> rfl

/-- The production that was made first is in its place. -/
theorem Entered.production {m m' : Machine} {p : Production} {new : List Production}
    {opened : List Nat} {n : Nat} (h : Entered m (p :: new) opened n m') :
    m'.production m.productions.length = p := by
  simp [Machine.production, h.productions]

/-- Where there is room for a quotation, spawning it reads its opening quote. -/
theorem spawn_quotation {m : Machine} {t : Token} {more : List Token}
    (hRest : m.cursor.rest = t :: more) (hRoom : ¬ m.limit ≤ m.stack.length) :
    ∃ m', spawn (.quotation none []) m = .ok m.productions.length m' ∧
      Entered m [.quotation (some t) []] [m.productions.length] 1 m' := by
  obtain ⟨placed, hPlace, hPlaced⟩ := place_of_room (.quotation none []) hRoom
  have hLeft : placed.cursor.rest = t :: more := by simp [hPlaced.cursor, hRest]
  let entered := (((placed.skip 1).update m.productions.length (.quotation (some t) [])).remark
    m.productions.length (some (.opened t.text)))
  have hConsume : consume placed = .ok t (placed.skip 1) :=
    consume_ok.2 ⟨by simp [hLeft], rfl⟩
  have hEnter : enter m.productions.length placed = .ok () entered := by
    simp only [enter, bind, EStateM.bind, get, getThe, MonadStateOf.get, EStateM.get,
      hPlaced.production, hConsume]
    rfl
  have hSpawn : spawn (.quotation none []) m = .ok m.productions.length entered := by
    simp only [spawn, bind, EStateM.bind, hPlace, hEnter]
    rfl
  refine ⟨entered, hSpawn, ?_, hPlaced.stack, ?_, hPlaced.limit⟩
  · simp [entered, update, skip, hPlaced.productions]
  · simp [entered, skip, hPlaced.cursor, Cursor.advance]

namespace At

variable {m m' : Machine} {c : Context} {ts : List Token} {id : Nat} {p child : Production}
  {below opened : List Nat} {new : List Production} {n : Nat}

/-- Where there is no room, nothing is opened. -/
theorem full {t : Token} {more : List Token} (h : At m c (t :: more) id p below)
    (hr : p.respond c.limit (t :: more) = .spawn child)
    (hFull : c.limit ≤ (below.length + 1 : Nat)) :
    ∃ m', run m = .error (.fault (.atToken t (.tooDeep c.limit))) m' := by
  obtain ⟨m', hPlace⟩ := place_of_full (m := m) child (by simpa [h.limit, h.stack] using hFull)
  refine ⟨m', h.run_error ?_⟩
  rw [hr, perform, spawn]
  rw [h.rest, h.limit] at hPlace
  simp [bind, EStateM.bind, hPlace]

/-- What opening a production leaves behind, once it is known what entering it does. -/
theorem spawns (h : At m c ts id p below) (hr : p.respond c.limit ts = .spawn child)
    (hSpawn : spawn child m = .ok m.productions.length m')
    (hEntered : Entered m new opened n m') :
    ∃ m'', Reaches id m m'' ∧ m''.limit = c.limit ∧ m''.cursor.tokens.getLast? = c.last ∧
      m''.cursor.rest = ts.drop n ∧ m''.stack = opened ++ id :: below ∧
      m''.productions.length = m.productions.length + new.length ∧
      m''.production id = p.adopt m.productions.length ∧
      ∀ j, id ≠ j → m''.production j = m'.production j := by
  have hLength : m'.productions.length = m.productions.length + new.length := by
    simp [hEntered.productions]
  have hMade := h.made
  have hOthers : ∀ j, id ≠ j →
      (m'.update id (p.adopt m.productions.length)).production j = m'.production j :=
    fun j hne => production_update_of_ne hne
  refine ⟨m'.update id (p.adopt m.productions.length), ⟨?_, ?_, ?_, ?_, ?_⟩, ?_, ?_, ?_, ?_,
    ?_, ?_, hOthers⟩
  · apply h.run_ok
    rw [hr, perform]
    simp [bind, EStateM.bind, hSpawn, modify, modifyGet, MonadStateOf.modifyGet,
      EStateM.modifyGet]
  · simp [hEntered.cursor]
  · simp [hEntered.limit]
  · simp [update, hLength]
  · intro j hj hne
    rw [hOthers j (Ne.symm hne)]
    simp [Machine.production, hEntered.productions, List.getElem?_append_left hj]
  · simp [hEntered.limit, h.limit]
  · simp [hEntered.cursor, h.last]
  · simp [hEntered.cursor, h.rest]
  · simp [hEntered.stack, h.stack]
  · simp [update, hLength]
  · exact production_update_self (by omega)

/-- What opening a single production leaves behind. -/
theorem spawns_one (h : At m c ts id p below) (hr : p.respond c.limit ts = .spawn child)
    (hSpawn : spawn child m = .ok m.productions.length m') {entered : Production}
    (hEntered : Entered m [entered] [m.productions.length] n m') :
    ∃ m'', Reaches id m m'' ∧
      At m'' c (ts.drop n) m.productions.length entered (id :: below) ∧
      m''.production id = p.adopt m.productions.length := by
  obtain ⟨m'', hReaches, hLimit, hLast, hRest, hStack, hLength, hAdopted, hOthers⟩ :=
    h.spawns hr hSpawn hEntered
  have hMade := h.made
  refine ⟨m'', hReaches, ⟨hLimit, hLast, hRest, hStack, by simp [hLength], ?_⟩, hAdopted⟩
  rw [hOthers _ (by omega)]
  exact hEntered.production

/-- Opening a command or a word reads nothing. -/
theorem opens_plain (h : At m c ts id p below) (hr : p.respond c.limit ts = .spawn child)
    (hPlain : child = .command [] ∨ ∃ role, child = .word role [])
    (hRoom : ¬ c.limit ≤ (below.length + 1 : Nat)) :
    ∃ m', Reaches id m m' ∧ At m' c ts m.productions.length child (id :: below) ∧
      m'.production id = p.adopt m.productions.length := by
  obtain ⟨placed, hPlace, hPlaced⟩ :=
    place_of_room (m := m) child (by simpa [h.limit, h.stack] using hRoom)
  have hEnter : enter m.productions.length placed = .ok () placed := by
    simp only [enter, bind, EStateM.bind, get, getThe, MonadStateOf.get, EStateM.get,
      hPlaced.production]
    rcases hPlain with rfl | ⟨role, rfl⟩ <;> rfl
  have hSpawn : spawn child m = .ok m.productions.length placed := by
    simp only [spawn, bind, EStateM.bind, hPlace, hEnter]
    rfl
  exact h.spawns_one hr hSpawn hPlaced

/-- Opening a quotation reads its opening quote. -/
theorem opens_quotation {t : Token} {more : List Token} (h : At m c (t :: more) id p below)
    (hr : p.respond c.limit (t :: more) = .spawn (.quotation none []))
    (hRoom : ¬ c.limit ≤ (below.length + 1 : Nat)) :
    ∃ m', Reaches id m m' ∧
      At m' c more m.productions.length (.quotation (some t) []) (id :: below) ∧
      m'.production id = p.adopt m.productions.length := by
  obtain ⟨entered, hSpawn, hEntered⟩ :=
    spawn_quotation h.rest (by simpa [h.limit, h.stack] using hRoom)
  exact h.spawns_one hr hSpawn hEntered

/-- Opening an assignment reads its name and the `=` behind it. -/
theorem opens_assignment {name equals : Token} {more : List Token}
    (h : At m c (name :: equals :: more) id p below)
    (hr : p.respond c.limit (name :: equals :: more) = .spawn (.assignment none none))
    (hName : name.kind = .word) (hEquals : equals.kind = .equals)
    (hRoom : ¬ c.limit ≤ (below.length + 1 : Nat)) :
    ∃ m', Reaches id m m' ∧
      At m' c more m.productions.length (.assignment (some name) none) (id :: below) ∧
      m'.production id = p.adopt m.productions.length := by
  obtain ⟨placed, hPlace, hPlaced⟩ :=
    place_of_room (m := m) (.assignment none none) (by simpa [h.limit, h.stack] using hRoom)
  have hRest : placed.cursor.rest = name :: equals :: more := by
    simp [hPlaced.cursor, h.rest]
  let named := (placed.skip 1).update m.productions.length (.assignment (some name) none)
  have hFirst : expect .word placed = .ok name (placed.skip 1) :=
    expect_ok.2 ⟨by simp [hRest], hName, rfl⟩
  have hSecond : expect .equals named = .ok equals (named.skip 1) :=
    expect_ok.2 ⟨by simp [named, hRest], hEquals, rfl⟩
  have hEnter : enter m.productions.length placed = .ok () (named.skip 1) := by
    simp only [enter, bind, EStateM.bind, get, getThe, MonadStateOf.get, EStateM.get,
      hPlaced.production, hFirst, modify, modifyGet, MonadStateOf.modifyGet,
      EStateM.modifyGet]
    rw [hSecond]
    rfl
  have hSpawn : spawn (.assignment none none) m = .ok m.productions.length (named.skip 1) := by
    simp only [spawn, bind, EStateM.bind, hPlace, hEnter]
    rfl
  have hEntered : Entered m [.assignment (some name) none] [m.productions.length] 2
      (named.skip 1) := by
    refine ⟨?_, hPlaced.stack, ?_, hPlaced.limit⟩
    · simp [named, update, skip, hPlaced.productions]
    · simp [named, update, skip, hPlaced.cursor, advance_advance]
  exact h.spawns_one hr hSpawn hEntered

section Substitution

variable {dollar paren : Token} {inside : List Token}

/-- Entering a substitution comes down to placing its sequence behind the `$(`. -/
theorem enter_substitution_eq {placed : Machine} (hPlaced : Entered m [.substitution []]
      [m.productions.length] 0 placed) (hRest : m.cursor.rest = dollar :: paren :: inside)
    (hDollar : dollar.kind = .dollar) (hParen : paren.kind = .leftParenthesis) :
    enter m.productions.length placed =
      (place (.freshSequence true) >>= fun inner =>
        modify (·.update m.productions.length (.substitution [inner])))
        ((placed.skip 1).skip 1) := by
  have hLeft : placed.cursor.rest = dollar :: paren :: inside := by
    simp [hPlaced.cursor, hRest]
  have hFirst : expect .dollar placed = .ok dollar (placed.skip 1) :=
    expect_ok.2 ⟨by simp [hLeft], hDollar, rfl⟩
  have hSecond : expect .leftParenthesis (placed.skip 1) =
      .ok paren ((placed.skip 1).skip 1) :=
    expect_ok.2 ⟨by simp [hLeft], hParen, rfl⟩
  simp only [enter, bind, EStateM.bind, get, getThe, MonadStateOf.get, EStateM.get,
    hPlaced.production, hFirst, hSecond]
  rfl

/-- Where there is room for a substitution and not for its sequence, opening it fails
behind the `$(`. -/
theorem full_inside (h : At m c (dollar :: paren :: inside) id p below)
    (hr : p.respond c.limit (dollar :: paren :: inside) = .spawn (.substitution []))
    (hDollar : dollar.kind = .dollar) (hParen : paren.kind = .leftParenthesis)
    (hRoom : ¬ c.limit ≤ (below.length + 1 : Nat))
    (hFull : c.limit ≤ (below.length + 2 : Nat)) :
    ∃ m', run m = match inside with
      | [] => .error (.fault c.missingEnd) m'
      | t :: _ => .error (.fault (.atToken t (.tooDeep c.limit))) m' := by
  obtain ⟨placed, hPlace, hPlaced⟩ :=
    place_of_room (m := m) (.substitution []) (by simpa [h.limit, h.stack] using hRoom)
  let before := (placed.skip 1).skip 1
  have hRest : before.cursor.rest = inside := by
    simp [before, hPlaced.cursor, h.rest]
  have hLimit : before.limit = c.limit := hPlaced.limit.trans h.limit
  have hHeight : before.stack.length = below.length + 2 := by
    simp [before, hPlaced.stack, h.stack]
  obtain ⟨last, hLast⟩ := place_of_full (m := before) (.freshSequence true)
    (by rw [hLimit, hHeight]; exact hFull)
  rw [hRest, hLimit] at hLast
  refine ⟨last, ?_⟩
  have hEnter := enter_substitution_eq hPlaced h.rest hDollar hParen
  cases inside with
  | nil =>
    have hEnd : before.cursor.missingEnd = c.missingEnd := by
      rw [Cursor.missingEnd, Context.missingEnd, last?_of_rest_eq_nil hRest, ← h.last]
      simp [before, skip, hPlaced.cursor]
    rw [hEnd] at hLast
    apply h.run_error
    rw [hr, perform, spawn]
    simp [bind, EStateM.bind, hPlace, hEnter, before, hLast]
  | cons t more =>
    apply h.run_error
    rw [hr, perform, spawn]
    simp [bind, EStateM.bind, hPlace, hEnter, before, hLast]

/-- Opening a substitution reads its `$(` and opens a sequence on top of it. -/
theorem opens_substitution (h : At m c (dollar :: paren :: inside) id p below)
    (hr : p.respond c.limit (dollar :: paren :: inside) = .spawn (.substitution []))
    (hDollar : dollar.kind = .dollar) (hParen : paren.kind = .leftParenthesis)
    (hRoom : ¬ c.limit ≤ (below.length + 2 : Nat)) :
    ∃ m', Reaches id m m' ∧
      At m' c inside (m.productions.length + 1) (.freshSequence true)
        (m.productions.length :: id :: below) ∧
      m'.production m.productions.length = .substitution [m.productions.length + 1] ∧
      m'.production id = p.adopt m.productions.length := by
  obtain ⟨placed, hPlace, hPlaced⟩ := place_of_room (m := m) (.substitution [])
    (by simp only [h.limit, h.stack, List.length_cons]; omega)
  let before := (placed.skip 1).skip 1
  have hLimit : before.limit = c.limit := hPlaced.limit.trans h.limit
  have hHeight : before.stack.length = below.length + 2 := by
    simp [before, hPlaced.stack, h.stack]
  have hCount : before.productions.length = m.productions.length + 1 := by
    simp [before, skip, hPlaced.productions]
  obtain ⟨both, hInner, hBoth⟩ := place_of_room (m := before) (.freshSequence true)
    (by rw [hLimit, hHeight]; exact hRoom)
  rw [hCount] at hInner hBoth
  let entered := both.update m.productions.length (.substitution [m.productions.length + 1])
  have hSpawn : spawn (.substitution []) m = .ok m.productions.length entered := by
    simp only [spawn, bind, EStateM.bind, hPlace,
      enter_substitution_eq hPlaced h.rest hDollar hParen]
    rw [hInner]
    rfl
  have hEntered : Entered m
      [.substitution [m.productions.length + 1], .freshSequence true]
      [m.productions.length + 1, m.productions.length] 2 entered := by
    refine ⟨?_, ?_, ?_, hBoth.limit.trans hPlaced.limit⟩
    · simp [entered, update, hBoth.productions, before, skip, hPlaced.productions]
    · simp [entered, hBoth.stack, before, hPlaced.stack]
    · simp [entered, hBoth.cursor, before, skip, hPlaced.cursor, advance_advance]
  obtain ⟨m'', hReaches, hLimit, hLast, hRest, hStack, hLength, hAdopted, hOthers⟩ :=
    h.spawns hr hSpawn hEntered
  have hMade := h.made
  refine ⟨m'', hReaches, ⟨hLimit, hLast, hRest, hStack, by simp [hLength], ?_⟩, ?_, hAdopted⟩
  · rw [hOthers _ (by omega)]
    simp [Machine.production, hEntered.productions]
  · rw [hOthers _ (by omega)]
    exact hEntered.production

end Substitution

end At

end ShellReader.Machine
