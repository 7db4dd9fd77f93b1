import ShellReader.Machine.Basic

/-!
# ShellReader — when the operations of the machine succeed

For each operation, exactly when it succeeds and which machine it leaves behind.
Longer computations are taken apart with `Machine.bind_ok`.

## Results

* `Machine.expect_ok` — when a token of a given kind can be read.
* `Machine.push_ok` — pushing adds to the stack and to nothing else but the log.
* `Machine.pop_ok` — the production on top can be closed, and no other.
* `Machine.enter_assignment` and its like — how much entering reads and opens.
-/

namespace ShellReader.Machine

-- ---------------------------------------------------------------------------
-- Parts of an updated machine
-- ---------------------------------------------------------------------------

@[simp] theorem update_stack (m : Machine) (id : ProductionId) (p : Production) :
    (m.update id p).stack = m.stack := rfl

@[simp] theorem update_cursor (m : Machine) (id : ProductionId) (p : Production) :
    (m.update id p).cursor = m.cursor := rfl

@[simp] theorem update_limit (m : Machine) (id : ProductionId) (p : Production) :
    (m.update id p).limit = m.limit := rfl

@[simp] theorem skip_stack (m : Machine) (n : Nat) : (m.skip n).stack = m.stack := rfl

@[simp] theorem skip_rest (m : Machine) (n : Nat) :
    (m.skip n).cursor.rest = m.cursor.rest.drop n := by
  simp [skip]

@[simp] theorem note_stack (m : Machine) (e : Event) : (m.note e).stack = m.stack := rfl

@[simp] theorem note_cursor (m : Machine) (e : Event) : (m.note e).cursor = m.cursor := rfl

@[simp] theorem remark_stack (m : Machine) (id : ProductionId)
    (r : Option Production.Remark) : (m.remark id r).stack = m.stack := by
  cases r <;> rfl

@[simp] theorem remark_cursor (m : Machine) (id : ProductionId)
    (r : Option Production.Remark) : (m.remark id r).cursor = m.cursor := by
  cases r <;> rfl

/-- A production that does not fail for want of a rule has been made. -/
theorem lt_of_production_ne_blank {m : Machine} {id : ProductionId}
    (h : m.production id ≠ .blank) : id < m.productions.length := by
  by_cases hlt : id < m.productions.length
  · exact hlt
  · exact absurd (by simp [production, List.getElem?_eq_none (Nat.not_lt.1 hlt)]) h

/-- Replacing one production leaves the others as they are. -/
theorem production_update_of_ne {m : Machine} {id other : ProductionId} {p : Production}
    (h : id ≠ other) : (m.update id p).production other = m.production other := by
  simp [production, update, List.getElem?_set_ne h]

-- ---------------------------------------------------------------------------
-- Operations
-- ---------------------------------------------------------------------------

/-- A computation in two parts succeeds when the parts do, one after the other. -/
theorem bind_ok {α β : Type} {x : Step α} {f : α → Step β} {m next : Machine} {b : β} :
    (x >>= f) m = .ok b next ↔ ∃ a mid, x m = .ok a mid ∧ f a mid = .ok b next := by
  cases hx : x m with
  | error why mid => simp [bind, EStateM.bind, hx]
  | ok a mid =>
    simp only [bind, EStateM.bind, hx, EStateM.Result.ok.injEq]
    constructor
    · intro h
      exact ⟨a, mid, ⟨rfl, rfl⟩, h⟩
    · rintro ⟨_, _, ⟨rfl, rfl⟩, h⟩
      exact h

@[simp] theorem pure_ok {α : Type} {a b : α} {m next : Machine} :
    (pure a : Step α) m = .ok b next ↔ a = b ∧ m = next := by
  simp [pure, EStateM.pure]

@[simp] theorem get_ok {a m next : Machine} :
    (get : Step Machine) m = .ok a next ↔ m = a ∧ m = next := by
  show EStateM.Result.ok m m = .ok a next ↔ _
  simp

@[simp] theorem set_ok {a m next : Machine} {u : PUnit} :
    (set a : Step PUnit) m = .ok u next ↔ a = next := by
  show EStateM.Result.ok ⟨⟩ a = .ok u next ↔ _
  simp

@[simp] theorem modify_ok {f : Machine → Machine} {m next : Machine} {u : PUnit} :
    (modify f : Step PUnit) m = .ok u next ↔ f m = next := by
  show EStateM.Result.ok ⟨⟩ (f m) = .ok u next ↔ _
  simp

@[simp] theorem throw_ok {α : Type} {why : Failure} {a : α} {m next : Machine} :
    ¬ (throw why : Step α) m = .ok a next := by
  show ¬ EStateM.Result.error why m = .ok a next
  simp

/-- The current token is the first of those that are left. -/
theorem current_ok {t : Token} {m next : Machine} :
    current m = .ok t next ↔ m.cursor.rest.head? = some t ∧ m = next := by
  cases h : m.cursor.rest <;> simp [current, Cursor.current, h]

/-- Reading a token moves the cursor past it and changes nothing else. -/
theorem consume_ok {t : Token} {m next : Machine} :
    consume m = .ok t next ↔ m.cursor.rest.head? = some t ∧ m.skip 1 = next := by
  simp only [consume, bind_ok, current_ok, modify_ok, pure_ok]
  constructor
  · rintro ⟨_, _, ⟨h, rfl⟩, _, _, rfl, rfl, rfl⟩
    exact ⟨h, rfl⟩
  · rintro ⟨h, rfl⟩
    exact ⟨_, _, ⟨h, rfl⟩, ⟨⟩, _, rfl, rfl, rfl⟩

/-- Reading a token of a given kind succeeds where such a token stands. -/
theorem expect_ok {kind : Token.Kind} {t : Token} {m next : Machine} :
    expect kind m = .ok t next ↔
      m.cursor.rest.head? = some t ∧ t.kind = kind ∧ m.skip 1 = next := by
  simp only [expect, bind_ok, current_ok]
  constructor
  · rintro ⟨t', _, ⟨h, rfl⟩, hRest⟩
    split at hRest
    · obtain ⟨h', rfl⟩ := consume_ok.1 hRest
      obtain rfl : t' = t := by simpa [h] using h'
      exact ⟨h, ‹_›, rfl⟩
    · exact absurd hRest throw_ok
  · rintro ⟨h, hKind, rfl⟩
    refine ⟨t, m, ⟨h, rfl⟩, ?_⟩
    rw [if_pos hKind]
    exact consume_ok.2 ⟨h, rfl⟩

/-- Making a production adds it behind all others. -/
theorem make_ok {p : Production} {id : ProductionId} {m next : Machine} :
    make p m = .ok id next ↔
      m.productions.length = id ∧ { m with productions := m.productions ++ [p] } = next := by
  simp [make]

/-- Pushing adds to the stack and to nothing else but the log. -/
theorem push_ok {id : ProductionId} {m next : Machine} {u : Unit} :
    push id m = .ok u next ↔ ¬ m.limit ≤ m.stack.length ∧
      { m with stack := id :: m.stack }.note (.pushed m.stack.length (m.label id)) = next := by
  simp only [push, bind_ok, get_ok]
  constructor
  · rintro ⟨_, _, ⟨rfl, rfl⟩, h⟩
    split at h
    · obtain ⟨_, _, _, h⟩ := bind_ok.1 h
      exact absurd h throw_ok
    · exact ⟨‹_›, set_ok.1 h⟩
  · rintro ⟨hRoom, rfl⟩
    refine ⟨m, m, ⟨rfl, rfl⟩, ?_⟩
    rw [if_neg hRoom]
    exact set_ok.2 rfl

/-- The production on top can always be closed, and no other. -/
theorem pop_ok {id : ProductionId} {m next : Machine} {u : Unit} :
    pop id m = .ok u next ↔ ∃ below, m.stack = id :: below ∧
      { m with stack := below }.note (.popped below.length (m.label id)) = next := by
  simp only [pop, bind_ok, get_ok]
  constructor
  · rintro ⟨_, _, ⟨rfl, rfl⟩, h⟩
    cases hStack : m.stack with
    | nil => rw [hStack] at h; exact absurd h throw_ok
    | cons top below =>
      rw [hStack] at h
      dsimp only at h
      split at h
      · rename_i hTop
        subst hTop
        exact ⟨below, rfl, set_ok.1 h⟩
      · exact absurd h throw_ok
  · rintro ⟨below, hStack, rfl⟩
    refine ⟨m, m, ⟨rfl, rfl⟩, ?_⟩
    simp [hStack]

/-- Nothing can be closed where nothing is open. -/
theorem pop_empty {m : Machine} (h : m.stack = []) (id : ProductionId) :
    pop id m = .error (.noElement .outOfRange) m := by
  cases m
  cases h
  rfl

/-- A production cannot be closed while another one is on top. -/
theorem pop_other {id top : ProductionId} {below : List ProductionId} {m : Machine}
    (h : m.stack = top :: below) (hTop : top ≠ id) :
    pop id m = .error (.notOnTop (m.label id) (m.label top)) m := by
  cases m
  cases h
  exact congrFun (if_neg hTop) _

/-- Placing a production makes it and puts it on top of the stack. -/
theorem place_ok {p : Production} {id : ProductionId} {m next : Machine}
    (h : place p m = .ok id next) :
    id = m.productions.length ∧ next.cursor = m.cursor ∧ next.limit = m.limit ∧
      next.productions = m.productions ++ [p] ∧ next.stack = id :: m.stack := by
  simp only [place, bind_ok, make_ok, push_ok, pure_ok] at h
  obtain ⟨_, _, ⟨rfl, rfl⟩, _, _, ⟨_, rfl⟩, rfl, rfl⟩ := h
  exact ⟨rfl, rfl, rfl, rfl, rfl⟩

-- ---------------------------------------------------------------------------
-- What entering does
-- ---------------------------------------------------------------------------

/-- Entering an assignment reads two tokens and opens nothing. -/
theorem enter_assignment {id : ProductionId} {m next : Machine} {u : Unit}
    {name : Option Token} {value : Option ProductionId}
    (hp : m.production id = .assignment name value) (h : enter id m = .ok u next) :
    next.cursor.rest.length + 2 = m.cursor.rest.length ∧ next.stack = m.stack := by
  simp only [enter, bind_ok, get_ok] at h
  obtain ⟨_, _, ⟨rfl, rfl⟩, h⟩ := h
  rw [hp] at h
  simp only [bind_ok, expect_ok, modify_ok, pure_ok] at h
  obtain ⟨_, _, ⟨h₁, -, rfl⟩, _, _, rfl, _, _, ⟨h₂, -, rfl⟩, -, rfl⟩ := h
  cases hr : m.cursor.rest with
  | nil => simp [hr] at h₁
  | cons a more => cases more <;> simp_all

/-- Entering a quotation reads a token and opens nothing. -/
theorem enter_quotation {id : ProductionId} {m next : Machine} {u : Unit}
    {opener : Option Token} {parts : List Token}
    (hp : m.production id = .quotation opener parts) (h : enter id m = .ok u next) :
    next.cursor.rest.length + 1 = m.cursor.rest.length ∧ next.stack = m.stack := by
  simp only [enter, bind_ok, get_ok] at h
  obtain ⟨_, _, ⟨rfl, rfl⟩, h⟩ := h
  rw [hp] at h
  simp only [bind_ok, consume_ok, modify_ok] at h
  obtain ⟨_, _, ⟨h₁, rfl⟩, rfl⟩ := h
  cases hr : m.cursor.rest <;> simp_all

/-- Entering a substitution reads two tokens and opens one production. -/
theorem enter_substitution {id : ProductionId} {m next : Machine} {u : Unit}
    {parts : List ProductionId}
    (hp : m.production id = .substitution parts) (h : enter id m = .ok u next) :
    next.cursor.rest.length + 2 = m.cursor.rest.length ∧
      next.stack.length = m.stack.length + 1 := by
  simp only [enter, bind_ok, get_ok] at h
  obtain ⟨_, _, ⟨rfl, rfl⟩, h⟩ := h
  rw [hp] at h
  simp only [bind_ok, expect_ok, modify_ok] at h
  obtain ⟨_, _, ⟨h₁, -, rfl⟩, _, _, ⟨h₂, -, rfl⟩, _, mid, hPlace, rfl⟩ := h
  obtain ⟨-, hCursor, -, -, hStack⟩ := place_ok hPlace
  cases hr : m.cursor.rest with
  | nil => simp [hr] at h₁
  | cons a more => cases more <;> simp_all

/-- Entering a command or a word does nothing. -/
theorem enter_plain {id : ProductionId} {m next : Machine} {u : Unit}
    (hp : (∃ parts, m.production id = .command parts) ∨
      ∃ role parts, m.production id = .word role parts)
    (h : enter id m = .ok u next) : next = m := by
  simp only [enter, bind_ok, get_ok] at h
  obtain ⟨_, _, ⟨rfl, rfl⟩, h⟩ := h
  rcases hp with ⟨_, hp⟩ | ⟨_, _, hp⟩ <;> rw [hp] at h <;> simp_all

end ShellReader.Machine
