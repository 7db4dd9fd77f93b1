import ShellReader.Machine.Lemmas
import ShellReader.Production.Progress

/-!
# ShellReader — running the machine

`Machine.run` lets the production on top of the stack read on until no
production is open. It ends whatever the machine: each step lowers a potential,
which counts the tokens that are left, the height of the stack and how soon the
production on top will close or hand over.

* Reading a token lowers the potential by ten, more than anything else adds.
* A production about to close without reading counts six, which is the most; so
  closing lowers the potential by one.
* A sequence about to open a command counts four, a command or an assignment
  about to open what is inside it two, and a word about to read nothing. Opening
  adds one to the height and takes the next smaller count.

## Results

* `Machine.potential_handleTop` — a step that succeeds lowers the potential.
* `Machine.run_eq` — running is taking a step, then running.
-/

namespace ShellReader.Machine

/-- What the production on top counts in the potential. -/
def weight (m : Machine) : Nat :=
  match m.stack with
  | [] => 0
  | top :: _ => ((m.production top).respond m.limit m.cursor.rest).weight

/-- How far a machine is from the end of its run, at most. -/
def potential (m : Machine) : Nat :=
  10 * m.cursor.rest.length + m.stack.length + m.weight

theorem weight_le (m : Machine) : m.weight ≤ 6 := by
  unfold weight
  split
  · omega
  · exact Production.Response.weight_le _

-- ---------------------------------------------------------------------------
-- Every step lowers the potential
-- ---------------------------------------------------------------------------

/-- Reading on without opening anything lowers the potential. -/
theorem potential_perform_advance {m next : Machine} {top : ProductionId}
    {below : List ProductionId} {p p' : Production} {count : Nat}
    {comment : Option Production.Remark} {leave : Bool} {u : Unit}
    (hStack : m.stack = top :: below)
    (hp : (m.production top).respond m.limit m.cursor.rest =
      .advance count p' comment leave)
    (h : perform top p (.advance count p' comment leave) m = .ok u next) :
    next.potential < m.potential := by
  -- Whatever is noted and closed, the cursor moves by `count` and the stack does not grow.
  have key : next.cursor.rest = m.cursor.rest.drop count ∧
      next.stack = if leave then below else m.stack := by
    simp only [perform, bind_ok, modify_ok] at h
    obtain ⟨_, _, rfl, hPop⟩ := h
    cases leave with
    | false =>
      simp only [Bool.false_eq_true, if_false, pure_ok] at hPop
      obtain ⟨-, rfl⟩ := hPop
      simp
    | true =>
      simp only [if_true, pop_ok] at hPop
      obtain ⟨_, hTop, rfl⟩ := hPop
      simp_all
  obtain ⟨hRest, hStack'⟩ := key
  have hw := weight_le next
  rcases Production.respond_reads_or_leaves hp with ⟨hCount, hNonempty⟩ | ⟨rfl, rfl⟩
  · have hLen : 0 < m.cursor.rest.length := List.length_pos_iff.2 hNonempty
    have hHeight : next.stack.length ≤ m.stack.length := by
      rw [hStack']; split <;> simp [hStack]
    simp only [potential, hRest, List.length_drop]
    omega
  · have hWeight : m.weight = 6 := by simp [weight, hStack, hp, Production.Response.weight]
    simp only [potential, hRest, hStack', hWeight, hStack]
    simp
    omega

/-- Opening a production lowers the potential. -/
theorem potential_perform_spawn {m next : Machine} {top : ProductionId}
    {below : List ProductionId} {p child : Production} {u : Unit}
    (hStack : m.stack = top :: below) (hProduction : m.production top = p)
    (hp : p.respond m.limit m.cursor.rest = .spawn child)
    (h : perform top p (.spawn child) m = .ok u next) :
    next.potential < m.potential := by
  have hTop : top < m.productions.length := by
    apply lt_of_production_ne_blank
    rintro hBlank
    rw [← hProduction, hBlank, Production.respond_blank] at hp
    cases hp
  simp only [perform, spawn, bind_ok, modify_ok, pure_ok] at h
  obtain ⟨_, _, ⟨_, placed, hPlace, _, mid, hEnter, rfl, rfl⟩, rfl⟩ := h
  obtain ⟨rfl, hCursor, hLimit, hProductions, hPlaced⟩ := place_ok hPlace
  have hChild : placed.production m.productions.length = child := by
    simp [production, hProductions]
  have hOpens := Production.opens_of_respond hp
  have hWeight : m.weight = (Production.Response.spawn child).weight := by
    simp [weight, hStack, hProduction, hp]
  have hHeight : placed.stack.length = m.stack.length + 1 := by simp [hPlaced]
  generalize p.adopt m.productions.length = adopted
  have hw := weight_le (mid.update top adopted)
  -- Where entering reads nothing, the new production is on top as it was made.
  have hPlain : mid = placed → (mid.update top adopted).weight =
      (child.respond m.limit m.cursor.rest).weight := by
    rintro rfl
    simp only [weight, update_stack, hPlaced, update_limit, update_cursor, hLimit, hCursor,
      production_update_of_ne (Nat.ne_of_lt hTop), hChild]
  cases child with
  | blank => cases hOpens
  | sequence => cases hOpens
  | command parts =>
    obtain rfl := enter_plain (.inl ⟨_, hChild⟩) hEnter
    have hNext := hPlain rfl
    cases hOpens
    rw [Production.weight_command_of_respond hp] at hNext
    simp only [potential, hWeight, hNext, Production.Response.weight, update_stack,
      update_cursor, hCursor]
    omega
  | word role parts =>
    obtain rfl := enter_plain (.inr ⟨_, _, hChild⟩) hEnter
    have hNext := hPlain rfl
    obtain rfl : parts = [] := by cases hOpens <;> rfl
    rw [Production.weight_word_of_respond hp] at hNext
    simp only [potential, hWeight, hNext, Production.Response.weight, update_stack,
      update_cursor, hCursor]
    omega
  | assignment name value =>
    obtain ⟨hRead, hHeight'⟩ := enter_assignment hChild hEnter
    rw [hCursor] at hRead
    simp only [potential, update_stack, update_cursor, hHeight']
    omega
  | quotation opener parts =>
    obtain ⟨hRead, hHeight'⟩ := enter_quotation hChild hEnter
    rw [hCursor] at hRead
    simp only [potential, update_stack, update_cursor, hHeight']
    omega
  | substitution parts =>
    obtain ⟨hRead, hHeight'⟩ := enter_substitution hChild hEnter
    rw [hCursor] at hRead
    simp only [potential, update_stack, update_cursor, hHeight']
    omega

/-- A step that succeeds lowers the potential. -/
theorem potential_handleTop {m next : Machine} {u : Unit} (h : handleTop m = .ok u next) :
    next.potential < m.potential := by
  simp only [handleTop, bind_ok, get_ok] at h
  obtain ⟨_, _, ⟨rfl, rfl⟩, h⟩ := h
  cases hStack : m.stack with
  | nil => rw [hStack] at h; exact absurd h throw_ok
  | cons top below =>
    rw [hStack] at h
    simp only [handle, bind_ok, get_ok] at h
    obtain ⟨_, _, ⟨rfl, rfl⟩, h⟩ := h
    generalize hr : (m.production top).respond m.limit m.cursor.rest = r at h
    cases r with
    | fail why => exact absurd h throw_ok
    | starve => simp [perform, starve] at h
    | advance count p' comment leave => exact potential_perform_advance hStack hr h
    | spawn child => exact potential_perform_spawn hStack rfl hr h

-- ---------------------------------------------------------------------------
-- Running
-- ---------------------------------------------------------------------------

/-- Lets the production on top of the stack read on until no production is open. -/
def run : Step Unit := fun m =>
  if m.stack.isEmpty then .ok () m
  else match _h : handleTop m with
    | .ok _ next => run next
    | .error why next => .error why next
termination_by m => m.potential
decreasing_by exact potential_handleTop _h

/-- Running is taking a step, then running, until no production is open. -/
theorem run_eq (m : Machine) :
    run m = if m.stack.isEmpty then .ok () m else (handleTop >>= fun _ => run) m := by
  rw [run]
  split
  · rfl
  · split <;> simp_all [bind, EStateM.bind]

end ShellReader.Machine
