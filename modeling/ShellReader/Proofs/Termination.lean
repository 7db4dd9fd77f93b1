import ShellReader.Proofs.Refinement

/-!
# ShellReader — the run ends

The production on top of the stack reads on, again and again, until no production is open or
one of them fails. Whatever the machine is to begin with (a cursor anywhere, productions
stacked in any order, entered or not, with any parts), this comes to an end, since each step
that succeeds lowers the potential.

## Results

* `Machine.potential_handleTimes` — `n` steps that succeed lower the potential by `n`.
* `Machine.run_ends` — a run ends, within a number of steps that is linear in the tokens that
  are left and the height of the stack.
-/

namespace ShellReader.Machine

variable {m last : Machine} {n : Nat} {u : Unit}

/-- Lets the production on top of the stack read on, `n` times. -/
def handleTimes : Nat → Step Unit
  | 0 => return
  | n + 1 => do
    handleTop
    handleTimes n

/-- The machine comes to an end, and so does its run: after at most `bound` steps that
succeed no production is open, or the production on top fails. -/
def EndsWithin (m : Machine) (bound : Nat) : Prop :=
  ∃ n last, n ≤ bound ∧ handleTimes n m = .ok () last ∧
    ((last.stack = [] ∧ run m = .ok () last) ∨
      (last.stack ≠ [] ∧ ∃ why left, handleTop last = .error why left ∧
        run m = .error why left))

/-- One step more, in front of the others. -/
theorem handleTimes_succ : handleTimes (n + 1) m = .ok u last ↔
    ∃ mid, handleTop m = .ok () mid ∧ handleTimes n mid = .ok u last := by
  show (handleTop >>= fun _ => handleTimes n) m = .ok u last ↔ _
  rw [bind_ok]
  exact ⟨fun ⟨_, mid, hTop, hRest⟩ => ⟨mid, hTop, hRest⟩,
    fun ⟨mid, hTop, hRest⟩ => ⟨(), mid, hTop, hRest⟩⟩

/-- Steps that succeed lower the potential, each by one at least. -/
theorem potential_handleTimes (h : handleTimes n m = .ok u last) :
    last.potential + n ≤ m.potential := by
  induction n generalizing m with
  | zero =>
    obtain ⟨-, rfl⟩ := pure_ok.1 h
    exact Nat.le_refl _
  | succ n ih =>
    obtain ⟨mid, hTop, hRest⟩ := handleTimes_succ.1 h
    have hStep := potential_handleTop hTop
    have hSteps := ih hRest
    omega

theorem potential_le (m : Machine) :
    m.potential ≤ 10 * m.cursor.rest.length + m.stack.length + 6 :=
  Nat.add_le_add_left (weight_le m) _

/-- A machine comes to an end before its potential is used up. -/
theorem endsWithin_potential (m : Machine) : m.EndsWithin m.potential := by
  obtain ⟨size, hSize⟩ : ∃ size, m.potential = size := ⟨_, rfl⟩
  induction size using Nat.strongRecOn generalizing m with
  | ind size ih =>
    by_cases hOpen : m.stack = []
    · refine ⟨0, m, Nat.zero_le _, rfl, .inl ⟨hOpen, ?_⟩⟩
      rw [run_eq, hOpen]
      rfl
    have hRun : run m = (handleTop >>= fun _ => run) m := by
      rw [run_eq, if_neg (by simpa using hOpen)]
    cases hTop : handleTop m with
    | error why left =>
      refine ⟨0, m, Nat.zero_le _, rfl, .inr ⟨hOpen, why, left, hTop, ?_⟩⟩
      rw [hRun]
      simp only [bind, EStateM.bind, hTop]
    | ok u next =>
      have hLower := potential_handleTop hTop
      obtain ⟨n, last, -, hSteps, hEnd⟩ := ih next.potential (by omega) next rfl
      have hAll : handleTimes (n + 1) m = .ok () last := handleTimes_succ.2 ⟨next, hTop, hSteps⟩
      have hCount := potential_handleTimes hAll
      have hSame : run m = run next := by
        rw [hRun]
        simp only [bind, EStateM.bind, hTop]
      rw [← hSame] at hEnd
      exact ⟨n + 1, last, by omega, hAll, hEnd⟩

theorem EndsWithin.mono {bound bound' : Nat} (h : m.EndsWithin bound) (hLe : bound ≤ bound') :
    m.EndsWithin bound' := by
  obtain ⟨n, last, hCount, hRest⟩ := h
  exact ⟨n, last, Nat.le_trans hCount hLe, hRest⟩

/-- **The run ends**, whatever the machine: an empty stack or a failure is reached after a
number of steps that is linear in the tokens that are left and the height of the stack. In
particular the run that reads a token list ends, whatever the list and the limit; where there
is no room for the outermost sequence it does not even start. -/
theorem run_ends :
    (∀ m : Machine, m.EndsWithin (10 * m.cursor.rest.length + m.stack.length + 6)) ∧
      ∀ (tokens : List Token) (limit : Int),
        (limit ≤ 0 ∧ ∃ why left,
            spawn (.freshSequence false) (.start tokens limit) = .error why left) ∨
          ∃ root m, spawn (.freshSequence false) (.start tokens limit) = .ok root m ∧
            m.EndsWithin (10 * tokens.length + 7) := by
  have hAll (m : Machine) : m.EndsWithin (10 * m.cursor.rest.length + m.stack.length + 6) :=
    (endsWithin_potential m).mono (potential_le m)
  refine ⟨hAll, fun tokens limit => ?_⟩
  by_cases hFull : limit ≤ (0 : Nat)
  · obtain ⟨left, hSpawn⟩ := spawn_outermost_full tokens hFull
    refine .inl ⟨by simpa using hFull, ?_⟩
    cases tokens with
    | nil => exact ⟨_, left, hSpawn⟩
    | cons t more => exact ⟨_, left, hSpawn⟩
  · obtain ⟨m, hSpawn, hAt, -⟩ := spawn_outermost tokens hFull
    refine .inr ⟨0, m, hSpawn, (hAll m).mono ?_⟩
    rw [hAt.rest, hAt.stack, List.length_singleton]

end ShellReader.Machine
