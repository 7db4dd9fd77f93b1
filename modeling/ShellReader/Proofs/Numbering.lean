import ShellReader.Proofs.Shape
import Mathlib.Data.List.Intervals

/-!
# ShellReader — the order of the productions

A production gets its number when it is made, and it is made while the one that records it is on
top of the stack. So the numbers go through the productions as a walk does, each before what it
has recorded: what a production has recorded, with all that is below it, is numbered one after
the other right behind it (`Machine.Spans`). Of the productions on the stack this holds up to the
one above, which was recorded last (`Machine.Under`).

## Results

* `Production.children_of_respond`, `Production.Opens.children_adopt` — reading on records
  nothing, and opening records one production more.
* `Machine.Numbered.step`, `Machine.Numbered.steps` — a step keeps the numbers in this order, and
  so do any number of steps.
* `Machine.spans_of_run` — when the run is over, they are all numbered in this order.
-/

namespace ShellReader

namespace Production

variable {limit : Int} {rest : List Token} {p next child : Production} {count : Nat}
  {remark : Option Remark} {leave : Bool}

-- ---------------------------------------------------------------------------
-- What a production has recorded
-- ---------------------------------------------------------------------------

/-- The productions that a production has recorded, in order. -/
def children : Production → List ProductionId
  | sequence _ items current => (items.flatten ++ current).filterMap Part.id?
  | command parts | substitution parts => parts
  | assignment _ value => value.toList
  | word _ parts => parts.filterMap Part.id?
  | blank | quotation .. => []

theorem finished_flatten (items : List (List Part)) (current : List Part) :
    (finished items current).flatten = items.flatten ++ current := by
  unfold finished
  split
  · rename_i hEmpty
    rw [List.isEmpty_iff.1 hEmpty, List.append_nil]
  · rw [List.flatten_append, List.flatten_singleton]

theorem filterMap_id?_tokens (ts : List Token) : (ts.map Part.token).filterMap Part.id? = [] := by
  rw [List.filterMap_map]
  exact List.filterMap_eq_nil_iff.2 fun _ _ => rfl

theorem children_of_respondWord {t : Token} {more : List Token} {role : WordRole}
    {parts : List Part} (h : respondWord t more role parts = .advance count next remark leave) :
    next.children = (word role parts).children := by
  unfold respondWord at h
  split at h
  · cases h
    rfl
  split at h
  · cases h
  split at h
  · split at h
    · cases h
    · cases h
      simp [children, Part.id?]
  dsimp only at h
  split at h
  · cases h
  · cases h
    rw [children, children, List.filterMap_append, filterMap_id?_tokens, List.append_nil]

/-- A production that reads on records nothing. -/
theorem children_of_respond (h : p.respond limit rest = .advance count next remark leave) :
    next.children = p.children := by
  cases advances_of_respond h with
  | skip => rfl
  | finish => simp [children, finished_flatten]
  | operator => simp [children, Part.id?]
  | close => simp [children, finished_flatten]
  | commandSkip => rfl
  | commandClose => rfl
  | assignmentClose => rfl
  | wordClose => rfl
  | wordRead => exact children_of_respondWord h
  | quotation => rfl
  | substitutionClose => rfl

/-- A production that opens another one records it behind the others. -/
theorem Opens.children_adopt (h : Opens p child) (id : ProductionId) :
    (p.adopt id).children = p.children ++ [id] := by
  cases h <;> simp [Production.adopt, children, Part.id?]

/-- Only an assignment opens a value. -/
theorem Opens.label_eq_assignment (h : Opens p child) (hValue : child.label = .value) :
    p.label = .assignment := by
  cases h with
  | value => rfl
  | _ => cases hValue

theorem label_fresh (p : Production) : p.fresh.label = p.label := by
  cases p with
  | word role parts => cases role <;> rfl
  | _ => rfl

end Production

namespace Machine

open Production (Label)

variable {m next last : Machine} {top id above root n lo mid hi : Nat} {below ids : List Nat}
  {new : List Production} {p child : Production} {count : Nat} {u : Unit} {tokens : List Token}
  {limit : Int} {parent : Label} {opened : List Nat}

-- ---------------------------------------------------------------------------
-- Spans
-- ---------------------------------------------------------------------------

/-- A production of the same sort as before, with the same productions recorded. -/
structure SameRecord (m next : Machine) (id : ProductionId) : Prop where
  label    : next.label id = m.label id
  children : (next.production id).children = (m.production id).children

/-- The productions `ids`, which one of the sort `parent` has recorded, are numbered from `lo` on,
each before all that it has recorded in turn, and nothing else is up to `hi`. A value is recorded
by an assignment only. -/
inductive Spans (m : Machine) : Label → Nat → List ProductionId → Nat → Prop where
  | nil {parent : Label} {lo : Nat} : Spans m parent lo [] lo
  | cons {parent : Label} {id mid hi : Nat} {rest : List ProductionId}
      (hParent : m.label id = .value → parent = .assignment)
      (hInside : Spans m (m.label id) (id + 1) (m.production id).children mid)
      (hRest : Spans m parent mid rest hi) : Spans m parent id (id :: rest) hi

namespace Spans

theorem le (h : Spans m parent lo ids hi) : lo ≤ hi := by
  induction h with
  | nil => exact Nat.le_refl _
  | cons _ _ _ hInside hRest => omega

theorem append {more : List Nat} (h : Spans m parent lo ids mid)
    (hMore : Spans m parent mid more hi) : Spans m parent lo (ids ++ more) hi := by
  induction h with
  | nil => exact hMore
  | cons hParent hInside _ _ ih => exact .cons hParent hInside (ih hMore)

/-- Only the productions inside a span matter to it. -/
theorem congr (h : Spans m parent lo ids hi)
    (hSame : ∀ id, lo ≤ id → id < hi → SameRecord m next id) : Spans next parent lo ids hi := by
  induction h with
  | nil => exact .nil
  | @cons parent id mid hi rest hParent hInside hRest ihInside ihRest =>
    have hMid := hInside.le
    have hHi := hRest.le
    obtain ⟨hLabel, hChildren⟩ := hSame id (Nat.le_refl _) (by omega)
    have hInside' : Spans next (m.label id) (id + 1) (m.production id).children mid :=
      ihInside fun j hLo hUp => hSame j (by omega) (by omega)
    rw [← hLabel, ← hChildren] at hInside'
    exact .cons (hLabel ▸ hParent) hInside' (ihRest fun j hLo hUp => hSame j (by omega) hUp)

end Spans

/-- One production on another: it was recorded last, and what was recorded before it is numbered
up to it. -/
def Under (m : Machine) (above below : ProductionId) : Prop :=
  ∃ before, (m.production below).children = before ++ [above] ∧
    Spans m (m.label below) (below + 1) before above ∧
    (m.label above = .value → m.label below = .assignment)

/-- When the upper one is through, what the lower one has recorded is all numbered. -/
theorem Under.close (h : Under m above id)
    (hAbove : Spans m (m.label above) (above + 1) (m.production above).children hi) :
    Spans m (m.label id) (id + 1) (m.production id).children hi := by
  obtain ⟨before, hChildren, hBefore, hValue⟩ := h
  rw [hChildren]
  exact hBefore.append (.cons hValue hAbove .nil)

/-- What a step keeps about the numbers. -/
structure Numbered (m : Machine) : Prop where
  links   : m.stack.IsChain (Under m)
  top     : ∀ top ∈ m.stack.head?,
    Spans m (m.label top) (top + 1) (m.production top).children m.productions.length
  through : m.stack = [] → Spans m .blank 0 [0] m.productions.length

-- ---------------------------------------------------------------------------
-- Steps
-- ---------------------------------------------------------------------------

theorem Entry.length_pos (h : Entry id child new opened count) : 0 < new.length := by
  cases h <;> simp

/-- A step that makes no production leaves what the one on top has recorded as it is. -/
theorem children_of_handleTop (hStack : m.stack = top :: below)
    (hMade : top < m.productions.length) (h : handleTop m = .ok u next)
    (hLength : next.productions.length = m.productions.length) :
    (next.production top).children = (m.production top).children := by
  rw [handleTop_eq hStack] at h
  cases hr : (m.production top).respond m.limit m.cursor.rest with
  | fail why =>
    rw [hr] at h
    exact absurd h throw_ok
  | starve =>
    rw [hr] at h
    cases h
  | advance count p comment leave =>
    rw [hr] at h
    have hProductions : next.productions = m.productions.set top p := by
      simp only [perform, bind_ok, modify_ok] at h
      obtain ⟨_, _, rfl, hPop⟩ := h
      cases leave with
      | false =>
        obtain ⟨-, rfl⟩ := pure_ok.1 hPop
        simp [update, skip]
      | true =>
        obtain ⟨_, -, rfl⟩ := pop_ok.1 hPop
        simp [note, update, skip]
    rw [production, hProductions, List.getElem?_set_self hMade, Option.getD_some]
    exact Production.children_of_respond hr
  | spawn child =>
    rw [hr] at h
    simp only [perform, bind_ok, modify_ok] at h
    obtain ⟨id, mid, hSpawn, rfl⟩ := h
    obtain ⟨-, -, new, opened, count, hEntry, hEntered⟩ :=
      spawn_entry (Production.opens_of_respond hr) hSpawn
    have hMore := hEntry.length_pos
    rw [update, List.length_set, hEntered.productions, List.length_append] at hLength
    omega

theorem Grows.label (h : Grows m top new next) (hMade : id < m.productions.length) :
    next.label id = m.label id := by
  have hForm := congrArg Production.label (h.form hMade)
  rwa [Machine.form, Machine.form, Production.label_fresh, Production.label_fresh] at hForm

theorem Grows.sameRecord (h : Grows m top new next) (hMade : id < m.productions.length)
    (hNe : id ≠ top) : SameRecord m next id :=
  ⟨h.label hMade, by rw [h.other id hMade hNe]⟩

/-- What is below the top of the stack is as it was. -/
theorem links_of_sameRecord (hLinks : (top :: below).IsChain (Under m))
    (hNewer : (top :: below).Pairwise (· > ·)) (hSame : ∀ id < top, SameRecord m next id)
    (hTop : next.label top = m.label top) : (top :: below).IsChain (Under next) := by
  refine hLinks.imp_of_mem_tail_imp fun above id hAbove hId hUnder => ?_
  obtain ⟨before, hChildren, hBefore, hValue⟩ := hUnder
  have hLt : id < top := List.rel_of_pairwise_cons hNewer hId
  have hLe : above ≤ top := by
    rcases List.mem_cons.1 hAbove with rfl | hAbove
    · exact Nat.le_refl _
    · exact Nat.le_of_lt (List.rel_of_pairwise_cons hNewer hAbove)
  have hLabel : next.label above = m.label above := by
    rcases Nat.eq_or_lt_of_le hLe with rfl | hLt
    · exact hTop
    · exact (hSame above hLt).label
  have hId := hSame id hLt
  refine ⟨before, hId.children.trans hChildren, ?_, ?_⟩
  · rw [hId.label]
    exact hBefore.congr fun j _ hUp => hSame j (Nat.lt_of_lt_of_le hUp hLe)
  · rw [hLabel, hId.label]
    exact hValue

/-- What is opened last has recorded nothing yet. -/
theorem Entry.latest (h : Entry id child new opened count) :
    ∃ i p, opened.head? = some (id + i) ∧ new[i]? = some p ∧ p.children = [] ∧
      new.length = i + 1 := by
  cases h with
  | substitution => exact ⟨1, _, rfl, rfl, rfl, rfl⟩
  | _ => exact ⟨0, _, rfl, rfl, rfl, rfl⟩

/-- What is opened is numbered behind all others, in the order of the stack. -/
theorem Entry.numbered (h : Entry id child new opened count)
    (hNew : ∀ i, next.production (id + i) = new[i]?.getD .blank) :
    opened.IsChain (Under next) ∧ ∀ top ∈ opened.head?,
      Spans next (next.label top) (top + 1) (next.production top).children
        (id + new.length) := by
  constructor
  · cases h with
    | substitution =>
      have hOuter : next.production id = .substitution [id + 1] := hNew 0
      have hInner : next.production (id + 1) = .freshSequence true := hNew 1
      refine List.isChain_pair.2 ⟨[], ?_, .nil, ?_⟩
      · rw [hOuter]
        rfl
      · rw [Machine.label, hInner]
        exact Label.noConfusion
    | _ => exact List.isChain_singleton _
  · intro top hTop
    obtain ⟨i, p, hHead, hp, hChildren, hLength⟩ := h.latest
    rw [hHead, Option.mem_some] at hTop
    subst hTop
    rw [hNew, hp, Option.getD_some, hChildren, hLength]
    exact .nil

namespace Numbered

/-- A production that advances and stays keeps the numbers in order. -/
theorem stay (h : Numbered m) (hOrderly : Orderly limit m) (hStack : m.stack = top :: below)
    (hSame : ∀ id < m.productions.length, SameRecord m next id)
    (hLength : next.productions.length = m.productions.length)
    (hNext : next.stack = m.stack) : Numbered next := by
  have hMade := hOrderly.made top (by simp [hStack])
  have hLinks := links_of_sameRecord (hStack ▸ h.links) (hStack ▸ hOrderly.newer)
    (fun id hId => hSame id (Nat.lt_trans hId hMade)) (hSame top hMade).label
  refine ⟨hNext ▸ hStack ▸ hLinks, ?_, ?_⟩
  · intro top' hTop'
    rw [hNext, hStack] at hTop'
    obtain rfl : top = top' := by simpa using hTop'
    have hSpans := h.top top (by simp [hStack])
    rw [(hSame top hMade).label, (hSame top hMade).children, hLength]
    exact hSpans.congr fun id _ hId => hSame id hId
  · intro hEmpty
    rw [hNext, hStack] at hEmpty
    cases hEmpty

/-- A production that closes leaves the numbers in order. -/
theorem leave (h : Numbered m) (hOrderly : Orderly limit m) (hStack : m.stack = top :: below)
    (hSame : ∀ id < m.productions.length, SameRecord m next id)
    (hLength : next.productions.length = m.productions.length)
    (hNext : next.stack = below) : Numbered next := by
  have hMade := hOrderly.made top (by simp [hStack])
  have hLinks := links_of_sameRecord (hStack ▸ h.links) (hStack ▸ hOrderly.newer)
    (fun id hId => hSame id (Nat.lt_trans hId hMade)) (hSame top hMade).label
  -- All that the closed production has recorded is numbered up to the end.
  have hSpans : Spans next (next.label top) (top + 1) (next.production top).children
      next.productions.length := by
    rw [(hSame top hMade).label, (hSame top hMade).children, hLength]
    exact (h.top top (by simp [hStack])).congr fun id _ hId => hSame id hId
  refine ⟨hNext ▸ hLinks.tail, ?_, ?_⟩
  · intro id hId
    rw [hNext] at hId
    obtain ⟨rest, rfl⟩ : ∃ rest, below = id :: rest := by
      cases below with
      | nil => cases hId
      | cons first rest => exact ⟨rest, by rw [Option.some.inj hId]⟩
    exact (List.isChain_cons_cons.1 hLinks).1.close hSpans
  · intro hEmpty
    rw [hNext] at hEmpty
    have hBottom := hOrderly.bottom (by simp [hStack])
    rw [hStack, hEmpty] at hBottom
    obtain rfl : top = 0 := Option.some.inj hBottom
    refine .cons ?_ hSpans .nil
    have hForm := congrArg Production.label ((hOrderly.outermost 0).2 rfl)
    rw [form, Production.label_fresh] at hForm
    rw [(hSame 0 hMade).label, Machine.label, hForm]
    exact Label.noConfusion

/-- A production that opens another one keeps the numbers in order. -/
theorem opens (h : Numbered m) (hOrderly : Orderly limit m) (hStack : m.stack = top :: below)
    (hOpens : Production.Opens (m.production top) child)
    (hEntry : Entry m.productions.length child new opened count)
    (hProductions : next.productions = (m.productions ++ new).set top
      ((m.production top).adopt m.productions.length))
    (hNext : next.stack = opened ++ top :: below) : Numbered next := by
  have hMade := hOrderly.made top (by simp [hStack])
  obtain ⟨hGrows, hTop⟩ := grows_of_set hMade (hOpens.adopt _).1 hProductions
  obtain ⟨hOpened, hHead⟩ := hEntry.numbered hGrows.added
  obtain ⟨first, hFirst, hSort, hLast⟩ := hEntry.first
  have hLinks := links_of_sameRecord (hStack ▸ h.links) (hStack ▸ hOrderly.newer)
    (fun id hId => hGrows.sameRecord (Nat.lt_trans hId hMade) (Nat.ne_of_lt hId))
    (hGrows.label hMade)
  refine ⟨?_, ?_, ?_⟩
  · rw [hNext, List.isChain_append]
    refine ⟨hOpened, hLinks, ?_⟩
    intro id hId other hOther
    rw [hLast, Option.mem_some] at hId
    obtain rfl : top = other := by simpa using hOther
    subst hId
    refine ⟨(m.production top).children, ?_, ?_, ?_⟩
    · rw [hTop, hOpens.children_adopt]
    · rw [hGrows.label hMade]
      exact (h.top top (by simp [hStack])).congr fun id hLo hId =>
        hGrows.sameRecord hId (Nat.ne_of_gt hLo)
    · have hAdded := hGrows.added 0
      rw [hFirst, Nat.add_zero] at hAdded
      rw [hGrows.label hMade, Machine.label, hAdded, Option.getD_some,
        ← Production.label_fresh, hSort]
      exact hOpens.label_eq_assignment
  · intro id hId
    rw [hNext, List.head?_append] at hId
    rw [hGrows.length]
    refine hHead id ?_
    cases opened with
    | nil => cases hLast
    | cons other rest => exact hId
  · intro hEmpty
    rw [hNext] at hEmpty
    simp at hEmpty

/-- A step keeps the numbers in order. -/
theorem step (h : Numbered m) (hOrderly : Orderly limit m) (hStep : handleTop m = .ok u next) :
    Numbered next := by
  cases hStack : m.stack with
  | nil =>
    simp only [handleTop, bind_ok, get_ok] at hStep
    obtain ⟨_, _, ⟨rfl, rfl⟩, hStep⟩ := hStep
    rw [hStack] at hStep
    exact absurd hStep throw_ok
  | cons top below =>
    have hTop : top ∈ m.stack := by simp [hStack]
    cases moves_of_handleTop hStack hStep with
    | @advance p count leave hAdvances _ _ hProductions hNext =>
      obtain ⟨hGrows, -, -⟩ := hOrderly.grows hTop hAdvances hProductions
      have hLength : next.productions.length = m.productions.length := hGrows.length
      have hMade := hOrderly.made top hTop
      have hSame (id : Nat) (hId : id < m.productions.length) : SameRecord m next id := by
        by_cases hNe : id = top
        · subst hNe
          exact ⟨hGrows.label hMade, children_of_handleTop hStack hMade hStep hLength⟩
        · exact hGrows.sameRecord hId hNe
      cases leave with
      | false => exact h.stay hOrderly hStack hSame hLength (hNext.trans hStack.symm)
      | true => exact h.leave hOrderly hStack hSame hLength hNext
    | spawn hOpens hEntry _ _ _ _ hProductions hNext _ =>
      exact h.opens hOrderly hStack hOpens hEntry hProductions hNext

/-- Any number of steps keep the numbers in order. -/
theorem steps (h : Numbered m) (hOrderly : Orderly limit m)
    (hSteps : handleTimes n m = .ok u last) : Numbered last := by
  induction n generalizing m with
  | zero =>
    obtain ⟨-, rfl⟩ := pure_ok.1 hSteps
    exact h
  | succ n ih =>
    obtain ⟨mid, hTop, hRest⟩ := handleTimes_succ.1 hSteps
    exact ih (h.step hOrderly hTop) (hOrderly.step hTop) hRest

/-- The numbers are in order when the outermost sequence has been opened. -/
theorem start (h : spawn (.freshSequence false) (.start tokens limit) = .ok root m) :
    Numbered m := by
  simp only [spawn, bind_ok, pure_ok] at h
  obtain ⟨_, placed, hPlace, _, _, hEnter, -, rfl⟩ := h
  obtain ⟨rfl, -, -, hProductions, hStack⟩ := place_ok hPlace
  have hProductions : placed.productions = [.freshSequence false] := hProductions
  have hStack : placed.stack = [0] := hStack
  have hRoot : placed.production 0 = .freshSequence false := by
    rw [production, hProductions]
    rfl
  simp only [enter, bind_ok, get_ok] at hEnter
  obtain ⟨_, _, ⟨rfl, rfl⟩, hEnter⟩ := hEnter
  rw [show (Machine.start tokens limit).productions.length = 0 from rfl, hRoot] at hEnter
  obtain ⟨-, rfl⟩ := pure_ok.1 hEnter
  refine ⟨by simp [hStack], ?_, by simp [hStack]⟩
  intro top hTop
  obtain rfl : 0 = top := by simpa [hStack] using hTop
  rw [hRoot, hProductions]
  exact .nil

end Numbered

/-- When the run is over, all productions are numbered in order. -/
theorem spans_of_run (hSpawn : spawn (.freshSequence false) (.start tokens limit) = .ok root m)
    (hRun : run m = .ok u last) :
    Orderly limit last ∧ last.stack = [] ∧ Spans last .blank 0 [0] last.productions.length := by
  obtain ⟨-, hOrderly⟩ := Orderly.start hSpawn
  have hNumbered := Numbered.start hSpawn
  obtain ⟨n, last', -, hSteps, ⟨hEmpty, hEnd⟩ | ⟨-, why, left, -, hEnd⟩⟩ := endsWithin_potential m
  · rw [hRun] at hEnd
    obtain ⟨rfl, rfl⟩ := EStateM.Result.ok.inj hEnd
    exact ⟨hOrderly.steps hSteps, hEmpty, (hNumbered.steps hOrderly hSteps).through hEmpty⟩
  · rw [hRun] at hEnd
    cases hEnd

end Machine

end ShellReader
