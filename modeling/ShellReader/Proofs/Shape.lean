import ShellReader.Proofs.Moves

/-!
# ShellReader — the shape of a run

What the machine looks like whenever a production is about to read on. The productions on the
stack stand on one another as the grammar has it, from the outermost sequence up, and each is
the part that the one below it has recorded last. Items are commands and operators by turns,
and what has been closed has all that its tree needs.

Two further facts carry the proof. A command or a word that has no part yet stands before the
start of a word, so it does not close as it is; and a sequence whose latest part is a command
stands before something that ends a command, so it does not open another one right behind it
(`Production.Poised`). And newer productions stand above older ones, so what happens on top
leaves the rest of the stack alone.

## Results

* `Production.Advances.sound`, `Production.Advances.poised` — what a production keeps while it
  advances, and `Production.Advances.complete` — what it has when it closes.
* `Machine.Orderly.step`, `Machine.Orderly.steps` — a step keeps the machine in order, and so
  do any number of steps.
* `Machine.shape_of_handleTimes` — the shape before every step of reading a token list.
-/

namespace ShellReader

/-- The production that a part refers to. -/
def Part.id? : Part → Option ProductionId
  | .child id => some id
  | .token _ => none

namespace Production

variable {form form' : ProductionId → Production} {p p' child : Production}
  {rest rest' : List Token} {count : Nat} {leave : Bool} {parts item : List Part}
  {id : ProductionId}

-- ---------------------------------------------------------------------------
-- Sorts of productions
-- ---------------------------------------------------------------------------

/-- The production as it was when it was made: its sort, and nothing of its work. -/
def fresh : Production → Production
  | blank => blank
  | sequence nested _ _ => freshSequence nested
  | command _ => command []
  | assignment _ _ => assignment none none
  | word role _ => word role []
  | quotation _ _ => quotation none []
  | substitution _ => substitution []

/-- What may stand on what, by sort. -/
inductive StandsOn : Production → Production → Prop where
  | command (nested : Bool) : StandsOn (.command []) (.freshSequence nested)
  | argument : StandsOn (.word .argument []) (.command [])
  | assignment : StandsOn (.assignment none none) (.command [])
  | value : StandsOn (.word .value []) (.assignment none none)
  | quotation (role : WordRole) : StandsOn (.quotation none []) (.word role [])
  | substitution (role : WordRole) : StandsOn (.substitution []) (.word role [])
  | nested : StandsOn (.freshSequence true) (.substitution [])

theorem StandsOn.ne_blank (h : StandsOn p p') : p ≠ blank ∧ p' ≠ blank := by
  cases h <;> exact ⟨Production.noConfusion, Production.noConfusion⟩

/-- The production that was recorded last, if nothing else was recorded after it. -/
def latest? : Production → Option ProductionId
  | sequence _ _ current => current.getLast?.bind Part.id?
  | command parts => parts.getLast?
  | assignment _ value => value
  | word _ parts => parts.getLast?.bind Part.id?
  | substitution parts => parts.getLast?
  | blank | quotation .. => none

theorem fresh_fresh (p : Production) : p.fresh.fresh = p.fresh := by
  cases p <;> rfl

theorem Advances.fresh (h : Advances rest p p' count leave) : p'.fresh = p.fresh := by
  cases h <;> rfl

theorem Opens.standsOn (h : Opens p child) : StandsOn child p.fresh := by
  cases h with
  | command => exact .command _
  | assignment => exact .assignment
  | argument => exact .argument
  | value => exact .value
  | quotation => exact .quotation _
  | substitution => exact .substitution _

theorem Opens.adopt (h : Opens p child) (id : ProductionId) :
    (p.adopt id).fresh = p.fresh ∧ (p.adopt id).latest? = some id := by
  cases h <;> simp [Production.adopt, Production.fresh, latest?, Part.id?]

-- ---------------------------------------------------------------------------
-- Items
-- ---------------------------------------------------------------------------

/-- Commands and operators by turns, a command first. -/
def Alternates (form : ProductionId → Production) (parts : List Part) : Prop :=
  ∀ i part, parts[i]? = some part →
    if i % 2 = 0 then ∃ id, part = .child id ∧ form id = command []
    else ∃ t, part = .token t ∧ t.kind.isOperator = true

/-- An item that is finished: commands and operators by turns, a command at both ends. -/
structure Finished (form : ProductionId → Production) (item : List Part) : Prop where
  turns : Alternates form item
  odd   : item.length % 2 = 1
  first : ∃ id, item.head? = some (.child id) ∧ form id = command []
  last  : ∃ id, item.getLast? = some (.child id) ∧ form id = command []

theorem alternates_nil : Alternates form [] := by
  intro i part h
  simp at h

/-- One part more, behind the others. -/
theorem Alternates.concat {part : Part} (h : Alternates form parts)
    (hPart : if parts.length % 2 = 0 then ∃ id, part = .child id ∧ form id = command []
      else ∃ t, part = .token t ∧ t.kind.isOperator = true) :
    Alternates form (parts ++ [part]) := by
  intro i other hOther
  rw [List.getElem?_append] at hOther
  split at hOther
  · exact h i other hOther
  · rename_i hLength
    have hLast : i - parts.length = 0 := by
      have hBound := (List.getElem?_eq_some_iff.1 hOther).1
      rw [List.length_singleton] at hBound
      omega
    obtain rfl : i = parts.length := by omega
    simp only [Nat.sub_self, List.getElem?_cons_zero, Option.some.injEq] at hOther
    exact hOther ▸ hPart

/-- What is behind the last operator: a command is called for after an even number of
parts. -/
theorem Alternates.awaiting (h : Alternates form parts) (hSome : parts ≠ []) :
    awaiting? parts = none ↔ parts.length % 2 = 1 := by
  have hLength := List.length_pos_iff.2 hSome
  obtain ⟨part, hPart⟩ : ∃ part, parts[parts.length - 1]? = some part :=
    ⟨_, List.getElem?_eq_getElem (by omega)⟩
  have hTurn := h _ part hPart
  rw [awaiting?, List.getLast?_eq_getElem?, hPart]
  split at hTurn
  · obtain ⟨id, rfl, -⟩ := hTurn
    simp only [true_iff]
    omega
  · obtain ⟨t, rfl, -⟩ := hTurn
    simp only [reduceCtorEq, false_iff]
    omega

theorem Alternates.finished (h : Alternates form item) (hOdd : item.length % 2 = 1) :
    Finished form item := by
  have hEnd (i : Nat) (hEven : i % 2 = 0) (hi : i < item.length) :
      ∃ id, item[i]? = some (.child id) ∧ form id = command [] := by
    obtain ⟨part, hPart⟩ : ∃ part, item[i]? = some part := ⟨_, List.getElem?_eq_getElem hi⟩
    have hTurn := h i part hPart
    rw [if_pos hEven] at hTurn
    obtain ⟨id, rfl, hForm⟩ := hTurn
    exact ⟨id, hPart, hForm⟩
  refine ⟨h, hOdd, ?_, ?_⟩
  · rw [List.head?_eq_getElem?]
    exact hEnd 0 rfl (by omega)
  · rw [List.getLast?_eq_getElem?]
    exact hEnd (item.length - 1) (by omega) (by omega)

/-- The items of a sequence once the item in the making is finished too. -/
theorem finished_items {items : List (List Part)} {current : List Part}
    (hItems : ∀ item ∈ items, Finished form item) (hCurrent : Alternates form current)
    (hAwaiting : awaiting? current = none) :
    ∀ item ∈ finished items current, Finished form item := by
  unfold finished
  split
  · exact hItems
  · rename_i hSome
    intro item hItem
    rcases List.mem_append.1 hItem with hItem | hItem
    · exact hItems item hItem
    · rw [List.mem_singleton.1 hItem]
      exact hCurrent.finished ((hCurrent.awaiting (by simpa using hSome)).1 hAwaiting)

-- ---------------------------------------------------------------------------
-- What a production keeps
-- ---------------------------------------------------------------------------

/-- What holds of every production of a run, given the sorts of the others: the items of a
sequence are in order, an assignment has its name and a string its opening quote, and a
substitution has recorded its sequence and nothing else. -/
def Sound (form : ProductionId → Production) : Production → Prop
  | blank => False
  | sequence _ items current =>
    Alternates form current ∧ ∀ item ∈ items, Finished form item
  | assignment name _ => name.isSome = true
  | quotation opener _ => opener.isSome = true
  | substitution parts => ∃ inner, parts = [inner] ∧ form inner = freshSequence true
  | command _ | word .. => True

/-- What a production must have collected before it closes. -/
def Complete : Production → Prop
  | sequence _ items current => items ≠ [] ∧ current = []
  | command parts => parts ≠ []
  | word _ parts => parts ≠ []
  | _ => True

/-- What the tree of a production needs, given the sorts of the others. -/
def Buildable (form : ProductionId → Production) : Production → Prop
  | blank => False
  | sequence _ items current => items ≠ [] ∧ current = []
  | command parts => parts ≠ []
  | assignment name _ => name.isSome = true
  | word _ parts => parts ≠ []
  | quotation opener _ => opener.isSome = true
  | substitution parts => ∃ inner, parts = [inner] ∧ form inner = freshSequence true

theorem Sound.buildable (hSound : p.Sound form) (hComplete : p.Complete) :
    p.Buildable form := by
  cases p with
  | blank => exact hSound
  | sequence nested items current => exact hComplete
  | command parts => exact hComplete
  | assignment name value => exact hSound
  | word role parts => exact hComplete
  | quotation opener parts => exact hSound
  | substitution parts => exact hSound

/-- What a production on top of the stack can count on. Without a part yet, a command or a
word stands before the start of a word; behind a command, a sequence stands before what ends
a command. -/
def Poised (rest : List Token) : Production → Prop
  | command [] | word _ [] => ∃ t more, rest = t :: more ∧ atWordEnd t more = false
  | sequence _ _ current => current ≠ [] → awaiting? current = none →
    ∃ t more, rest = t :: more ∧ t.kind.endsCommand = true
  | _ => True

theorem Alternates.mono (hForm : ∀ id, form id ≠ blank → form' id = form id)
    (h : Alternates form parts) : Alternates form' parts := by
  intro i part hPart
  have hTurn := h i part hPart
  split at hTurn
  · rename_i hEven
    rw [if_pos hEven]
    obtain ⟨id, rfl, hCommand⟩ := hTurn
    exact ⟨id, rfl, by rw [hForm id (by simp [hCommand]), hCommand]⟩
  · rename_i hOdd
    rwa [if_neg hOdd]

theorem Sound.mono (hForm : ∀ id, form id ≠ blank → form' id = form id) (h : p.Sound form) :
    p.Sound form' := by
  cases p with
  | blank => exact h
  | sequence nested items current =>
    exact ⟨h.1.mono hForm, fun item hItem =>
      ((h.2 item hItem).turns.mono hForm).finished (h.2 item hItem).odd⟩
  | substitution parts =>
    obtain ⟨inner, hParts, hInner⟩ := h
    refine ⟨inner, hParts, ?_⟩
    rw [hForm inner (by simp [hInner, freshSequence]), hInner]
  | command parts => trivial
  | word role parts => trivial
  | assignment name value => exact h
  | quotation opener parts => exact h

/-- A production stays sound while it advances. -/
theorem Advances.sound (h : Advances rest p p' count leave) (hSound : p.Sound form) :
    p'.Sound form := by
  cases h with
  | skip => exact hSound
  | finish hAwaiting => exact ⟨alternates_nil, finished_items hSound.2 hSound.1 hAwaiting⟩
  | @operator t _ _ _ _ hOperator hSome hAwaiting =>
    refine ⟨hSound.1.concat ?_, hSound.2⟩
    have hOdd := (hSound.1.awaiting hSome).1 hAwaiting
    rw [if_neg (by omega)]
    exact ⟨t, rfl, hOperator⟩
  | close hAwaiting => exact ⟨alternates_nil, finished_items hSound.2 hSound.1 hAwaiting⟩
  | commandSkip => trivial
  | commandClose => trivial
  | assignmentClose => exact hSound
  | wordClose => trivial
  | wordRead => trivial
  | quotation => exact hSound
  | substitutionClose => exact hSound

theorem atWordEnd_of_endsCommand {t : Token} {more : List Token}
    (h : t.kind.endsCommand = true) : atWordEnd t more = true := by
  simp [atWordEnd, Token.Kind.endsArgument, h]

/-- A production that advances and stays is poised for whatever comes next. -/
theorem Advances.poised (h : Advances rest p p' count false) (hPoised : p.Poised rest) :
    p'.Poised rest' := by
  cases h with
  | @skip t more _ _ current _ hSkips =>
    intro hSome hAwaiting
    obtain ⟨t', more', hRest, hEnds⟩ := hPoised hSome hAwaiting
    obtain ⟨rfl, rfl⟩ := List.cons.inj hRest
    simp [hEnds, hAwaiting] at hSkips
  | finish => exact fun hSome => absurd rfl hSome
  | operator =>
    intro _ hAwaiting
    rw [awaiting?_concat] at hAwaiting
    cases hAwaiting
  | @commandSkip t more parts _ hEnd =>
    cases parts with
    | nil =>
      obtain ⟨t', more', hRest, hOpen⟩ := hPoised
      obtain ⟨rfl, rfl⟩ := List.cons.inj hRest
      simp [hEnd] at hOpen
    | cons part parts => trivial
  | @wordRead t more role parts read _ hRead =>
    obtain ⟨part, parts', hParts⟩ := List.exists_cons_of_ne_nil
      (List.append_ne_nil_of_right_ne_nil parts hRead)
    rw [hParts]
    trivial
  | quotation => trivial

/-- A production has what it must have when it closes. -/
theorem Advances.complete (h : Advances rest p p' count true) (hPoised : p.Poised rest) :
    p'.Complete := by
  cases h with
  | close _ hSome => exact ⟨hSome, rfl⟩
  | @commandClose t more parts hEnds =>
    rintro rfl
    obtain ⟨t', more', hRest, hOpen⟩ := hPoised
    obtain ⟨rfl, rfl⟩ := List.cons.inj hRest
    simp [atWordEnd_of_endsCommand hEnds] at hOpen
  | @wordClose t more role parts hEnd =>
    rintro rfl
    obtain ⟨t', more', hRest, hOpen⟩ := hPoised
    obtain ⟨rfl, rfl⟩ := List.cons.inj hRest
    simp [hEnd] at hOpen
  | assignmentClose => trivial
  | quotation => trivial
  | substitutionClose => trivial

/-- What a production can count on when the one it has opened last closes. -/
theorem Advances.poised_below {q : Production} (h : Advances rest p p' count true)
    (hStands : StandsOn p.fresh q.fresh) (hLatest : q.latest? = some id) :
    q.Poised (rest.drop count) := by
  cases q with
  | sequence nested items current =>
    intro _ _
    -- Only a command stands on a sequence, and it closes in front of what ends it.
    cases h with
    | @commandClose t more parts hEnds => exact ⟨t, more, rfl, hEnds⟩
    | close => cases hStands
    | assignmentClose => cases hStands
    | wordClose => cases hStands
    | quotation => cases hStands
    | substitutionClose => cases hStands
  | command parts =>
    cases parts with
    | nil => cases hLatest
    | cons part parts => trivial
  | word role parts =>
    cases parts with
    | nil => cases hLatest
    | cons part parts => trivial
  | blank => trivial
  | assignment name value => trivial
  | quotation opener parts => trivial
  | substitution parts => trivial

/-- A production stays sound when it opens another one. -/
theorem Opens.sound {t : Token} {more : List Token} (h : Opens p child)
    (hSound : p.Sound form) (hPoised : p.Poised (t :: more)) (hStart : atWordEnd t more = false)
    (hChild : form id = child.fresh) : (p.adopt id).Sound form := by
  cases h with
  | @command nested items current =>
    refine ⟨hSound.1.concat ?_, hSound.2⟩
    -- Behind a command nothing would be opened here.
    have hEven : current.length % 2 = 0 := by
      by_contra hOdd
      have hSome : current ≠ [] := by
        rintro rfl
        exact hOdd rfl
      have hAwaiting := (hSound.1.awaiting hSome).2 (by omega)
      obtain ⟨t', more', hRest, hEnds⟩ := hPoised hSome hAwaiting
      obtain ⟨rfl, rfl⟩ := List.cons.inj hRest
      simp [atWordEnd_of_endsCommand hEnds] at hStart
    rw [if_pos hEven]
    exact ⟨id, rfl, hChild⟩
  | assignment => trivial
  | argument => trivial
  | value => exact hSound
  | quotation => trivial
  | substitution => trivial

end Production

namespace Machine

open Production (StandsOn Finished Alternates)

variable {m next last : Machine} {top id above root n : Nat} {below opened : List Nat}
  {new : List Production} {p child : Production} {count : Nat} {u : Unit} {tokens : List Token}
  {limit : Int}

-- ---------------------------------------------------------------------------
-- Machines in order
-- ---------------------------------------------------------------------------

/-- The sort of the production of a given number. -/
def form (m : Machine) (id : Nat) : Production := (m.production id).fresh

/-- One production on another: it may stand there, and it was recorded last. -/
structure Link (m : Machine) (above below : Nat) : Prop where
  stands : StandsOn (m.form above) (m.form below)
  latest : (m.production below).latest? = some above

/-- What a step keeps. -/
structure Orderly (limit : Int) (m : Machine) : Prop where
  limited   : m.limit = limit
  height    : (m.stack.length : Int) ≤ limit
  newer     : m.stack.Pairwise (· > ·)
  made      : ∀ id ∈ m.stack, id < m.productions.length
  bottom    : m.stack ≠ [] → m.stack.getLast? = some 0
  outermost : ∀ id, m.form id = .freshSequence false ↔ id = 0
  links     : m.stack.IsChain (Link m)
  sound     : ∀ id < m.productions.length, (m.production id).Sound m.form
  closed    : ∀ id < m.productions.length, id ∉ m.stack → (m.production id).Complete
  poised    : ∀ top ∈ m.stack.head?, (m.production top).Poised m.cursor.rest

theorem lt_of_form_ne_blank (h : m.form id ≠ .blank) : id < m.productions.length :=
  lt_of_production_ne_blank fun hBlank => h (by rw [form, hBlank]; rfl)

theorem Link.made (h : Link m above id) :
    above < m.productions.length ∧ id < m.productions.length := by
  obtain ⟨hAbove, hId⟩ := h.stands.ne_blank
  exact ⟨lt_of_form_ne_blank hAbove, lt_of_form_ne_blank hId⟩

-- ---------------------------------------------------------------------------
-- What happens to the productions
-- ---------------------------------------------------------------------------

/-- `next` has the productions of `m`, that of `top` changed within its sort, and `new`
behind them. -/
structure Grows (m : Machine) (top : Nat) (new : List Production) (next : Machine) :
    Prop where
  length : next.productions.length = m.productions.length + new.length
  same   : next.form top = m.form top
  other  : ∀ id < m.productions.length, id ≠ top → next.production id = m.production id
  added  : ∀ i, next.production (m.productions.length + i) = new[i]?.getD .blank

theorem grows_of_set (hTop : top < m.productions.length)
    (hSort : p.fresh = m.form top)
    (h : next.productions = (m.productions ++ new).set top p) :
    Grows m top new next ∧ next.production top = p := by
  have hLength : top < (m.productions ++ new).length := by
    rw [List.length_append]
    omega
  have hSelf : next.production top = p := by
    rw [production, h, List.getElem?_set_self hLength, Option.getD_some]
  refine ⟨⟨by rw [h, List.length_set, List.length_append], ?_, ?_, ?_⟩, hSelf⟩
  · rw [form, hSelf, hSort]
  · intro id hMade hNe
    rw [production, production, h, List.getElem?_set_ne (Ne.symm hNe),
      List.getElem?_append_left hMade]
  · intro i
    rw [production, h, List.getElem?_set_ne (by omega), List.getElem?_append_right (by omega),
      Nat.add_sub_cancel_left]

namespace Grows

theorem form (h : Grows m top new next) (hMade : id < m.productions.length) :
    next.form id = m.form id := by
  by_cases hTop : id = top
  · rw [hTop, h.same]
  · rw [Machine.form, Machine.form, h.other id hMade hTop]

theorem form_of_ne_blank (h : Grows m top new next) (hForm : m.form id ≠ .blank) :
    next.form id = m.form id :=
  h.form (lt_of_form_ne_blank hForm)

theorem link (h : Grows m top new next) (hLink : Link m above id) (hNe : id ≠ top) :
    Link next above id := by
  obtain ⟨hAbove, hId⟩ := hLink.made
  constructor
  · rw [h.form hAbove, h.form hId]
    exact hLink.stands
  · rw [h.other id hId hNe]
    exact hLink.latest

/-- Links below the top hold on. -/
theorem links (h : Grows m top new next) (hLinks : (top :: below).IsChain (Link m))
    (hNewer : (top :: below).Pairwise (· > ·)) : (top :: below).IsChain (Link next) := by
  refine hLinks.imp_of_mem_tail_imp fun above id _ hId hLink => h.link hLink ?_
  have hLt : id < top := List.rel_of_pairwise_cons hNewer hId
  omega

/-- The outermost sequence remains the only one. -/
theorem outermost (h : Grows m top new next)
    (hOutermost : ∀ id, m.form id = .freshSequence false ↔ id = 0)
    (hNew : ∀ p ∈ new, p.fresh ≠ .freshSequence false) :
    ∀ id, next.form id = .freshSequence false ↔ id = 0 := by
  have hZero : 0 < m.productions.length :=
    lt_of_form_ne_blank (by rw [(hOutermost 0).2 rfl]; exact Production.noConfusion)
  intro id
  by_cases hMade : id < m.productions.length
  · rw [h.form hMade]
    exact hOutermost id
  · obtain ⟨i, rfl⟩ := Nat.exists_eq_add_of_le (Nat.not_lt.1 hMade)
    refine ⟨fun hForm => ?_, by omega⟩
    rw [Machine.form, h.added i] at hForm
    cases hi : new[i]? with
    | none =>
      rw [hi] at hForm
      cases hForm
    | some p =>
      rw [hi] at hForm
      exact absurd hForm (hNew p (List.mem_of_getElem? hi))

/-- Productions remain sound, if the one on top does and the new ones are. -/
theorem sound (h : Grows m top new next)
    (hSound : ∀ id < m.productions.length, (m.production id).Sound m.form)
    (hTop : (next.production top).Sound next.form) (hNew : ∀ p ∈ new, p.Sound next.form) :
    ∀ id < next.productions.length, (next.production id).Sound next.form := by
  intro id hId
  by_cases hMade : id < m.productions.length
  · by_cases hNe : id = top
    · rw [hNe]
      exact hTop
    · rw [h.other id hMade hNe]
      exact (hSound id hMade).mono fun _ => h.form_of_ne_blank
  · obtain ⟨i, rfl⟩ := Nat.exists_eq_add_of_le (Nat.not_lt.1 hMade)
    rw [h.length] at hId
    have hi : i < new.length := by omega
    rw [h.added i, List.getElem?_eq_getElem hi]
    exact hNew _ (List.getElem_mem hi)

end Grows

-- ---------------------------------------------------------------------------
-- What is opened
-- ---------------------------------------------------------------------------

namespace Entry

variable {base : Nat} {form : ProductionId → Production} {t : Token} {more : List Token}

/-- The numbers on the stack are those of the productions that are made, latest first. -/
theorem opened_eq (h : Entry base child new opened count) :
    opened = (List.range' base new.length).reverse := by
  cases h <;> rfl

theorem mem_opened (h : Entry base child new opened count) :
    id ∈ opened ↔ base ≤ id ∧ id < base + new.length := by
  rw [h.opened_eq, List.mem_reverse, List.mem_range'_1]

theorem newer (h : Entry base child new opened count) : opened.Pairwise (· > ·) := by
  rw [h.opened_eq, List.pairwise_reverse]
  exact List.pairwise_lt_range' ..

/-- What is made has the sort that was called for; only the sequence of a substitution comes
with it. -/
theorem first (h : Entry base child new opened count) :
    ∃ p, new[0]? = some p ∧ p.fresh = child ∧ opened.getLast? = some base := by
  cases h <;> exact ⟨_, rfl, rfl, rfl⟩

theorem sound (h : Entry base child new opened count)
    (hForm : ∀ i, form (base + i) = (new[i]?.getD .blank).fresh) :
    ∀ p ∈ new, p.Sound form ∧ p.fresh ≠ .freshSequence false := by
  cases h with
  | substitution =>
    have hInner : form (base + 1) = .freshSequence true := hForm 1
    simp [Production.Sound, Production.fresh, Production.freshSequence, hInner,
      Production.alternates_nil]
  | command => simp [Production.Sound, Production.fresh, Production.freshSequence]
  | word role => simp [Production.Sound, Production.fresh, Production.freshSequence]
  | assignment name => simp [Production.Sound, Production.fresh, Production.freshSequence]
  | quotation opener => simp [Production.Sound, Production.fresh, Production.freshSequence]

/-- The sequence of a substitution stands on it. -/
theorem links (h : Entry base child new opened count)
    (hNew : ∀ i, next.production (base + i) = new[i]?.getD .blank) :
    opened.IsChain (Link next) := by
  cases h with
  | substitution =>
    have hOuter : next.production base = .substitution [base + 1] := hNew 0
    have hInner : next.production (base + 1) = .freshSequence true := hNew 1
    refine List.isChain_pair.2 ⟨?_, ?_⟩
    · rw [Machine.form, Machine.form, hOuter, hInner]
      exact .nested
    · rw [hOuter]
      rfl
  | command => exact List.isChain_singleton _
  | word role => exact List.isChain_singleton _
  | assignment name => exact List.isChain_singleton _
  | quotation opener => exact List.isChain_singleton _

/-- What comes on top is poised, a word being about to start. -/
theorem poised (h : Entry base child new opened count)
    (hStart : Production.atWordEnd t more = false) :
    ∃ i p, opened.head? = some (base + i) ∧ new[i]? = some p ∧
      p.Poised ((t :: more).drop count) := by
  cases h with
  | command => exact ⟨0, _, rfl, rfl, t, more, rfl, hStart⟩
  | word role => exact ⟨0, _, rfl, rfl, t, more, rfl, hStart⟩
  | assignment name => exact ⟨0, _, rfl, rfl, trivial⟩
  | quotation opener => exact ⟨0, _, rfl, rfl, trivial⟩
  | substitution => exact ⟨1, _, rfl, rfl, fun hSome => absurd rfl hSome⟩

end Entry

-- ---------------------------------------------------------------------------
-- Steps
-- ---------------------------------------------------------------------------

namespace Orderly

/-- What a production that advances makes of the productions. -/
theorem grows {leave : Bool} (h : Orderly limit m) (hTop : top ∈ m.stack)
    (hAdvances : Production.Advances m.cursor.rest (m.production top) p count leave)
    (hProductions : next.productions = m.productions.set top p) :
    Grows m top [] next ∧ next.production top = p ∧
      ∀ id < next.productions.length, (next.production id).Sound next.form := by
  have hMade := h.made top hTop
  have hSame : next.productions = (m.productions ++ []).set top p := by
    rw [hProductions, List.append_nil]
  obtain ⟨hGrows, hNew⟩ := grows_of_set hMade hAdvances.fresh hSame
  refine ⟨hGrows, hNew, hGrows.sound h.sound ?_ (by simp)⟩
  rw [hNew]
  exact hAdvances.sound ((h.sound top hMade).mono fun _ => hGrows.form_of_ne_blank)

/-- A production that advances and stays keeps the machine in order. -/
theorem stay (h : Orderly limit m) (hStack : m.stack = top :: below)
    (hAdvances : Production.Advances m.cursor.rest (m.production top) p count false)
    (hLimit : next.limit = m.limit) (hProductions : next.productions = m.productions.set top p)
    (hNext : next.stack = m.stack) : Orderly limit next := by
  have hPoised := h.poised top (by simp [hStack])
  obtain ⟨hGrows, hTop, hSound⟩ := h.grows (by simp [hStack]) hAdvances hProductions
  have hLength : next.productions.length = m.productions.length := hGrows.length
  refine ⟨hLimit.trans h.limited, ?_, ?_, ?_, ?_, hGrows.outermost h.outermost (by simp),
    ?_, hSound, ?_, ?_⟩
  · rw [hNext]
    exact h.height
  · rw [hNext]
    exact h.newer
  · rw [hNext, hLength]
    exact h.made
  · rw [hNext]
    exact h.bottom
  · rw [hNext, hStack]
    exact hGrows.links (hStack ▸ h.links) (hStack ▸ h.newer)
  · intro id hId hOff
    rw [hNext] at hOff
    rw [hGrows.other id (hLength ▸ hId) (by rintro rfl; simp [hStack] at hOff)]
    exact h.closed id (hLength ▸ hId) hOff
  · intro id hHead
    rw [hNext, hStack] at hHead
    obtain rfl : top = id := by simpa using hHead
    rw [hTop]
    exact hAdvances.poised hPoised

/-- A production that closes leaves the machine in order. -/
theorem leave (h : Orderly limit m) (hStack : m.stack = top :: below)
    (hAdvances : Production.Advances m.cursor.rest (m.production top) p count true)
    (hLimit : next.limit = m.limit) (hCursor : next.cursor = m.cursor.advance count)
    (hProductions : next.productions = m.productions.set top p)
    (hNext : next.stack = below) : Orderly limit next := by
  have hPoised := h.poised top (by simp [hStack])
  have hNewer := hStack ▸ h.newer
  obtain ⟨hGrows, hTop, hSound⟩ := h.grows (by simp [hStack]) hAdvances hProductions
  have hLength : next.productions.length = m.productions.length := hGrows.length
  refine ⟨hLimit.trans h.limited, ?_, ?_, ?_, ?_, hGrows.outermost h.outermost (by simp),
    ?_, hSound, ?_, ?_⟩
  · have hHeight := h.height
    rw [hStack, List.length_cons] at hHeight
    rw [hNext]
    omega
  · rw [hNext]
    exact hNewer.of_cons
  · intro id hId
    rw [hNext] at hId
    rw [hLength]
    exact h.made id (by simp [hStack, hId])
  · intro hSome
    rw [hNext] at hSome ⊢
    rw [← h.bottom (by simp [hStack]), hStack, List.getLast?_cons_of_ne_nil hSome]
  · rw [hNext]
    exact (hGrows.links (hStack ▸ h.links) hNewer).tail
  · intro id hId hOff
    rw [hNext] at hOff
    by_cases hNe : id = top
    · rw [hNe, hTop]
      exact hAdvances.complete hPoised
    · rw [hGrows.other id (hLength ▸ hId) hNe]
      exact h.closed id (hLength ▸ hId) (by simp [hStack, hNe, hOff])
  · intro id hHead
    rw [hNext] at hHead
    obtain ⟨rest, rfl⟩ : ∃ rest, below = id :: rest := by
      cases below with
      | nil => cases hHead
      | cons first rest => exact ⟨rest, by rw [Option.some.inj hHead]⟩
    have hLink : Link m top id := (List.isChain_cons_cons.1 (hStack ▸ h.links)).1
    have hLt : id < top := List.rel_of_pairwise_cons hNewer (List.mem_cons_self ..)
    rw [hGrows.other id hLink.made.2 (Nat.ne_of_lt hLt), hCursor, Cursor.rest_advance]
    exact hAdvances.poised_below hLink.stands hLink.latest

/-- A production that opens another one keeps the machine in order. -/
theorem opens {t : Token} {more : List Token}
    (h : Orderly limit m) (hStack : m.stack = top :: below)
    (hOpens : Production.Opens (m.production top) child)
    (hEntry : Entry m.productions.length child new opened count)
    (hRest : m.cursor.rest = t :: more) (hStart : Production.atWordEnd t more = false)
    (hLimit : next.limit = m.limit) (hCursor : next.cursor = m.cursor.advance count)
    (hProductions : next.productions = (m.productions ++ new).set top
      ((m.production top).adopt m.productions.length))
    (hNext : next.stack = opened ++ top :: below)
    (hHeight : (next.stack.length : Int) ≤ next.limit) : Orderly limit next := by
  have hMade := h.made top (by simp [hStack])
  obtain ⟨hGrows, hTop⟩ := grows_of_set hMade (hOpens.adopt _).1 hProductions
  have hNew : ∀ p ∈ new, p.Sound next.form ∧ p.fresh ≠ .freshSequence false :=
    hEntry.sound fun i => by rw [form, hGrows.added i]
  obtain ⟨first, hFirst, hSort, hLast⟩ := hEntry.first
  have hChild : next.form m.productions.length = child := by
    have hAdded := hGrows.added 0
    rw [hFirst, Nat.add_zero] at hAdded
    rw [form, hAdded, Option.getD_some, hSort]
  -- What is opened is newer than what is on the stack.
  have hOld : ∀ id ∈ top :: below, id < m.productions.length := hStack ▸ h.made
  have hLimited : next.limit = limit := hLimit.trans h.limited
  refine ⟨hLimited, hLimited ▸ hHeight, ?_, ?_, ?_,
    hGrows.outermost h.outermost fun p hp => (hNew p hp).2, ?_, ?_, ?_, ?_⟩
  · rw [hNext, List.pairwise_append]
    refine ⟨hEntry.newer, hStack ▸ h.newer, fun id hId other hOther => ?_⟩
    exact Nat.lt_of_lt_of_le (hOld other hOther) (hEntry.mem_opened.1 hId).1
  · intro id hId
    rw [hGrows.length]
    rw [hNext, List.mem_append, hEntry.mem_opened] at hId
    rcases hId with hId | hId
    · exact hId.2
    · exact Nat.lt_add_right _ (hOld id hId)
  · intro _
    rw [hNext, List.getLast?_append_of_ne_nil _ (by simp), ← hStack]
    exact h.bottom (by simp [hStack])
  · rw [hNext, List.isChain_append]
    refine ⟨hEntry.links hGrows.added, hGrows.links (hStack ▸ h.links) (hStack ▸ h.newer), ?_⟩
    intro id hId other hOther
    rw [hLast, Option.mem_some] at hId
    obtain rfl : top = other := by simpa using hOther
    subst hId
    constructor
    · rw [hChild, hGrows.form hMade]
      exact hOpens.standsOn
    · rw [hTop]
      exact (hOpens.adopt _).2
  · refine hGrows.sound h.sound ?_ fun p hp => (hNew p hp).1
    rw [hTop]
    refine hOpens.sound ((h.sound top hMade).mono fun _ => hGrows.form_of_ne_blank)
      (hRest ▸ h.poised top (by simp [hStack])) hStart ?_
    rw [hChild, ← hSort]
    exact (Production.fresh_fresh first).symm
  · intro id hId hOff
    rw [hNext, List.mem_append, hEntry.mem_opened, not_or] at hOff
    rw [hGrows.length] at hId
    have hBefore : id < m.productions.length := by
      by_contra hAfter
      exact hOff.1 ⟨Nat.not_lt.1 hAfter, hId⟩
    rw [hGrows.other id hBefore (by rintro rfl; simp at hOff)]
    exact h.closed id hBefore (hStack ▸ hOff.2)
  · intro id hHead
    obtain ⟨i, p, hOpened, hp, hPoised⟩ := hEntry.poised hStart
    rw [hNext, List.head?_append, hOpened, Option.some_or] at hHead
    obtain rfl := Option.some.inj hHead
    rw [hGrows.added i, hp, Option.getD_some, hCursor, Cursor.rest_advance, hRest]
    exact hPoised

/-- A step keeps the machine in order. -/
theorem step (h : Orderly limit m) (hTop : handleTop m = .ok u next) : Orderly limit next := by
  cases hStack : m.stack with
  | nil =>
    simp only [handleTop, bind_ok, get_ok] at hTop
    obtain ⟨_, _, ⟨rfl, rfl⟩, hTop⟩ := hTop
    rw [hStack] at hTop
    exact absurd hTop throw_ok
  | cons top below =>
    cases moves_of_handleTop hStack hTop with
    | @advance p count leave hAdvances hLimit hCursor hProductions hNext =>
      cases leave with
      | false => exact h.stay hStack hAdvances hLimit hProductions (hNext.trans hStack.symm)
      | true => exact h.leave hStack hAdvances hLimit hCursor hProductions hNext
    | spawn hOpens hEntry hRest hStart hLimit hCursor hProductions hNext hHeight =>
      exact h.opens hStack hOpens hEntry hRest hStart hLimit hCursor hProductions hNext hHeight

/-- Any number of steps keep the machine in order. -/
theorem steps (h : Orderly limit m) (hSteps : handleTimes n m = .ok u last) :
    Orderly limit last := by
  induction n generalizing m with
  | zero =>
    obtain ⟨-, rfl⟩ := pure_ok.1 hSteps
    exact h
  | succ n ih =>
    obtain ⟨mid, hTop, hRest⟩ := handleTimes_succ.1 hSteps
    exact ih (h.step hTop) hRest

/-- The machine is in order when the outermost sequence has been opened. -/
theorem start (h : spawn (.freshSequence false) (.start tokens limit) = .ok root m) :
    root = 0 ∧ Orderly limit m := by
  simp only [spawn, bind_ok, pure_ok] at h
  obtain ⟨_, placed, hPlace, _, mid, hEnter, rfl, rfl⟩ := h
  have hHeight := place_height hPlace
  obtain ⟨rfl, hCursor, hLimit, hProductions, hStack⟩ := place_ok hPlace
  have hProductions : placed.productions = [.freshSequence false] := hProductions
  have hStack : placed.stack = [0] := hStack
  have hLimit : placed.limit = limit := hLimit
  have hRoot : placed.production 0 = .freshSequence false := by
    rw [production, hProductions]
    rfl
  obtain rfl : placed = mid := by
    simp only [enter, bind_ok, get_ok] at hEnter
    obtain ⟨_, _, ⟨rfl, rfl⟩, hEnter⟩ := hEnter
    rw [show (Machine.start tokens limit).productions.length = 0 from rfl, hRoot] at hEnter
    exact (pure_ok.1 hEnter).2
  refine ⟨rfl, hLimit, hLimit ▸ hHeight, ?_, ?_, ?_, ?_, ?_, ?_, ?_, ?_⟩
  · simp [hStack]
  · simp [hStack, hProductions]
  · simp [hStack]
  · intro id
    cases id with
    | zero => simp [form, hRoot, Production.fresh, Production.freshSequence]
    | succ id => simp [form, production, hProductions, Production.fresh, Production.freshSequence]
  · simp [hStack]
  · intro id hId
    obtain rfl : id = 0 := by simpa [hProductions] using hId
    rw [hRoot]
    exact ⟨Production.alternates_nil, by simp⟩
  · intro id hId hOff
    obtain rfl : id = 0 := by simpa [hProductions] using hId
    simp [hStack] at hOff
  · intro id hHead
    obtain rfl : 0 = id := by simpa [hStack] using hHead
    rw [hRoot]
    exact fun hSome => absurd rfl hSome

end Orderly

-- ---------------------------------------------------------------------------
-- The shape
-- ---------------------------------------------------------------------------

/-- A computation that succeeds, from its two sides. -/
theorem eq_ok_of_outcome {α : Type} {r : EStateM.Result Failure Machine α} {a : α}
    (h : outcome r = .ok a) : r = .ok a (machineOf r) := by
  cases r with
  | ok b m =>
    obtain rfl := Except.ok.inj h
    rfl
  | error why m => cases h

/-- The shape of a machine at work on a token list, `root` being its outermost sequence. -/
structure Shape (limit : Int) (root : Nat) (m : Machine) : Prop where
  height    : (m.stack.length : Int) ≤ limit
  bottom    : m.stack.getLast? = some root
  outermost : ∀ id, m.form id = .freshSequence false ↔ id = root
  links     : m.stack.IsChain (Link m)
  items     : ∀ id nested items current, m.production id = .sequence nested items current →
    Alternates m.form current ∧ ∀ item ∈ items, Finished m.form item
  opened    : ∀ id ∈ m.stack, ∀ opener parts, m.production id = .quotation opener parts →
    opener.isSome = true
  closed    : ∀ id < m.productions.length, id ∉ m.stack → (m.production id).Buildable m.form

theorem Orderly.shape (h : Orderly limit m) (hOpen : m.stack ≠ []) : Shape limit 0 m := by
  refine ⟨h.height, h.bottom hOpen, h.outermost, h.links, ?_, ?_, ?_⟩
  · intro id nested items current hSequence
    have hSound := h.sound id (lt_of_production_ne_blank (by simp [hSequence]))
    rw [hSequence] at hSound
    exact hSound
  · intro id hId opener parts hQuotation
    have hSound := h.sound id (h.made id hId)
    rw [hQuotation] at hSound
    exact hSound
  · intro id hId hOff
    exact (h.sound id hId).buildable (h.closed id hId hOff)

/-- **The shape of a run**: whenever a production is about to read on, the stack is within the
limit, has the outermost sequence at its bottom and stands as the grammar has it, each
production being the latest part of the one below; items are commands and operators by turns,
strings have their opening quotes, and what has been closed has all that its tree needs. -/
theorem shape_of_handleTimes
    (hSpawn : spawn (.freshSequence false) (.start tokens limit) = .ok root m)
    (hSteps : handleTimes n m = .ok u last) (hOpen : last.stack ≠ []) :
    Shape limit root last := by
  obtain ⟨rfl, hOrderly⟩ := Orderly.start hSpawn
  exact (hOrderly.steps hSteps).shape hOpen

/-- While `c` is read, eight productions of `a|b X=$(c)` are on the stack, one for each of
the sorts that may stand on another, a string aside. -/
theorem shape_inside_substitution :
    let m := machineOf (spawn (.freshSequence false) (.start (tokenize "a|b X=$(c)".toList) 9))
    let last := machineOf (handleTimes 16 m)
    last.stack = [10, 9, 8, 7, 6, 5, 3, 0] ∧ Shape 9 0 last := by
  intro m last
  have hSpawn : spawn (.freshSequence false) (.start (tokenize "a|b X=$(c)".toList) 9) =
    .ok 0 m := eq_ok_of_outcome (by decide +kernel)
  have hSteps : handleTimes 16 m = .ok () last := eq_ok_of_outcome (by decide +kernel)
  have hStack : last.stack = [10, 9, 8, 7, 6, 5, 3, 0] := by decide +kernel
  exact ⟨hStack, shape_of_handleTimes hSpawn hSteps (by rw [hStack]; simp)⟩

end Machine

end ShellReader
