import ShellReader.Proofs.Walk

/-!
# ShellReader — the trace of a parse

The parser logs every production that it opens and every production that it closes. Read back
line by line (`Nesting.readAll`), these lines are nested like brackets: a line for a production
that closes belongs to the latest one that opened and has not closed, with the same name and the
same indentation, two blanks for each production that is open around it. What has opened and not
closed is the stack of the machine, also where the reading was cut short.

Where there is a tree, everything has closed, and the productions have opened in the order in
which the walk of the tree comes upon them.

## Results

* `Nesting.read_pushLine`, `Nesting.read_popLine` — how the two sorts of lines are read.
* `Machine.handle_leaves`, `Machine.run_leaves` — the lines of a step and of a run.
* `parseEvents_trace` — the lines of parsing a token list.
-/

namespace ShellReader

open Production (Label)

-- ---------------------------------------------------------------------------
-- Lines
-- ---------------------------------------------------------------------------

/-- Every sort of production. -/
def Production.Label.all : List Label :=
  [.blank, .sequence, .command, .assignment, .argument, .value, .quotation, .substitution]

theorem Production.Label.name_injective {a b : Label} (h : a.name = b.name) : a = b := by
  revert h
  cases a <;> cases b <;> decide

/-- The line of a production that opens, `depth` others being open. -/
def pushLine (depth : Nat) (label : Label) : Text :=
  Text.indent depth ++ "push ".toList ++ label.name.toList

/-- The line of a production that closes, `depth` others remaining open. -/
def popLine (depth : Nat) (label : Label) : Text :=
  Text.indent depth ++ "pop ".toList ++ label.name.toList

theorem pushLine_inj {depth : Nat} {a b : Label} : pushLine depth a = pushLine depth b ↔ a = b := by
  refine ⟨fun h => ?_, fun h => h ▸ rfl⟩
  exact Label.name_injective (String.toList_inj.1 (List.append_cancel_left h))

/-- A production that closes is indented less than one that would open. -/
theorem popLine_ne_pushLine (depth : Nat) (a b : Label) :
    popLine depth a ≠ pushLine (depth + 1) b := by
  intro h
  have hIndent : Text.indent (depth + 1) = Text.indent depth ++ [' ', ' '] := by
    rw [Text.indent, Text.indent, Nat.mul_succ, List.replicate_add]
    rfl
  rw [popLine, pushLine, hIndent, List.append_assoc, List.append_assoc, List.append_assoc] at h
  have hFirst := congrArg List.head? (List.append_cancel_left h)
  cases hFirst

/-- What lines have come to: the productions that have opened and not closed, the latest first,
and all that have opened. -/
structure Nesting where
  unmatched : List Label := []
  pushed    : List Label := []
deriving DecidableEq

namespace Nesting

/-- The sort of production that opens in a line, `depth` others being open. -/
def pushedBy? (depth : Nat) (line : Text) : Option Label :=
  Label.all.find? fun label => line = pushLine depth label

/-- Reads a line: something opens, or what has opened latest closes. Any other line cannot be
read. -/
def read (n : Nesting) (line : Text) : Option Nesting :=
  match pushedBy? n.unmatched.length line, n.unmatched with
  | some label, unmatched => some ⟨label :: unmatched, n.pushed ++ [label]⟩
  | none, label :: below =>
    if line = popLine below.length label then some ⟨below, n.pushed⟩ else none
  | none, [] => none

def readAll (lines : List Text) : Option Nesting :=
  lines.foldlM read {}

theorem read_pushLine {n : Nesting} {depth : Nat} (h : depth = n.unmatched.length)
    (label : Label) :
    n.read (pushLine depth label) = some ⟨label :: n.unmatched, n.pushed ++ [label]⟩ := by
  have hPushed : pushedBy? n.unmatched.length (pushLine depth label) = some label := by
    unfold pushedBy?
    rw [h]
    simp only [pushLine_inj]
    cases label <;> rfl
  rw [read, hPushed]

theorem read_popLine {pushed below : List Label} {depth : Nat} (h : depth = below.length)
    (label : Label) :
    (⟨label :: below, pushed⟩ : Nesting).read (popLine depth label) = some ⟨below, pushed⟩ := by
  have hPushed : pushedBy? (label :: below).length (popLine depth label) = none := by
    refine List.find?_eq_none.2 fun other _ => ?_
    rw [h, List.length_cons, decide_eq_true_eq]
    exact popLine_ne_pushLine _ label other
  rw [read, hPushed]
  exact if_pos (by rw [h])

theorem readAll_concat (lines : List Text) (line : Text) :
    readAll (lines ++ [line]) = readAll lines >>= fun n => n.read line := by
  simp [readAll, List.foldlM_append]

end Nesting

/-- The parser's own lines among the events of a log. -/
def parserLines (events : List Event) : List Text :=
  (events.filter fun e => e.channel = "hedgehog_parse.parser").map (·.message)

theorem parserLines_concat (events : List Event) (e : Event) :
    parserLines (events ++ [e]) = parserLines events ++ parserLines [e] := by
  simp [parserLines]

-- ---------------------------------------------------------------------------
-- The trace of a machine
-- ---------------------------------------------------------------------------

namespace Machine

variable {α β : Type} {m next : Machine} {id : ProductionId} {p : Production}

/-- What the lines that a machine has logged come to. -/
def trace (m : Machine) : Option Nesting :=
  Nesting.readAll (parserLines m.log.reverse)

/-- The sorts of all productions, in the order of their numbers. -/
def labels (m : Machine) : List Label :=
  m.productions.map Production.label

theorem label_eq (m : Machine) (id : ProductionId) :
    m.label id = m.labels[id]?.getD .blank := by
  rw [labels, List.getElem?_map, label, production]
  cases m.productions[id]? <;> rfl

theorem trace_note_pushed (depth : Nat) (sort : Label) :
    (m.note (.pushed depth sort)).trace = m.trace >>= fun n => n.read (pushLine depth sort) := by
  rw [trace, note, List.reverse_cons, parserLines_concat]
  exact Nesting.readAll_concat ..

theorem trace_note_popped (depth : Nat) (sort : Label) :
    (m.note (.popped depth sort)).trace = m.trace >>= fun n => n.read (popLine depth sort) := by
  rw [trace, note, List.reverse_cons, parserLines_concat]
  exact Nesting.readAll_concat ..

/-- Remarks are logged elsewhere. -/
theorem trace_remark (id : ProductionId) (comment : Option Production.Remark) :
    (m.remark id comment).trace = m.trace := by
  cases comment with
  | none => rfl
  | some comment =>
    rw [remark, trace, note, List.reverse_cons, parserLines_concat]
    exact congrArg Nesting.readAll (List.append_nil _)

/-- The lines of a machine are nested, and what has not closed is its stack. -/
def Nested (m : Machine) : Prop :=
  ∃ pushed, m.trace = some ⟨m.stack.map m.label, pushed⟩

/-- Between two operations all productions have opened, in the order of their numbers. -/
structure Traced (m : Machine) : Prop where
  made  : ∀ id ∈ m.stack, id < m.productions.length
  trace : m.trace = some ⟨m.stack.map m.label, m.labels⟩

theorem Traced.nested (h : Traced m) : Nested m :=
  ⟨_, h.trace⟩

theorem Traced.congr (h : Traced m) (hStack : next.stack = m.stack)
    (hLabels : next.labels = m.labels) (hTrace : next.trace = m.trace) : Traced next := by
  have hLength : next.productions.length = m.productions.length := by
    simpa [labels] using congrArg List.length hLabels
  have hLabel : next.label = m.label := by
    funext id
    rw [label_eq, label_eq, hLabels]
  constructor
  · rw [hStack, hLength]
    exact h.made
  · rw [hTrace, hStack, hLabel, hLabels]
    exact h.trace

theorem labels_update (h : p.label = m.label id) : (m.update id p).labels = m.labels := by
  rw [labels, update, List.map_set]
  by_cases hMade : id < m.productions.length
  · have hSame : p.label = (m.productions.map Production.label).get ⟨id, by simpa using hMade⟩ := by
      simp [h, label, production, hMade]
    rw [hSame]
    exact List.set_getElem_self ..
  · exact List.set_eq_of_length_le (by simpa using hMade)

theorem Traced.skip (h : Traced m) (n : Nat) : Traced (m.skip n) :=
  h.congr rfl rfl rfl

theorem Traced.update (h : Traced m) (hLabel : p.label = m.label id) : Traced (m.update id p) :=
  h.congr rfl (labels_update hLabel) rfl

theorem labels_remark (id : ProductionId) (comment : Option Production.Remark) :
    (m.remark id comment).labels = m.labels := by
  cases comment <;> rfl

theorem Traced.remark (h : Traced m) (id : ProductionId) (comment : Option Production.Remark) :
    Traced (m.remark id comment) :=
  h.congr (remark_stack ..) (labels_remark ..) (trace_remark ..)

/-- A production keeps its sort when others are added. -/
theorem label_of_labels (h : m.labels <+: next.labels) (hMade : id < m.productions.length) :
    next.label id = m.label id := by
  obtain ⟨new, hNew⟩ := h
  rw [label_eq, label_eq, ← hNew, List.getElem?_append_left (by simpa [labels] using hMade)]

-- ---------------------------------------------------------------------------
-- Computations
-- ---------------------------------------------------------------------------

/-- What a computation leaves behind: a machine whose lines are nested and, if it succeeds, all
productions opened, those of before and new ones behind them. -/
def Leaves (m : Machine) : EStateM.Result Failure Machine α → Prop
  | .ok _ next => Traced next ∧ m.labels <+: next.labels
  | .error _ next => Nested next

theorem Leaves.bind {x : Step α} {f : α → Step β} (h : Leaves m (x m))
    (hNext : ∀ a next, x m = .ok a next → Traced next → m.labels <+: next.labels →
      Leaves next (f a next)) : Leaves m ((x >>= f) m) := by
  show Leaves m (EStateM.bind x f m)
  unfold EStateM.bind
  cases hx : x m with
  | error why next =>
    rw [hx] at h
    exact h
  | ok a next =>
    rw [hx] at h
    have hLeaves := hNext a next hx h.1 h.2
    show Leaves m (f a next)
    cases hf : f a next with
    | error why last =>
      rw [hf] at hLeaves
      exact hLeaves
    | ok b last =>
      rw [hf] at hLeaves
      exact ⟨hLeaves.1, h.2.trans hLeaves.2⟩

theorem Leaves.modified {f : Machine → Machine} (h : Traced (f m))
    (hLabels : (f m).labels = m.labels) : Leaves m ((modify f : Step PUnit) m) :=
  ⟨h, hLabels ▸ List.prefix_refl _⟩

theorem Leaves.returned (h : Traced m) (a : α) : Leaves m ((pure a : Step α) m) :=
  ⟨h, List.prefix_refl _⟩

theorem Leaves.thrown (h : Traced m) (why : Failure) : Leaves m ((throw why : Step α) m) :=
  h.nested

-- ---------------------------------------------------------------------------
-- Operations
-- ---------------------------------------------------------------------------

theorem current_leaves (h : Traced m) : Leaves m (current m) := by
  unfold current
  cases m.cursor.current with
  | ok t => exact ⟨h, List.prefix_refl _⟩
  | error fault => exact h.nested

theorem consume_leaves (h : Traced m) : Leaves m (consume m) :=
  (current_leaves h).bind fun _ _ _ hNext _ =>
    (Leaves.modified (hNext.skip 1) rfl).bind fun _ _ _ hLast _ => .returned hLast _

theorem expect_leaves (h : Traced m) (kind : Token.Kind) : Leaves m (expect kind m) := by
  refine (current_leaves h).bind fun t next _ hNext _ => ?_
  split
  · exact consume_leaves hNext
  · exact .thrown hNext _

theorem starve_leaves (h : Traced m) : Leaves m (starve m : EStateM.Result Failure Machine α) :=
  (h.skip _).nested

theorem pop_leaves (h : Traced m) (id : ProductionId) : Leaves m (pop id m) := by
  cases hStack : m.stack with
  | nil =>
    rw [pop_empty hStack]
    exact h.nested
  | cons top below =>
    by_cases hTop : top = id
    · subst hTop
      rw [pop_ok (u := ()).2 ⟨below, hStack, rfl⟩]
      refine ⟨⟨fun id hId => h.made id (by simp [hStack, show id ∈ below from hId]), ?_⟩,
        List.prefix_refl _⟩
      have hTrace := h.trace
      rw [hStack, List.map_cons] at hTrace
      rw [trace_note_popped]
      show m.trace >>= _ = _
      rw [hTrace]
      exact Nesting.read_popLine (List.length_map _).symm _
    · rw [pop_other hStack hTop]
      exact h.nested

/-- Where there is no room for it, a production is not opened. -/
theorem push_full (h : m.limit ≤ m.stack.length) (id : ProductionId) :
    ∃ why, push id m = .error why m := by
  show ∃ why, (if m.limit ≤ m.stack.length then _ else _ : Step Unit) m = .error why m
  rw [if_pos h]
  obtain ⟨t, hCurrent⟩ | ⟨why, hCurrent⟩ :
      (∃ t, current m = .ok t m) ∨ ∃ why, current m = .error why m := by
    unfold current
    cases m.cursor.current with
    | ok t => exact .inl ⟨t, rfl⟩
    | error fault => exact .inr ⟨_, rfl⟩
  · refine ⟨.fault (.atToken t (.tooDeep m.limit)), ?_⟩
    simp only [bind, EStateM.bind, hCurrent]
    rfl
  · exact ⟨why, by simp only [bind, EStateM.bind, hCurrent]⟩

/-- A production is made and opened in one go; where there is no room, it is made only. -/
theorem place_leaves (h : Traced m) (p : Production) : Leaves m (place p m) := by
  let made : Machine := { m with productions := m.productions ++ [p] }
  have hLabels : made.labels = m.labels ++ [p.label] := by simp [labels, made]
  have hStack : m.stack.map made.label = m.stack.map m.label :=
    List.map_congr_left fun id hId => label_of_labels ⟨[p.label], hLabels.symm⟩ (h.made id hId)
  have hTrace : made.trace = some ⟨made.stack.map made.label, m.labels⟩ := by
    show m.trace = some ⟨m.stack.map made.label, m.labels⟩
    rw [hStack]
    exact h.trace
  show Leaves m ((push m.productions.length >>= fun _ => pure m.productions.length :
    Step ProductionId) made)
  by_cases hFull : made.limit ≤ made.stack.length
  · obtain ⟨why, hPush⟩ := push_full hFull m.productions.length
    simp only [bind, EStateM.bind, hPush]
    exact ⟨m.labels, hTrace⟩
  · let opened : Machine := { made with stack := m.productions.length :: made.stack }.note
      (.pushed made.stack.length (made.label m.productions.length))
    have hPush : push m.productions.length made = .ok () opened := push_ok.2 ⟨hFull, rfl⟩
    have hLabel : made.label m.productions.length = p.label := by
      simp [label, production, made]
    simp only [bind, EStateM.bind, hPush]
    refine ⟨⟨?_, ?_⟩, [p.label], hLabels.symm⟩
    · show ∀ id ∈ m.productions.length :: m.stack, id < (m.productions ++ [p]).length
      intro id hId
      rw [List.length_append, List.length_singleton]
      rcases List.mem_cons.1 hId with rfl | hId
      · exact Nat.lt_succ_self _
      · exact Nat.lt_succ_of_lt (h.made id hId)
    · rw [trace_note_pushed]
      show made.trace >>= _ = some (Nesting.mk
        (made.label m.productions.length :: m.stack.map made.label) made.labels)
      rw [hTrace, hLabels, ← hLabel]
      exact Nesting.read_pushLine (List.length_map _).symm _

theorem enter_leaves (h : Traced m) (id : ProductionId) : Leaves m (enter id m) := by
  refine Leaves.bind ⟨h, List.prefix_refl _⟩ fun _ _ hGet _ _ => ?_
  obtain ⟨rfl, rfl⟩ := get_ok.1 hGet
  cases hp : m.production id with
  | assignment name value =>
    have hLabel : m.label id = .assignment := by rw [label, hp]; rfl
    refine (expect_leaves h .word).bind fun t next hExpect hNext _ => ?_
    obtain ⟨-, -, rfl⟩ := expect_ok.1 hExpect
    have hSame : (Production.assignment (some t) value).label = (m.skip 1).label id := hLabel.symm
    refine (Leaves.modified (hNext.update hSame) (labels_update hSame)).bind
      fun _ _ _ hMid _ => ?_
    exact (expect_leaves hMid .equals).bind fun _ _ _ hLast _ => .returned hLast _
  | quotation opener parts =>
    have hLabel : m.label id = .quotation := by rw [label, hp]; rfl
    refine (consume_leaves h).bind fun t next hConsume hNext _ => ?_
    obtain ⟨-, rfl⟩ := consume_ok.1 hConsume
    have hSame : (Production.quotation (some t) parts).label = (m.skip 1).label id := hLabel.symm
    exact .modified ((hNext.update hSame).remark id _)
      ((labels_remark ..).trans (labels_update hSame))
  | substitution parts =>
    have hLabel : m.label id = .substitution := by rw [label, hp]; rfl
    have hMade : id < m.productions.length := lt_of_production_ne_blank (by simp [hp])
    refine (expect_leaves h .dollar).bind fun _ _ hDollar hFirst _ => ?_
    obtain ⟨-, -, rfl⟩ := expect_ok.1 hDollar
    refine (expect_leaves hFirst .leftParenthesis).bind fun _ _ hParen hSecond _ => ?_
    obtain ⟨-, -, rfl⟩ := expect_ok.1 hParen
    refine (place_leaves hSecond _).bind fun inner last _ hLast hPrefix => ?_
    have hSame : (Production.substitution (parts ++ [inner])).label = last.label id :=
      hLabel.symm.trans (label_of_labels hPrefix hMade).symm
    exact .modified (hLast.update hSame) (labels_update hSame)
  | blank => exact .returned h _
  | sequence => exact .returned h _
  | command => exact .returned h _
  | word => exact .returned h _

theorem spawn_leaves (h : Traced m) (p : Production) : Leaves m (spawn p m) :=
  (place_leaves h p).bind fun id _ _ hNext _ =>
    (enter_leaves hNext id).bind fun _ _ _ hLast _ => .returned hLast _

theorem perform_leaves (h : Traced m) {response : Production.Response}
    (hr : (m.production id).respond m.limit m.cursor.rest = response) :
    Leaves m (perform id (m.production id) response m) := by
  cases response with
  | fail why => exact .thrown h why
  | starve => exact starve_leaves h
  | advance count p comment leave =>
    have hSame : p.label = (m.skip count).label id := by
      show p.label = (m.production id).label
      rw [← Production.label_fresh, (Production.advances_of_respond hr).fresh,
        Production.label_fresh]
    have hRead := ((h.skip count).update hSame).remark id comment
    have hLabels := (labels_remark id comment).trans (labels_update hSame)
    refine (Leaves.modified hRead hLabels).bind fun _ _ _ hLast _ => ?_
    split
    · exact pop_leaves hLast id
    · exact .returned hLast _
  | spawn child =>
    have hMade : id < m.productions.length := by
      refine lt_of_production_ne_blank fun hBlank => ?_
      rw [hBlank, Production.respond_blank] at hr
      cases hr
    refine (spawn_leaves h child).bind fun opened last _ hLast hPrefix => ?_
    have hSame : ((m.production id).adopt opened).label = last.label id := by
      rw [label_of_labels hPrefix hMade, label, ← Production.label_fresh,
        ((Production.opens_of_respond hr).adopt opened).1, Production.label_fresh]
    exact .modified (hLast.update hSame) (labels_update hSame)

/-- The lines of a step. -/
theorem handle_leaves (h : Traced m) (id : ProductionId) : Leaves m (handle id m) :=
  perform_leaves h rfl

theorem handleTop_leaves (h : Traced m) : Leaves m (handleTop m) := by
  refine Leaves.bind ⟨h, List.prefix_refl _⟩ fun _ _ hGet _ _ => ?_
  obtain ⟨rfl, rfl⟩ := get_ok.1 hGet
  cases m.stack with
  | nil => exact .thrown h _
  | cons top below => exact handle_leaves h top

/-- The lines of a whole run. -/
theorem run_leaves (h : Traced m) : Leaves m (run m) := by
  induction hPotential : m.potential using Nat.strongRecOn generalizing m with
  | ind n ih =>
    rw [run_eq]
    split
    · exact ⟨h, List.prefix_refl _⟩
    · refine (handleTop_leaves h).bind fun _ next hStep hNext _ => ?_
      exact ih next.potential (hPotential ▸ potential_handleTop hStep) hNext rfl

theorem traced_start (tokens : List Token) (limit : Int) : Traced (.start tokens limit) :=
  ⟨by simp [start], rfl⟩

theorem ofExcept_leaves (h : Traced m) (x : Except Failure α) :
    Leaves m ((MonadExcept.ofExcept x : Step α) m) := by
  cases x with
  | ok a => exact .returned h a
  | error why => exact .thrown h why

theorem readTree_leaves (tokens : List Token) (limit : Int) :
    Leaves (.start tokens limit) (readTree (.start tokens limit)) := by
  refine (spawn_leaves (traced_start tokens limit) _).bind fun root _ _ hFirst _ =>
    (run_leaves hFirst).bind fun _ last _ hLast _ => ?_
  refine Leaves.bind ⟨hLast, List.prefix_refl _⟩ fun _ _ hGet _ _ => ?_
  obtain ⟨rfl, rfl⟩ := get_ok.1 hGet
  cases last.cursor.last? with
  | none => exact .thrown hLast _
  | some t =>
    dsimp only
    split
    · exact .thrown hLast _
    cases last.cursor.rest with
    | cons behind more => exact .thrown hLast _
    | nil => exact ofExcept_leaves hLast _

end Machine

-- ---------------------------------------------------------------------------
-- The trace of a token list
-- ---------------------------------------------------------------------------

/-- **The trace is the tree**: for every token list and every limit, the lines of productions
that open and close are nested like brackets, with equal names and indentations, and what has
not closed is the stack that the machine is left with. Where there is a tree nothing is left, and
the productions have opened in the order of the tree's walk. -/
theorem parseEvents_trace (tokens : List Token) (limit : Int) :
    let m := machineOf (Machine.readTree (.start tokens limit))
    ∃ pushed,
      Nesting.readAll (parserLines (parseEvents tokens limit)) =
        some ⟨m.stack.map m.label, pushed⟩ ∧
      ∀ tree, parseTokens tokens limit = .ok tree → m.stack = [] ∧ pushed = tree.labels none := by
  have hLeaves := Machine.readTree_leaves tokens limit
  unfold parseTokens parseEvents
  cases hRead : Machine.readTree (.start tokens limit) with
  | error why m =>
    rw [hRead] at hLeaves
    obtain ⟨pushed, hTrace⟩ := hLeaves
    exact ⟨pushed, hTrace, fun _ h => nomatch h⟩
  | ok tree m =>
    rw [hRead] at hLeaves
    obtain ⟨hEmpty, hLabels⟩ := Machine.labels_of_readTree hRead
    refine ⟨m.labels, hLeaves.1.trace, fun tree' hTree => ⟨hEmpty, ?_⟩⟩
    obtain rfl : tree = tree' := Except.ok.inj hTree
    exact hLabels.symm

/-- The trace of `a|X=$(b) 'c'`: the pipe joins the two commands below itself and leaves no
line, and the sequence of the substitution opens inside the value. -/
theorem parseEvents_trace_pipe :
    ∃ tree, parseTokens (tokenize "a|X=$(b) 'c'".toList) 9 = .ok tree ∧
      Nesting.readAll (parserLines (parseEvents (tokenize "a|X=$(b) 'c'".toList) 9)) =
        some ⟨[], [.sequence, .command, .argument, .command, .assignment, .value, .substitution,
          .sequence, .command, .argument, .argument, .quotation]⟩ := by
  have hLabels : (parseTokens (tokenize "a|X=$(b) 'c'".toList) 9).map (Tree.labels none) =
      .ok [.sequence, .command, .argument, .command, .assignment, .value, .substitution,
        .sequence, .command, .argument, .argument, .quotation] := by cbv
  obtain ⟨pushed, hTrace, hPushed⟩ := parseEvents_trace (tokenize "a|X=$(b) 'c'".toList) 9
  cases hTree : parseTokens (tokenize "a|X=$(b) 'c'".toList) 9 with
  | error why =>
    rw [hTree] at hLabels
    cases hLabels
  | ok tree =>
    rw [hTree] at hLabels
    obtain ⟨hEmpty, rfl⟩ := hPushed tree hTree
    refine ⟨tree, rfl, ?_⟩
    rw [hTrace, hEmpty, Except.ok.inj hLabels]
    rfl

end ShellReader
