import ShellReader.Proofs.Front

/-!
# ShellReader — strings, brackets and operators

When a list of token kinds is a command line, said without a parser.

* Every string is closed (`closeStrings`). A string is one word to all that follows.
* Every `$(` is closed by a `)`, and there is no other `)` (`levels?`). What is inside a
  pair of brackets is a level of its own, and one word to the level outside.
* In every level, blanks and continuations apart (`squeeze`), there is a command, and
  every operator stands between two commands, newlines behind it apart (`Ordered`).

A level is checked from left to right by a `Stage`, which remembers what the tokens so
far have come to. Checking the open levels side by side gives `accepts`, which sees
every token once.

## Results

* `ordered_iff` — a level is in order when its last stage is done.
* `accepts_iff` — one pass over the tokens decides brackets and levels.
-/

namespace ShellReader.Grammar

open Token (Kind)

-- ---------------------------------------------------------------------------
-- What is asked of the tokens
-- ---------------------------------------------------------------------------

/-- Every string as one word, `quote` being the quote that is open; nothing if the last
string is not closed. Between double quotes a backslash hides a quote or a backslash. -/
def closeStrings : Option Kind → List Kind → Option (List Kind)
  | none, [] => some []
  | some _, [] => none
  | none, k :: rest =>
    if k.isQuote then (closeStrings (some k) rest).map (.word :: ·)
    else (closeStrings none rest).map (k :: ·)
  | some .doubleQuote, .backslash :: .doubleQuote :: rest =>
    closeStrings (some .doubleQuote) rest
  | some .doubleQuote, .backslash :: .backslash :: rest =>
    closeStrings (some .doubleQuote) rest
  | some quote, k :: rest => closeStrings (if k = quote then none else some quote) rest

/-- The levels of a list, each closed pair of brackets being one word of the level
outside: `here` is the level so far and `outer` are those around it, the innermost first.
Nothing if the brackets do not match. -/
def levels? : List (List Kind) → List Kind → List Kind → Option (List (List Kind))
  | [], here, [] => some [here]
  | _ :: _, _, [] => none
  | outer, here, .dollar :: .leftParenthesis :: rest => levels? (here :: outer) [] rest
  | [], _, .rightParenthesis :: _ => none
  | above :: outer, here, .rightParenthesis :: rest =>
    (levels? outer (above ++ [.word]) rest).map (here :: ·)
  | outer, here, k :: rest => levels? outer (here ++ [k]) rest

/-- A level without its blanks and continuations. -/
def squeeze : List Kind → List Kind
  | [] => []
  | .backslash :: .newline :: rest => squeeze rest
  | .space :: rest => squeeze rest
  | k :: rest => k :: squeeze rest

/-- Whether a kind stands between commands. -/
def divides (k : Kind) : Bool := k.isSeparator || k.isOperator

/-- Newlines, and then a command. -/
def Follows (line : List Kind) : Prop :=
  ∃ k ∈ (line.dropWhile (· = .newline)).head?, divides k = false

/-- There is a command, and every operator stands right behind one and before another,
newlines apart. -/
def Ordered (line : List Kind) : Prop :=
  (∃ k ∈ line, divides k = false) ∧
    ∀ before operator after, line = before ++ operator :: after → operator.isOperator = true →
      (∃ k ∈ before.getLast?, divides k = false) ∧ Follows after

-- ---------------------------------------------------------------------------
-- Stages
-- ---------------------------------------------------------------------------

/-- What the tokens of a level have come to. -/
inductive Stage where
  /-- No command yet. -/
  | fresh
  /-- Behind a separator, and there was a command. -/
  | between
  /-- In a command. -/
  | command
  /-- Behind an operator. -/
  | awaiting
  /-- Out of order. -/
  | failed
  deriving DecidableEq

namespace Stage

/-- One more token that is no blank. -/
def step (s : Stage) (k : Kind) : Stage :=
  if s = failed then failed
  else if k.isOperator then if s = command then awaiting else failed
  else if k = .semicolon ∧ s = awaiting then failed
  else if k.isSeparator then if s = command then between else s
  else command

/-- Whether the level may end here. -/
def done : Stage → Bool
  | between | command => true
  | _ => false

/-- The stage behind a level. -/
def of (line : List Kind) : Stage := (squeeze line).foldl step fresh

end Stage

/-- One pass over the levels: `s` is the stage of the level so far, and `outer` are the
stages of those around it. -/
def accepts : List Stage → Stage → List Kind → Bool
  | [], s, [] => s.done
  | _ :: _, _, [] => false
  | outer, s, .dollar :: .leftParenthesis :: rest => accepts (s :: outer) .fresh rest
  | outer, s, .backslash :: .newline :: rest => accepts outer s rest
  | outer, s, .space :: rest => accepts outer s rest
  | [], _, .rightParenthesis :: _ => false
  | above :: outer, s, .rightParenthesis :: rest =>
    s.done && accepts outer (above.step .word) rest
  | outer, s, k :: rest => accepts outer (s.step k) rest

-- ---------------------------------------------------------------------------
-- A level is in order when its last stage is done
-- ---------------------------------------------------------------------------

variable {k : Kind} {line : List Kind}

theorem kind_cases (k : Kind) :
    k.isOperator = true ∨ k = .semicolon ∨ k = .newline ∨ divides k = false := by
  cases k <;> simp [divides, Token.Kind.isOperator, Token.Kind.isSeparator]

theorem divides_of_isOperator (h : k.isOperator = true) : divides k = true := by
  simp [divides, h]

theorem not_divides (h : divides k = false) : k.isSeparator = false ∧ k.isOperator = false := by
  simpa [divides] using h

theorem follows_newline : Follows (.newline :: line) ↔ Follows line := by
  simp [Follows]

theorem follows_cons (h : k ≠ .newline) : Follows (k :: line) ↔ divides k = false := by
  simp [Follows, h]

/-- Every operator stands between two commands, and `behind` says whether there is a
command right before the first token. -/
def Chained (behind : Bool) (line : List Kind) : Prop :=
  ∀ before operator after, line = before ++ operator :: after → operator.isOperator = true →
    (before.getLast?.elim behind (!divides ·)) = true ∧ Follows after

theorem chained_nil (behind : Bool) : Chained behind [] := by
  intro before operator after h
  simp at h

/-- The last token of a list with one more token in front. -/
theorem elim_getLast?_cons (behind : Bool) (before : List Kind) :
    (k :: before).getLast?.elim behind (!divides ·) =
      before.getLast?.elim (!divides k) (!divides ·) := by
  cases before with
  | nil => rfl
  | cons b before => rw [List.getLast?_cons_cons, List.getLast?_cons]; rfl

theorem chained_cons {behind : Bool} : Chained behind (k :: line) ↔
    (k.isOperator = true → behind = true ∧ Follows line) ∧ Chained (!divides k) line := by
  constructor
  · intro h
    refine ⟨fun hOperator => h [] k line rfl hOperator, ?_⟩
    rintro before operator after rfl hOperator
    rw [← elim_getLast?_cons behind before]
    exact h (k :: before) operator after rfl hOperator
  · rintro ⟨hFirst, hRest⟩ before operator after hLine hOperator
    cases before with
    | nil =>
      obtain ⟨rfl, rfl⟩ := List.cons.inj hLine
      exact hFirst hOperator
    | cons b before =>
      obtain ⟨rfl, hTail⟩ := List.cons.inj hLine
      rw [elim_getLast?_cons]
      exact hRest before operator after hTail hOperator

theorem ordered_iff_chained :
    Ordered line ↔ (∃ k ∈ line, divides k = false) ∧ Chained false line := by
  refine and_congr_right fun _ => ?_
  refine forall₄_congr fun before operator after _ => imp_congr_right fun _ => ?_
  refine and_congr_left fun _ => ?_
  cases before.getLast? <;> simp

namespace Stage

theorem step_operator (s : Stage) (h : k.isOperator = true) :
    s.step k = if s = command then awaiting else failed := by
  by_cases hFailed : s = failed
  · subst hFailed
    rfl
  · simp [step, h, hFailed]

theorem step_semicolon (s : Stage) : s.step .semicolon =
    if s = awaiting then failed else if s = command then between else s := by
  cases s <;> rfl

theorem step_newline (s : Stage) :
    s.step .newline = if s = command then between else s := by
  cases s <;> rfl

theorem step_separator {s : Stage} (h : k.isSeparator = true) (hs : s ≠ awaiting) :
    s.step k = if s = command then between else s := by
  by_cases hNewline : k = .newline
  · rw [hNewline, step_newline]
  · rw [Descent.eq_semicolon h hNewline, step_semicolon, if_neg hs]

theorem step_of_not_divides {s : Stage} (hs : s ≠ failed) (h : divides k = false) :
    s.step k = command := by
  obtain ⟨hSeparator, hOperator⟩ := not_divides h
  have hSemicolon : k ≠ .semicolon := (Descent.isSeparator_eq_false.1 hSeparator).2
  simp [step, hs, hOperator, hSeparator, hSemicolon]

/-- What is still asked of a level at each stage. -/
def Asks : Stage → List Kind → Prop
  | fresh, line => (∃ k ∈ line, divides k = false) ∧ Chained false line
  | between, line => Chained false line
  | command, line => Chained true line
  | awaiting, line => Follows line ∧ Chained false line
  | failed, _ => False

/-- One more token leaves what is asked of the rest. -/
theorem asks_cons (s : Stage) : s.Asks (k :: line) ↔ (s.step k).Asks line := by
  rcases kind_cases k with hOperator | rfl | rfl | hPlain
  · have hDivides := divides_of_isOperator hOperator
    have hNewline : k ≠ .newline := by
      rintro rfl
      cases hOperator
    rw [step_operator s hOperator]
    cases s <;> simp [Asks, chained_cons, hOperator, hDivides, follows_cons hNewline]
  · have hSemicolon : divides .semicolon = true := rfl
    have hOperator : Kind.isOperator .semicolon = false := rfl
    rw [step_semicolon]
    cases s <;> simp [Asks, chained_cons, hOperator, hSemicolon, follows_cons]
  · have hNewline : divides .newline = true := rfl
    have hOperator : Kind.isOperator .newline = false := rfl
    rw [step_newline]
    cases s <;> simp [Asks, chained_cons, hOperator, hNewline, follows_newline]
  · have hOperator := (not_divides hPlain).2
    have hNewline : k ≠ .newline := by
      rintro rfl
      cases hPlain
    by_cases hs : s = failed
    · rw [hs]
      rfl
    · rw [step_of_not_divides hs hPlain]
      cases s <;> simp_all [Asks, chained_cons, follows_cons]

/-- A level is done behind the last token when nothing more was asked. -/
theorem done_foldl (s : Stage) (line : List Kind) :
    (line.foldl step s).done = true ↔ s.Asks line := by
  induction line generalizing s with
  | nil => cases s <;> simp [Asks, done, chained_nil, Follows]
  | cons k line ih => rw [List.foldl_cons, ih, asks_cons]

end Stage

/-- A level is in order when its last stage is done. -/
theorem ordered_iff : Ordered (squeeze line) ↔ (Stage.of line).done = true := by
  rw [Stage.of, Stage.done_foldl, ordered_iff_chained]
  rfl

-- ---------------------------------------------------------------------------
-- One pass over all levels
-- ---------------------------------------------------------------------------

/-- No continuation begins at the end of one list and ends in the other. -/
def Settled (here ks : List Kind) : Prop :=
  ¬ (here.getLast? = some .backslash ∧ ks.head? = some .newline)

theorem Settled.tail {rest ks : List Kind} (h : Settled (k :: rest) ks) : Settled rest ks := by
  cases rest with
  | nil => simp [Settled]
  | cons b rest => simpa [Settled] using h

theorem squeeze_cons (hSpace : k ≠ .space)
    (hContinuation : ¬ (k = .backslash ∧ line.head? = some .newline)) :
    squeeze (k :: line) = k :: squeeze line := by
  rw [squeeze]
  · rintro rest rfl rfl
    exact hContinuation ⟨rfl, rfl⟩
  · exact hSpace

theorem squeeze_append {here ks : List Kind} (h : Settled here ks) :
    squeeze (here ++ ks) = squeeze here ++ squeeze ks := by
  fun_induction squeeze here with
  | case1 => rfl
  | case2 rest ih => exact ih h.tail.tail
  | case3 rest ih => exact ih h.tail
  | case4 k rest hContinuation hSpace ih =>
    rw [List.cons_append, List.cons_append, ← ih h.tail]
    refine squeeze_cons hSpace ?_
    rintro ⟨rfl, hHead⟩
    cases rest with
    | nil => exact h ⟨rfl, hHead⟩
    | cons b rest =>
      obtain rfl : b = .newline := by simpa using hHead
      exact hContinuation rest rfl rfl

namespace Stage

theorem of_append {here ks : List Kind} (h : Settled here ks) :
    of (here ++ ks) = (squeeze ks).foldl step (of here) := by
  rw [of, squeeze_append h, List.foldl_append]
  rfl

theorem of_concat {here : List Kind} (hSpace : k ≠ .space) (h : Settled here [k]) :
    of (here ++ [k]) = (of here).step k := by
  rw [of_append h, squeeze_cons hSpace (by simp)]
  rfl

end Stage

/-- A token that opens or closes no level belongs to its level. -/
theorem levels?_cons {outer : List (List Kind)} {here ks : List Kind}
    (hOpen : ¬ (k = .dollar ∧ ks.head? = some .leftParenthesis))
    (hClose : k ≠ .rightParenthesis) :
    levels? outer here (k :: ks) = levels? outer (here ++ [k]) ks := by
  rw [levels?]
  · rintro rest rfl rfl
    exact hOpen ⟨rfl, rfl⟩
  · exact fun _ => hClose
  · exact fun _ _ _ => hClose

/-- What is out of order stays so. -/
theorem failed_notMem_of_accepts {outer : List Stage} {s : Stage} {ks : List Kind}
    (h : accepts outer s ks = true) : .failed ∉ s :: outer := by
  fun_induction accepts outer s ks with
  | case1 s =>
    rw [List.mem_singleton]
    rintro rfl
    cases h
  | case2 => cases h
  | case3 outer s rest ih => exact fun hFailed => ih h (List.mem_cons_of_mem _ hFailed)
  | case4 outer s rest ih => exact ih h
  | case5 outer s rest ih => exact ih h
  | case6 => cases h
  | case7 above outer s rest ih =>
    rw [Bool.and_eq_true] at h
    intro hFailed
    rcases List.mem_cons.1 hFailed with rfl | hFailed
    · cases h.1
    · refine ih h.2 ?_
      rcases List.mem_cons.1 hFailed with rfl | hFailed
      · exact List.mem_cons_self
      · exact List.mem_cons_of_mem _ hFailed
  | case8 outer s k rest _ _ _ _ _ ih =>
    intro hFailed
    refine ih h ?_
    rcases List.mem_cons.1 hFailed with rfl | hFailed
    · exact List.mem_cons_self
    · exact List.mem_cons_of_mem _ hFailed

/-- One pass decides brackets and levels. -/
theorem accepts_iff (outer : List (List Kind)) {here ks : List Kind} (h : Settled here ks) :
    accepts (outer.map Stage.of) (.of here) ks = true ↔
      ∃ lines, levels? outer here ks = some lines ∧
        ∀ line ∈ lines, (Stage.of line).done = true := by
  obtain ⟨stages, hStages⟩ : ∃ stages, outer.map Stage.of = stages := ⟨_, rfl⟩
  obtain ⟨s, hs⟩ : ∃ s, Stage.of here = s := ⟨_, rfl⟩
  rw [hStages, hs]
  fun_induction accepts stages s ks generalizing outer here with
  | case1 s =>
    obtain rfl : outer = [] := List.map_eq_nil_iff.1 hStages
    simp [levels?, hs]
  | case2 =>
    obtain ⟨above, outer, rfl, -⟩ := List.map_eq_cons_iff.1 hStages
    simp [levels?]
  | case3 stages s rest ih =>
    rw [levels?]
    exact ih (here :: outer) (by simp [Settled]) (by simp [hStages, hs]) rfl
  | case4 stages s rest ih =>
    have hStage : Stage.of (here ++ [.backslash] ++ [.newline]) = s := by
      rw [List.append_assoc, Stage.of_append (by simp [Settled]), hs]
      rfl
    rw [levels?_cons (by simp) (by simp), levels?_cons (by simp) (by simp)]
    exact ih outer (by simp [Settled]) hStages hStage
  | case5 stages s rest ih =>
    have hStage : Stage.of (here ++ [.space]) = s := by
      rw [Stage.of_append (by simp [Settled]), hs]
      rfl
    rw [levels?_cons (by simp) (by simp)]
    exact ih outer (by simp [Settled]) hStages hStage
  | case6 s rest =>
    obtain rfl : outer = [] := List.map_eq_nil_iff.1 hStages
    simp [levels?]
  | case7 stage stages s rest ih =>
    obtain ⟨above, outer, rfl, rfl, hOuter⟩ := List.map_eq_cons_iff.1 hStages
    have hWord : Stage.of (above ++ [.word]) = (Stage.of above).step .word :=
      Stage.of_concat (by simp) (by simp [Settled])
    rw [levels?, Bool.and_eq_true, ih outer (by simp [Settled]) hOuter hWord, ← hs]
    constructor
    · rintro ⟨hDone, lines, hLines, hAll⟩
      refine ⟨here :: lines, by rw [hLines]; rfl, ?_⟩
      simpa using ⟨hDone, hAll⟩
    · rintro ⟨lines, hLines, hAll⟩
      obtain ⟨inner, hInner, rfl⟩ := Option.map_eq_some_iff.1 hLines
      exact ⟨hAll here (by simp), inner, hInner, fun l hl => hAll l (by simp [hl])⟩
  | case8 stages s k rest hOpen hContinuation hSpace hBottom hClose ih =>
    have hSettled : Settled (here ++ [k]) rest := by
      rintro ⟨hLast, hHead⟩
      obtain ⟨more, rfl⟩ := List.head?_eq_some_iff.1 hHead
      exact hContinuation more (by simpa using hLast) rfl
    have hStage : Stage.of (here ++ [k]) = s.step k := by
      rw [Stage.of_concat hSpace (by simpa [Settled] using h), hs]
    have hParen : k ≠ .rightParenthesis := by
      cases stages with
      | nil => exact hBottom rfl
      | cons stage stages => exact hClose stage stages rfl
    have hDollar : ¬ (k = .dollar ∧ rest.head? = some .leftParenthesis) := by
      rintro ⟨hKind, hHead⟩
      obtain ⟨more, rfl⟩ := List.head?_eq_some_iff.1 hHead
      exact hOpen more hKind rfl
    rw [levels?_cons hDollar hParen]
    exact ih outer hSettled hStages hStage

end ShellReader.Grammar
