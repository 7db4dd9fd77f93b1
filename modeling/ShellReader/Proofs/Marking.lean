import ShellReader.Proofs.Layout

/-!
# ShellReader — what becomes of each token

The grammar once more, this time about tokens where they stand. `Yields form ts trees marks
rest` says that the tokens `ts` up to `rest` yield `trees`, and `marks` lists these tokens
one by one, each with the role it has there: a piece of a word, a part of a string, a quote,
a bracket of a substitution, the `=` of an assignment or mere layout. The part of an empty
string has a mark too, although no token stands for it.

An item is read in two rounds. Commands joined by pipes are a pipeline, and pipelines joined
by `&&` and `||` from left to right are an item; recursive descent holds an item in the
making as two such stretches (`Marking.Grouped`).

## Results

* `Marking.Yields.tokens` — the marks give back the tokens that were read.
* `Marking.sequence_yields` — what recursive descent reads is read in this way.
* `Marking.yields_of_parseTokens` — and so is a whole token list.
-/

namespace ShellReader

open Production (startsAssignment atWordEnd startsEscape binary operatorKind)

/-- What a token is there for. -/
inductive Role where
  /-- A piece of a word, or the name of an assignment. -/
  | literal
  /-- A part of a string. -/
  | quoted
  /-- The part of an empty string, for which there is no token. -/
  | madeUp
  /-- Keeps words, commands or items apart, or ends the list. -/
  | layout
  /-- Opens or closes a string. -/
  | quote
  /-- The `$`, the `(` or the `)` of a substitution. -/
  | bracket
  /-- The `=` of an assignment. -/
  | equals
deriving DecidableEq

/-- A token and its role. -/
structure Mark where
  role  : Role
  token : Token
deriving DecidableEq

/-- Whether a token stands there. -/
def Role.isWritten : Role → Bool
  | madeUp => false
  | _ => true

/-- Whether the token has a place in the tree. -/
def Role.isLeaf : Role → Bool
  | literal | quoted | madeUp => true
  | _ => false

namespace Marking

open Descent (Context Reading Item wordTree stringTree startsSubstitution)
open Grammar (Rule Gap Quoted IsRoot)

-- ---------------------------------------------------------------------------
-- Marks
-- ---------------------------------------------------------------------------

/-- The tokens that stand there. -/
def written (ms : List Mark) : List Token :=
  (ms.filter (·.role.isWritten)).map (·.token)

@[simp] theorem written_nil : written [] = [] := rfl

@[simp] theorem written_append (as bs : List Mark) :
    written (as ++ bs) = written as ++ written bs := by
  simp [written]

@[simp] theorem written_cons (m : Mark) (ms : List Mark) :
    written (m :: ms) = if m.role.isWritten then m.token :: written ms else written ms := by
  unfold written
  rw [List.filter_cons]
  split <;> rfl

theorem written_map {role : Role} (hRole : role.isWritten = true) (ts : List Token) :
    written (ts.map (Mark.mk role)) = ts := by
  induction ts with
  | nil => rfl
  | cons t ts ih => simp [hRole, ih]

/-- The marks between the quotes of a string. -/
def inside (opener : Token) : List Token → List Mark
  | [] => [⟨.madeUp, ⟨opener.kind, [], opener.offset + 1⟩⟩]
  | part :: parts => (part :: parts).map (Mark.mk .quoted)

@[simp] theorem written_inside (opener : Token) (parts : List Token) :
    written (inside opener parts) = parts := by
  cases parts with
  | nil => rfl
  | cons part parts => exact written_map rfl _

-- ---------------------------------------------------------------------------
-- Forms
-- ---------------------------------------------------------------------------

/-- What can be read. -/
inductive Form where
  | piece (role : WordRole)
  | pieces (role : WordRole)
  | word (role : WordRole)
  | part
  | parts
  | command
  | operand
  | pipeline
  | item
  | items (nested : Bool)
  | sequence (nested : Bool)

/-- The tokens that a form skips in front. -/
def Form.Skips : Form → List Token → Prop
  | .parts, gap => Gap .parts gap
  | .operand, gap => Gap .operand gap
  | .items nested, gap => Gap (.items nested) gap
  | _, _ => False

/-- `Yields form ts trees marks rest`: the tokens `ts` up to `rest` are read as the form, they
yield `trees`, and `marks` says what each of them is there for. -/
inductive Yields :
    Form → List Token → List Tree → List Mark → List Token → Prop where
  | literal {role : WordRole} {t : Token} {more : List Token}
      (hOpen : atWordEnd t more = false) (hQuote : t.kind.isQuote = false)
      (hSubstitution : startsSubstitution t more = false) :
      Yields (.piece role) (t :: more) [.leaf role.partKind t none] [⟨.literal, t⟩] more
  | string {role : WordRole} {opener closer : Token} {more parts rest : List Token}
      (hQuote : opener.kind.isQuote = true) (h : Quoted opener.kind more parts closer rest) :
      Yields (.piece role) (opener :: more) [stringTree opener parts]
        (⟨.quote, opener⟩ :: inside opener parts ++ [⟨.quote, closer⟩]) rest
  | substitution {role : WordRole} {dollar paren close : Token} {inner rest : List Token}
      {root : Tree} {ms : List Mark} (hDollar : dollar.kind = .dollar)
      (hParen : paren.kind = .leftParenthesis) (hClose : close.kind = .rightParenthesis)
      (h : Yields (.sequence true) inner [root] ms (close :: rest)) :
      Yields (.piece role) (dollar :: paren :: inner) [.node .substitution root [] none]
        (⟨.bracket, dollar⟩ :: ⟨.bracket, paren⟩ :: ms ++ [⟨.bracket, close⟩]) rest
  | piecesNil {role : WordRole} {t : Token} {more : List Token}
      (h : atWordEnd t more = true) : Yields (.pieces role) (t :: more) [] [] (t :: more)
  | piecesCons {role : WordRole} {ts between rest : List Token} {first : Tree}
      {others : List Tree} {ms ms' : List Mark}
      (hFirst : Yields (.piece role) ts [first] ms between)
      (hOthers : Yields (.pieces role) between others ms' rest) :
      Yields (.pieces role) ts (first :: others) (ms ++ ms') rest
  | word {role : WordRole} {ts between rest : List Token} {first : Tree}
      {others : List Tree} {ms ms' : List Mark}
      (hFirst : Yields (.piece role) ts [first] ms between)
      (hOthers : Yields (.pieces role) between others ms' rest) :
      Yields (.word role) ts [wordTree role first others] (ms ++ ms') rest
  | assignmentEmpty {name equals t : Token} {more : List Token}
      (hStart : startsAssignment name (equals :: t :: more) = true)
      (hEnd : atWordEnd t more = true) :
      Yields .part (name :: equals :: t :: more)
        [.node .assignment (.leaf .lhs name none) [] none]
        [⟨.literal, name⟩, ⟨.equals, equals⟩] (t :: more)
  | assignment {name equals : Token} {ts rest : List Token} {value : Tree} {ms : List Mark}
      (hStart : startsAssignment name (equals :: ts) = true)
      (h : Yields (.word .value) ts [value] ms rest) :
      Yields .part (name :: equals :: ts)
        [.node .assignment (.leaf .lhs name none) [value] none]
        (⟨.literal, name⟩ :: ⟨.equals, equals⟩ :: ms) rest
  | argument {t : Token} {more rest : List Token} {tree : Tree} {ms : List Mark}
      (hStart : startsAssignment t more = false)
      (h : Yields (.word .argument) (t :: more) [tree] ms rest) :
      Yields .part (t :: more) [tree] ms rest
  | skip {form : Form} {gap ts rest : List Token} {trees : List Tree} {ms : List Mark}
      (hGap : form.Skips gap) (h : Yields form ts trees ms rest) :
      Yields form (gap ++ ts) trees (gap.map (Mark.mk .layout) ++ ms) rest
  | partsNil {t : Token} {more : List Token} (h : t.kind.endsCommand = true) :
      Yields .parts (t :: more) [] [] (t :: more)
  | partsCons {ts between rest : List Token} {first : Tree} {others : List Tree}
      {ms ms' : List Mark} (hFirst : Yields .part ts [first] ms between)
      (hOthers : Yields .parts between others ms' rest) :
      Yields .parts ts (first :: others) (ms ++ ms') rest
  | command {ts between rest : List Token} {first : Tree} {others : List Tree}
      {ms ms' : List Mark} (hFirst : Yields .part ts [first] ms between)
      (hOthers : Yields .parts between others ms' rest) :
      Yields .command ts [.node .command first others none] (ms ++ ms') rest
  | operand {ts rest : List Token} {tree : Tree} {ms : List Mark}
      (h : Yields .command ts [tree] ms rest) : Yields .operand ts [tree] ms rest
  | pipelineSingle {ts rest : List Token} {tree : Tree} {ms : List Mark}
      (h : Yields .operand ts [tree] ms rest) : Yields .pipeline ts [tree] ms rest
  | pipelineJoin {ts between rest : List Token} {operator : Token} {left right : Tree}
      {ms ms' : List Mark} (hLeft : Yields .pipeline ts [left] ms (operator :: between))
      (hOperator : operator.kind = .pipe) (hRight : Yields .operand between [right] ms' rest) :
      Yields .pipeline ts [binary .pipe left right] (ms ++ ⟨.layout, operator⟩ :: ms') rest
  | itemSingle {ts rest : List Token} {tree : Tree} {ms : List Mark}
      (h : Yields .pipeline ts [tree] ms rest) : Yields .item ts [tree] ms rest
  | itemJoin {ts between rest : List Token} {operator : Token} {left right : Tree}
      {ms ms' : List Mark} (hLeft : Yields .item ts [left] ms (operator :: between))
      (hOperator : operator.kind = .andIf ∨ operator.kind = .orIf)
      (hRight : Yields .pipeline between [right] ms' rest) :
      Yields .item ts [binary (operatorKind operator.kind) left right]
        (ms ++ ⟨.layout, operator⟩ :: ms') rest
  | finish {t : Token} {more : List Token} (h : t.kind = .endOfInput) :
      Yields (.items false) (t :: more) [] [⟨.layout, t⟩] more
  | close {t : Token} {more : List Token} (h : t.kind = .rightParenthesis) :
      Yields (.items true) (t :: more) [] [] (t :: more)
  | itemsCons {nested : Bool} {ts between rest : List Token} {first : Tree}
      {others : List Tree} {ms ms' : List Mark} (hFirst : Yields .item ts [first] ms between)
      (hOthers : Yields (.items nested) between others ms' rest) :
      Yields (.items nested) ts (first :: others) (ms ++ ms') rest
  | sequence {nested : Bool} {ts rest : List Token} {first : Tree} {others : List Tree}
      {ms : List Mark} (h : Yields (.items nested) ts (first :: others) ms rest) :
      Yields (.sequence nested) ts [.node .root first others none] ms rest

variable {c : Context} {form : Form} {role : WordRole} {ts between rest start : List Token}
  {trees : List Tree} {tree command : Tree} {ms : List Mark} {t : Token} {more : List Token}
  {depth : Nat}

/-- The marks give back the tokens that were read. -/
theorem Yields.tokens (h : Yields form ts trees ms rest) : ts = written ms ++ rest := by
  induction h with
  | literal => rfl
  | string hQuote h => simp [Role.isWritten, h.eq_append]
  | substitution _ _ _ _ ih => simp [Role.isWritten, ih]
  | piecesNil => rfl
  | piecesCons _ _ ihFirst ihOthers => simp [ihFirst, ihOthers]
  | word _ _ ihFirst ihOthers => simp [ihFirst, ihOthers]
  | assignmentEmpty => rfl
  | assignment _ _ ih => simp [Role.isWritten, ih]
  | argument _ _ ih => exact ih
  | skip _ _ ih => rw [written_append, written_map rfl, List.append_assoc, ← ih]
  | partsNil => rfl
  | partsCons _ _ ihFirst ihOthers => simp [ihFirst, ihOthers]
  | command _ _ ihFirst ihOthers => simp [ihFirst, ihOthers]
  | operand _ ih => exact ih
  | pipelineSingle _ ih => exact ih
  | pipelineJoin _ _ _ ihLeft ihRight => simp [Role.isWritten, ihLeft, ihRight]
  | itemSingle _ ih => exact ih
  | itemJoin _ _ _ ihLeft ihRight => simp [Role.isWritten, ihLeft, ihRight]
  | finish => rfl
  | close => rfl
  | itemsCons _ _ ihFirst ihOthers => simp [ihFirst, ihOthers]
  | sequence _ ih => exact ih

-- ---------------------------------------------------------------------------
-- Items in the making
-- ---------------------------------------------------------------------------

/-- The tokens from `ts` up to `rest` yield the trees, in one way or another. -/
def Found (form : Form) (ts : List Token) (trees : List Tree) (rest : List Token) : Prop :=
  ∃ ms, Yields form ts trees ms rest

theorem Found.skip (form : Form) {gap : List Token} (hGap : form.Skips gap)
    (h : Found form ts trees rest) : Found form (gap ++ ts) trees rest := by
  obtain ⟨ms, h⟩ := h
  exact ⟨_, .skip hGap h⟩

/-- The tokens from `start` up to `ts` are those of an item in the making: its latest
pipeline, and what stands to the left of that. -/
def Grouped (start : List Token) (item : Item) (ts : List Token) : Prop :=
  match item.left with
  | none => Found .pipeline start [item.pipeline] ts
  | some (kind, left) => ∃ operator between,
      (operator.kind = .andIf ∨ operator.kind = .orIf) ∧ operatorKind operator.kind = kind ∧
        Found .item start [left] (operator :: between) ∧
        Found .pipeline between [item.pipeline] ts

theorem grouped_single (h : Found .operand start [command] ts) :
    Grouped start (.single command) ts := by
  obtain ⟨ms, h⟩ := h
  exact ⟨ms, .pipelineSingle h⟩

theorem Grouped.found {item : Item} (h : Grouped start item ts) :
    Found .item start [item.tree] ts := by
  obtain ⟨left, pipeline, operands⟩ := item
  cases left with
  | none =>
    obtain ⟨ms, h⟩ := h
    exact ⟨ms, .itemSingle h⟩
  | some left =>
    obtain ⟨kind, left⟩ := left
    obtain ⟨operator, between, hOperator, rfl, ⟨ms, hLeft⟩, ms', hPipeline⟩ := h
    exact ⟨_, .itemJoin hLeft hOperator hPipeline⟩

/-- One command more, behind an operator. -/
theorem Grouped.join {item : Item} (h : Grouped start item (t :: more))
    (hOperator : t.kind.isOperator = true) (hCommand : Found .operand more [command] rest) :
    Grouped start (item.join t.kind command) rest := by
  unfold Item.join
  by_cases hPipe : t.kind = .pipe
  · rw [if_pos hPipe]
    obtain ⟨ms', hCommand⟩ := hCommand
    obtain ⟨left, pipeline, operands⟩ := item
    cases left with
    | none =>
      obtain ⟨ms, h⟩ := h
      exact ⟨_, .pipelineJoin h hPipe hCommand⟩
    | some left =>
      obtain ⟨operator, between, hLater, hKind, hLeft, ms, hPipeline⟩ := h
      exact ⟨operator, between, hLater, hKind, hLeft, _, .pipelineJoin hPipeline hPipe hCommand⟩
  · rw [if_neg hPipe]
    obtain ⟨ms', hCommand⟩ := hCommand
    have hLater := (Descent.eq_of_isOperator hOperator).resolve_left hPipe
    exact ⟨t, more, hLater, rfl, h.found, ms', .pipelineSingle hCommand⟩

-- ---------------------------------------------------------------------------
-- Recursive descent
-- ---------------------------------------------------------------------------

/-- If the computation succeeds, its value and the tokens that are left are as `Q` says. -/
def Ensures {α : Type} {n : Nat} (x : Except Fault (Reading α n))
    (Q : α → List Token → Prop) : Prop :=
  ∀ r, x = .ok r → Q r.value r.rest

section Ensures

variable {α β : Type} {n k : Nat} {x : Except Fault (Reading α n)}
  {P : α → List Token → Prop} {Q : β → List Token → Prop}

theorem Ensures.error (fault : Fault) : Ensures (.error fault : Except Fault (Reading α n)) P :=
  fun _ h => nomatch h

theorem Ensures.ok {r : Reading α n} (h : P r.value r.rest) : Ensures (.ok r) P := by
  intro r' hr
  obtain rfl := Except.ok.inj hr
  exact h

theorem Ensures.bind {f : Reading α n → Except Fault (Reading β k)} (h : Ensures x P)
    (hf : ∀ r, P r.value r.rest → Ensures (f r) Q) : Ensures (x >>= f) Q := by
  intro r hr
  obtain ⟨first, hFirst, hRest⟩ := Descent.bind_ok.1 hr
  exact hf first (h first hFirst) r hRest

/-- A production that is entered before it is read. -/
theorem Ensures.enter (depth : Nat) (t : Token) (h : Ensures x P) :
    Ensures (c.enter depth t >>= fun _ => x) P := by
  intro r hr
  obtain ⟨_, -, hx⟩ := Descent.bind_ok.1 hr
  exact h r hx

theorem Ensures.within {P' : α → List Token → Prop} {hLe : n ≤ k} (h : Ensures x P)
    (hP : ∀ a rest, P a rest → P' a rest) :
    Ensures (x >>= fun r => return r.within hLe) P' :=
  h.bind fun r hr => .ok (hP r.value r.rest hr)

end Ensures

theorem quoted_yields (c : Context) (opener : Token) (ts : List Token) :
    Ensures (Descent.quoted c opener ts) fun parts rest =>
      ∃ closer, Quoted opener.kind ts parts closer rest := by
  fun_induction Descent.quoted c opener ts with
  | case1 => exact .error _
  | case2 t more hEnd => exact .error _
  | case3 t more hEnd hClose => exact .ok ⟨t, .close hEnd hClose⟩
  | case4 t more hEnd hClose hEscape ih =>
    refine ih.bind fun r hr => .ok ?_
    obtain ⟨closer, hQuoted⟩ := hr
    cases more with
    | nil => simp [startsEscape] at hEscape
    | cons u more => exact ⟨closer, .escape hEnd hClose hEscape.1 hEscape.2 hQuoted⟩
  | case5 t more hEnd hClose hEscape ih =>
    refine ih.bind fun r hr => .ok ?_
    obtain ⟨closer, hQuoted⟩ := hr
    exact ⟨closer, .plain hEnd hClose hEscape hQuoted⟩

/-- The tokens behind `$(` are those of a sequence and of a parenthesis. -/
def Enclosed (inner : List Token) (tree : Tree) (rest : List Token) : Prop :=
  ∃ root close, tree = .node .substitution root [] none ∧ close.kind = .rightParenthesis ∧
    Found (.sequence true) inner [root] (close :: rest)

theorem closing_yields {inner : List Token} {n : Nat} (r : Reading Tree n)
    (h : Found (.sequence true) inner [r.value] r.rest) :
    Ensures (Descent.closing c r) (Enclosed inner) := by
  obtain ⟨root, rest, hShort⟩ := r
  cases rest with
  | nil => exact .error _
  | cons close rest =>
    rw [Descent.closing]
    split
    · rename_i hClose
      exact .ok ⟨root, close, rfl, hClose, h⟩
    · exact .error _

-- The recursion is that of the productions themselves: on what is left of the list.
mutual

theorem piece_yields (c : Context) (role : WordRole) (depth : Nat) (t : Token)
    (more : List Token) (hOpen : atWordEnd t more = false) :
    Ensures (Descent.piece c role depth t more) fun tree =>
      Found (.piece role) (t :: more) [tree] := by
  unfold Descent.piece
  split
  · rename_i hQuote
    refine .enter depth t ((quoted_yields c t more).bind fun r ⟨closer, hQuoted⟩ => .ok ?_)
    exact ⟨_, .string hQuote hQuoted⟩
  rename_i hQuote
  split
  · rename_i hStart
    have hInner := substitution_yields c depth t (more.drop 1)
    obtain ⟨hDollar, paren, inner, rfl, hParen⟩ := Descent.startsSubstitution_iff.1 hStart
    refine hInner.within fun tree rest h => ?_
    obtain ⟨root, close, rfl, hClose, ms, hRoot⟩ := h
    exact ⟨_, .substitution hDollar hParen hClose hRoot⟩
  · rename_i hStart
    exact .ok ⟨_, .literal hOpen (by simpa using hQuote) (by simpa using hStart)⟩
termination_by 8 * (more.length + 1) + 0
decreasing_by all_goals simp; try omega

theorem substitution_yields (c : Context) (depth : Nat) (dollar : Token)
    (inner : List Token) :
    Ensures (Descent.substitution c depth dollar inner) (Enclosed inner) := by
  unfold Descent.substitution
  exact .enter depth dollar ((sequence_yields c true (depth + 1) inner).bind closing_yields)
termination_by 8 * inner.length + 7
decreasing_by all_goals simp; try omega

theorem pieces_yields (c : Context) (role : WordRole) (depth : Nat) (ts : List Token) :
    Ensures (Descent.pieces c role depth ts) (Found (.pieces role) ts) := by
  obtain _ | ⟨t, more⟩ := ts
  · rw [Descent.pieces]
    exact .error _
  rw [Descent.pieces]
  split
  · rename_i hEnd
    exact .ok ⟨_, .piecesNil hEnd⟩
  rename_i hOpen
  refine (piece_yields c role depth t more (by simpa using hOpen)).bind
    fun first ⟨ms, hFirst⟩ => ?_
  have hShort := first.short
  exact (pieces_yields c role depth first.rest).bind fun others ⟨ms', hOthers⟩ =>
    .ok ⟨_, .piecesCons hFirst hOthers⟩
termination_by 8 * ts.length + 1
decreasing_by all_goals simp; try omega

theorem word_yields (c : Context) (role : WordRole) (depth : Nat) (t : Token)
    (more : List Token) (hOpen : atWordEnd t more = false) :
    Ensures (Descent.word c role depth t more) fun tree =>
      Found (.word role) (t :: more) [tree] := by
  unfold Descent.word
  refine .enter depth t ((piece_yields c role (depth + 1) t more hOpen).bind
    fun first ⟨ms, hFirst⟩ => ?_)
  have hShort := first.short
  exact (pieces_yields c role (depth + 1) first.rest).bind fun others ⟨ms', hOthers⟩ =>
    .ok ⟨_, .word hFirst hOthers⟩
termination_by 8 * (more.length + 1) + 1
decreasing_by all_goals simp; try omega

theorem assignment_yields (c : Context) (depth : Nat) (name : Token) (ts : List Token) :
    Ensures (Descent.assignment c depth name ts) fun tree rest =>
      ∀ equals, startsAssignment name (equals :: ts) = true →
        Found .part (name :: equals :: ts) [tree] rest := by
  obtain _ | ⟨t, more⟩ := ts
  · rw [Descent.assignment]
    exact .enter depth name (.error _)
  rw [Descent.assignment]
  refine .enter depth name ?_
  split
  · rename_i hEnd
    exact .ok fun equals hStart => ⟨_, .assignmentEmpty hStart hEnd⟩
  · rename_i hOpen
    exact (word_yields c .value (depth + 1) t more (by simpa using hOpen)).bind
      fun value ⟨ms, hValue⟩ => .ok fun equals hStart => ⟨_, .assignment hStart hValue⟩
termination_by 8 * (ts.length + 1) + 1
decreasing_by all_goals simp; try omega

theorem part_yields (c : Context) (depth : Nat) (t : Token) (more : List Token)
    (hOpen : atWordEnd t more = false) :
    Ensures (Descent.part c depth t more) fun tree => Found .part (t :: more) [tree] := by
  unfold Descent.part
  split
  · rename_i hStart
    have hAssignment := assignment_yields c depth t (more.drop 1)
    obtain ⟨-, -, equals, ts, rfl, -⟩ := Descent.startsAssignment_iff.1 hStart
    exact hAssignment.within fun _ _ h => h equals hStart
  · rename_i hStart
    intro r hr
    obtain ⟨ms, hWord⟩ := word_yields c .argument depth t more hOpen r hr
    exact ⟨ms, .argument (by simpa using hStart) hWord⟩
termination_by 8 * (more.length + 1) + 2
decreasing_by all_goals simp; try omega

theorem parts_yields (c : Context) (depth : Nat) (ts : List Token) :
    Ensures (Descent.parts c depth ts) (Found .parts ts) := by
  obtain _ | ⟨t, more⟩ := ts
  · rw [Descent.parts]
    exact .error _
  cases Descent.commandFront t more with
  | ends hEnds =>
    rw [Descent.parts_ends hEnds]
    exact .ok ⟨_, .partsNil hEnds⟩
  | space hSpace =>
    rw [Descent.parts_space hSpace]
    exact (parts_yields c depth more).within fun _ _ h =>
      .skip .parts (Gap.space (.inl rfl) hSpace) h
  | continuation hBackslash hContinuation =>
    rw [Descent.parts_continuation hContinuation]
    have hRest := parts_yields c depth (more.drop 1)
    obtain ⟨-, u, rest, rfl, hNewline⟩ := Descent.startsContinuation_iff.1 hContinuation
    exact hRest.within fun _ _ h =>
      .skip .parts (Gap.continuation (.inl rfl) hBackslash hNewline) h
  | word hOpen =>
    rw [Descent.parts_word hOpen]
    refine (part_yields c depth t more hOpen).bind fun first ⟨ms, hFirst⟩ => ?_
    have hShort := first.short
    exact (parts_yields c depth first.rest).bind fun others ⟨ms', hOthers⟩ =>
      .ok ⟨_, .partsCons hFirst hOthers⟩
termination_by 8 * ts.length + 3
decreasing_by all_goals simp; try omega

theorem command_yields (c : Context) (depth : Nat) (t : Token) (more : List Token)
    (hOpen : atWordEnd t more = false) :
    Ensures (Descent.command c depth t more) fun tree =>
      Found .command (t :: more) [tree] := by
  unfold Descent.command
  refine .enter depth t ((part_yields c (depth + 1) t more hOpen).bind
    fun first ⟨ms, hFirst⟩ => ?_)
  have hShort := first.short
  exact (parts_yields c (depth + 1) first.rest).bind fun others ⟨ms', hOthers⟩ =>
    .ok ⟨_, .command hFirst hOthers⟩
termination_by 8 * (more.length + 1) + 3
decreasing_by all_goals simp; try omega

theorem operand_yields (c : Context) (nested : Bool) (depth : Nat) (operator : Token)
    (ts : List Token) :
    Ensures (Descent.operand c nested depth operator ts) fun tree =>
      Found .operand ts [tree] := by
  obtain _ | ⟨t, more⟩ := ts
  · rw [Descent.operand]
    exact .error _
  cases Descent.front t more with
  | space hSpace =>
    rw [Descent.operand_space hSpace]
    exact (operand_yields c nested depth operator more).within fun _ _ h =>
      .skip .operand (Gap.space (.inr (.inl rfl)) hSpace) h
  | continuation hBackslash hContinuation =>
    rw [Descent.operand_continuation hContinuation]
    have hRest := operand_yields c nested depth operator (more.drop 1)
    obtain ⟨-, u, rest, rfl, hNewline⟩ := Descent.startsContinuation_iff.1 hContinuation
    exact hRest.within fun _ _ h =>
      .skip .operand (Gap.continuation (.inr (.inl rfl)) hBackslash hNewline) h
  | separator hSeparator =>
    by_cases hNewline : t.kind = .newline
    · rw [Descent.operand_newline hNewline]
      exact (operand_yields c nested depth operator more).within fun _ _ h =>
        .skip .operand (Gap.newline hNewline) h
    · rw [Descent.operand_semicolon (Descent.eq_semicolon hSeparator hNewline)]
      exact .error _
  | operator hOperator =>
    rw [Descent.operand_operator hOperator]
    exact .error _
  | finish hEnd =>
    rw [Descent.operand_finish hEnd]
    cases nested <;> exact .error _
  | close hParen =>
    rw [Descent.operand_close hParen]
    cases nested <;> exact .error _
  | word hOpen =>
    rw [Descent.operand_word hOpen]
    exact (command_yields c depth t more hOpen).within fun _ _ ⟨ms, h⟩ => ⟨ms, .operand h⟩
termination_by 8 * ts.length + 4
decreasing_by all_goals simp; try omega

theorem chain_yields (c : Context) (nested : Bool) (depth : Nat) (item : Item)
    (ts : List Token) :
    Ensures (Descent.chain c nested depth item ts) fun tree rest =>
      ∀ start, Grouped start item ts → Found .item start [tree] rest := by
  obtain _ | ⟨t, more⟩ := ts
  · rw [Descent.chain]
    exact .error _
  rw [Descent.chain]
  split
  · rename_i hOperator
    split
    · exact .error _
    refine (operand_yields c nested depth t more).bind fun next hNext => ?_
    have hShort := next.short
    exact (chain_yields c nested depth (item.join t.kind next.value) next.rest).within
      fun _ _ hChain start h => hChain start (h.join hOperator hNext)
  · exact .ok fun start h => h.found
termination_by 8 * ts.length + 5
decreasing_by all_goals simp; try omega

theorem items_yields (c : Context) (nested : Bool) (depth : Nat) (done : List Tree)
    (ts : List Token) :
    Ensures (Descent.items c nested depth done ts) fun tree rest =>
      ∃ trees, Found (.items nested) ts trees rest ∧ IsRoot tree (done ++ trees) := by
  obtain _ | ⟨t, more⟩ := ts
  · rw [Descent.items]
    exact .error _
  cases Descent.front t more with
  | space hSpace =>
    rw [Descent.items_space hSpace]
    exact (items_yields c nested depth done more).within fun _ _ ⟨trees, h, hRoot⟩ =>
      ⟨trees, .skip (.items nested) (Gap.space (.inr (.inr ⟨nested, rfl⟩)) hSpace) h, hRoot⟩
  | continuation hBackslash hContinuation =>
    rw [Descent.items_continuation hContinuation]
    have hRest := items_yields c nested depth done (more.drop 1)
    obtain ⟨-, u, rest, rfl, hNewline⟩ := Descent.startsContinuation_iff.1 hContinuation
    exact hRest.within fun _ _ ⟨trees, h, hRoot⟩ =>
      ⟨trees, .skip (.items nested)
        (Gap.continuation (.inr (.inr ⟨nested, rfl⟩)) hBackslash hNewline) h, hRoot⟩
  | separator hSeparator =>
    rw [Descent.items_separator hSeparator]
    exact (items_yields c nested depth done more).within fun _ _ ⟨trees, h, hRoot⟩ =>
      ⟨trees, .skip (.items nested) (Gap.separator hSeparator) h, hRoot⟩
  | operator hOperator =>
    rw [Descent.items_operator hOperator]
    exact .error _
  | finish hEnd =>
    rw [Descent.items_finish hEnd]
    cases nested with
    | true => exact .error _
    | false =>
      cases done with
      | nil => exact .error _
      | cons first others =>
        exact .ok ⟨[], ⟨_, .finish hEnd⟩, first, others, List.append_nil _, rfl⟩
  | close hParen =>
    rw [Descent.items_close hParen]
    cases nested with
    | false => exact .error _
    | true =>
      cases done with
      | nil => exact .error _
      | cons first others =>
        exact .ok ⟨[], ⟨_, .close hParen⟩, first, others, List.append_nil _, rfl⟩
  | word hOpen =>
    rw [Descent.items_word hOpen]
    refine (command_yields c depth t more hOpen).bind fun first ⟨ms, hFirst⟩ => ?_
    have hFirstShort := first.short
    refine (chain_yields c nested depth (.single first.value) first.rest).bind
      fun item hChain => ?_
    have hItemShort := item.short
    obtain ⟨ms', hItem⟩ := hChain (t :: more) (grouped_single ⟨ms, .operand hFirst⟩)
    refine (items_yields c nested depth (done ++ [item.value]) item.rest).within
      fun _ _ ⟨trees, ⟨ms'', h⟩, hRoot⟩ => ⟨item.value :: trees, ⟨_, .itemsCons hItem h⟩, ?_⟩
    rwa [List.append_assoc] at hRoot
termination_by 8 * ts.length + 5
decreasing_by all_goals simp; try omega

theorem sequence_yields (c : Context) (nested : Bool) (depth : Nat) (ts : List Token) :
    Ensures (Descent.sequence c nested depth ts) fun tree =>
      Found (.sequence nested) ts [tree] := by
  obtain _ | ⟨t, more⟩ := ts
  · rw [Descent.sequence]
    exact .error _
  rw [Descent.sequence]
  refine .enter depth t fun r hr => ?_
  obtain ⟨trees, ⟨ms, h⟩, first, others, rfl, hRoot⟩ :=
    items_yields c nested (depth + 1) [] (t :: more) r hr
  rw [hRoot]
  exact ⟨ms, .sequence h⟩
termination_by 8 * ts.length + 6
decreasing_by all_goals simp; try omega

end

-- ---------------------------------------------------------------------------
-- Whole lists
-- ---------------------------------------------------------------------------

/-- A token list of whose tree something is known has a tree. -/
theorem exists_tree_of_map {α : Type} {tokens : List Token} {limit : Int} {view : Tree → α} {a : α}
    (h : (parseTokens tokens limit).map view = .ok a) :
    ∃ tree, parseTokens tokens limit = .ok tree ∧ view tree = a := by
  cases hTree : parseTokens tokens limit with
  | error why =>
    rw [hTree] at h
    cases h
  | ok tree =>
    rw [hTree] at h
    exact ⟨tree, rfl, Except.ok.inj h⟩

/-- Every token of a list that has a tree is there for something. -/
theorem yields_of_parseTokens {tokens : List Token} {limit : Int}
    (h : parseTokens tokens limit = .ok tree) :
    ∃ ms, Yields (.sequence false) tokens [tree] ms [] := by
  obtain ⟨r, hSequence, hRest, -, rfl⟩ :=
    Descent.parseTokens_eq_ok_iff.1 (parseTokens_eq_ok_iff.1 h)
  obtain ⟨ms, hYields⟩ := sequence_yields _ false 0 tokens r hSequence
  rw [hRest] at hYields
  exact ⟨ms, hYields⟩

end Marking

end ShellReader
