import ShellReader.Proofs.Painting

/-!
# ShellReader — the names of commands

The painter has no stack. Whether a word is the name of a command it tells from two flags, and
in most lines only the tokens in front of the names are painted as commands. Four things lead it
astray:

* behind a substitution it expects a name, although the command or even the word goes on;
* an `=` at the front of a word it takes for that of an assignment;
* at a line continuation it sees only the newline, which starts a command elsewhere;
* behind a quote that hides it is in the wrong string (`Unhidden`).

Where none of these happens, the two flags follow the grammar. Behind the name of a command the
first flag is off up to the end of the command (`Off`). In the value of an assignment the second
flag keeps the painter quiet (`Muted`) up to the blank behind it. The pieces of a word change
neither, whichever of the two holds (`Quiet`).

* `Tree.commandNames` — the tokens in front of the names of commands;
* `Tree.commandsPlain` — substitutions stand only where they do no harm, and no name has an `=`
  in front;
* `Brings` — from one state of the flags to another.

## Results

* `takes_of_yields` — what the flags are behind everything that the parser reads.
* `line_commands` — only the names of commands are painted as commands.
-/

namespace ShellReader

-- ---------------------------------------------------------------------------
-- Names
-- ---------------------------------------------------------------------------

namespace Tree

/-- The pieces of a word. -/
def pieces : Tree → List Tree
  | .leaf kind t quote => [.leaf kind t quote]
  | .node _ first others _ => first :: others

/-- The token in front of a word, unless a string or a substitution is in front. -/
def frontToken? (t : Tree) : Option Token := t.pieces.head?.bind token?

/-- The token in front of the name of a command. -/
def commandName? (t : Tree) : Option Token :=
  if t.kind = .command then (t.child? .argument).bind frontToken? else none

/-- The tokens in front of the names of the commands in a tree. -/
def commandNames (t : Tree) : List Token := t.walk.filterMap commandName?

def isSubstitution : Tree → Bool
  | .node .substitution .. => true
  | _ => false

/-- Of each piece of a part of a command, whether it is a substitution. -/
def substitutes : Tree → List Bool
  | .node .assignment name value _ =>
    (name :: value).flatMap fun child => child.pieces.map isSubstitution
  | t => t.pieces.map isSubstitution

/-- Whether there is a substitution at most at the end. -/
def onlyLast (bits : List Bool) : Bool := bits.dropLast.all (!·)

/-- Whether the name of a command has no `=` as one of its first two pieces. -/
def namesPlainly (t : Tree) : Bool :=
  ((t.pieces.map token?).take 2).all fun token => token.map (·.kind) != some .equals

/-- Whether the parts of a command have substitutions only where the painter is ready for them:
at the end of a value in front of the name, and at the end of the command. -/
def partsPlain : List Tree → Bool
  | [] => true
  | t :: ts =>
    if t.kind = .assignment then onlyLast t.substitutes && partsPlain ts
    else onlyLast ((t :: ts).flatMap substitutes) && t.namesPlainly

/-- Whether every command of a tree is plain in this sense. -/
def commandsPlain (t : Tree) : Bool :=
  t.walk.all fun c => c.kind != .command || partsPlain c.children

theorem pieces_ne_nil (t : Tree) : t.pieces ≠ [] := by
  cases t <;> simp [pieces]

theorem substitutes_ne_nil (t : Tree) : t.substitutes ≠ [] := by
  unfold substitutes
  split <;> simp [pieces_ne_nil]

/-- The pieces of a word are those it was made of, apart from the kind of a single leaf. -/
theorem map_pieces_wordTree {α : Type} {f : Tree → α} (role : WordRole) (first : Tree)
    (others : List Tree)
    (hf : ∀ kind kind' t quote quote', f (.leaf kind t quote) = f (.leaf kind' t quote')) :
    (Descent.wordTree role first others).pieces.map f = (first :: others).map f := by
  unfold Descent.wordTree
  split
  · exact congrArg (fun a => [a]) (hf ..)
  · rfl

theorem kind_wordTree (role : WordRole) (first : Tree) (others : List Tree) :
    (Descent.wordTree role first others).kind = role.kind := by
  unfold Descent.wordTree
  split <;> rfl

end Tree

namespace Highlight

open Token (Kind)
open Marking (Yields Form written placed inside)
open Grammar (Quoted Gap)
open Descent (startsSubstitution)
open Production (startsAssignment atWordEnd)

variable {p : Painter} {before after : Option Kind} {k : Kind} {g : Group} {b : Brush}
  {t : Token} {ts more rest between : List Token} {depth : Nat}

-- ---------------------------------------------------------------------------
-- One token
-- ---------------------------------------------------------------------------

namespace Painter

/-- Only a word is painted as a command, and only where a command's name may come next. -/
theorem group_eq_command (h : p.group before k after = .command) :
    k = .word ∧ p.atCommand = true ∧ p.assigning = false := by
  unfold group groupOf groupOfKind at h
  split_ifs at h <;> simp_all
  split at h <;> simp_all

/-- Behind a blank, an operator or a separator no value is read. -/
theorem next_between (h : p.quote = none)
    (hk : k = .space ∨ k.isOperator = true ∨ k.isSeparator = true) :
    (p.next before k after g).assigning = false := by
  have hQuote : p.quoteAfter before k = none := by
    cases k <;> simp_all [quoteAfter, Kind.isQuote, Kind.isOperator, Kind.isSeparator]
  simp only [next, hQuote, Option.isSome_none, Bool.false_eq_true, if_false]
  split_ifs <;> simp_all

/-- A blank does not change whether a command's name may come next. -/
theorem next_space (h : p.quote = none) (hg : g ≠ .substitution) :
    (p.next before .space after g).atCommand = p.atCommand := by
  simp [next, quoteAfter, h, Kind.isQuote, Kind.isOperator, Kind.isSeparator, hg]

/-- What becomes of the two flags at a token of a word. -/
theorem next_flags (h : p.quote = none) (hQuote : k.isQuote = false) (hSpace : k ≠ .space)
    (hOperator : k.isOperator = false) (hSeparator : k.isSeparator = false)
    (hg : g ≠ .substitution) :
    ((p.next before k after g).atCommand, (p.next before k after g).assigning) =
      if p.atCommand ∧ g = .variableName ∧ after = some .equals then (p.atCommand, true)
      else if ¬ p.assigning ∧ k ≠ .equals then (false, p.assigning)
      else (p.atCommand, p.assigning) := by
  have hStays : p.quoteAfter before k = none := by simp [quoteAfter, h, hQuote]
  simp only [next, hStays, Option.isSome_none, Bool.false_eq_true, if_false, hOperator,
    hSeparator, hSpace, Bool.or_self, Bool.false_or, beq_iff_eq, hg]
  split_ifs <;> rfl

end Painter

/-- No command's name may come next. -/
def Off (b : Brush) : Prop := b.painter.atCommand = false

/-- No command's name may come next, or a value is being read. -/
def Muted (b : Brush) : Prop := b.painter.atCommand = false ∨ b.painter.assigning = true

/-- No value is being read. -/
def Fresh (b : Brush) : Prop := b.painter.assigning = false

/-- The token is within a word: no quote, no bracket and nothing that ends the word. -/
structure Wordy (t : Token) (ahead : List Token) : Prop extends Plain t ahead where
  space     : t.kind ≠ .space
  operator  : t.kind.isOperator = false
  separator : t.kind.isSeparator = false
  backtick  : t.kind ≠ .backtick

theorem Ready.flags (h : Ready depth (t :: rest) b) (hWordy : Wordy t rest) :
    ((b.step t.kind rest).painter.atCommand, (b.step t.kind rest).painter.assigning) =
      if b.painter.atCommand ∧ b.group t.kind rest = .variableName ∧
          rest.head?.map (·.kind) = some .equals then (b.painter.atCommand, true)
      else if ¬ b.painter.assigning ∧ t.kind ≠ .equals then (false, b.painter.assigning)
      else (b.painter.atCommand, b.painter.assigning) := by
  have hGroup := h.group_ne_substitution hWordy.toPlain hWordy.backtick
  exact Painter.next_flags h.outside hWordy.quote hWordy.space hWordy.operator hWordy.separator
    hGroup

theorem Ready.step_off (h : Ready depth (t :: rest) b) (hWordy : Wordy t rest) (hb : Off b) :
    Off (b.step t.kind rest) := by
  have hFlags := h.flags hWordy
  unfold Off at hb ⊢
  rw [hb] at hFlags
  split_ifs at hFlags <;> simp_all

theorem Ready.step_muted (h : Ready depth (t :: rest) b) (hWordy : Wordy t rest)
    (hb : Muted b) : Muted (b.step t.kind rest) := by
  have hFlags := h.flags hWordy
  unfold Muted at hb ⊢
  split_ifs at hFlags <;> simp_all

/-- The token in front of a word, unless it is a `=` or stands before one. -/
theorem Ready.step_front (h : Ready depth (t :: rest) b) (hWordy : Wordy t rest) (hb : Fresh b)
    (hKind : t.kind ≠ .equals) (hNext : rest.head?.map (·.kind) ≠ some .equals) :
    Off (b.step t.kind rest) := by
  have hFlags := h.flags hWordy
  have hReading : ¬ b.painter.assigning = true := by simp [show b.painter.assigning = false from hb]
  rw [if_neg fun hName => hNext hName.2.2, if_pos ⟨hReading, hKind⟩] at hFlags
  exact congrArg Prod.fst hFlags

/-- Words, and the `=` of an assignment. -/
theorem wordy_of_kind (h : t.kind = .word ∨ t.kind = .equals) : Wordy t rest := by
  rcases h with h | h <;> refine ⟨plain_of_kind ?_ ?_, ?_, ?_, ?_, ?_⟩ <;>
    simp [h, Kind.isQuote, Kind.isOperator, Kind.isSeparator]

/-- The name of an assignment. -/
theorem Ready.step_name (h : Ready depth (t :: rest) b) (hb : Fresh b)
    (hKind : t.kind = .word) (hNext : rest.head?.map (·.kind) = some .equals) :
    b.group t.kind rest ≠ .command ∧ Muted (b.step t.kind rest) := by
  have hGroup : b.group t.kind rest = .variableName := by
    simp [Brush.group, Painter.group, groupOf, hKind, hNext, h.outside]
  have hFlags := h.flags (wordy_of_kind (.inl hKind))
  unfold Fresh at hb
  unfold Muted
  refine ⟨by simp [hGroup], ?_⟩
  split_ifs at hFlags <;> simp_all

-- ---------------------------------------------------------------------------
-- From one state to another
-- ---------------------------------------------------------------------------

variable {names : List Token} {P P' Q Q' S K : Brush → Prop} {ms as bs : List Mark} {role : Role}
  {opener closer : Token} {parts : List Token} {trees : List Tree} {form : Form}

/-- A token is painted as a command only if it is one of the names. -/
def Named (names : List Token) (m : Mark) (g : Group) : Prop := g = .command → m.token ∈ names

/-- What is read brings the painter, outside of strings, from a state as `P` says to one as `Q`
says, and on the way it paints only names as commands. -/
def Brings (names : List Token) (P : Brush → Prop) (ts : List Token) (ms : List Mark)
    (rest : List Token) (Q : Brush → Prop) : Prop :=
  ∀ depth, Leads (Named names) (fun b => Ready depth ts b ∧ P b) ms rest
    fun b => Ready depth rest b ∧ Q b

theorem Brings.nil (h : ∀ b, P b → Q b) : Brings names P ts [] ts Q :=
  fun _ => .nil fun b hb => ⟨hb.1, h b hb.2⟩

theorem Brings.append (h : Brings names P ts as between Q) (hBetween : between = written bs ++ rest)
    (h' : Brings names Q between bs rest S) : Brings names P ts (as ++ bs) rest S :=
  fun depth => (h depth).append hBetween (h' depth)

theorem Brings.pre (h : Brings names P ts ms rest Q) (hP : ∀ b, P' b → P b) :
    Brings names P' ts ms rest Q :=
  fun depth b hb => h depth b ⟨hb.1, hP b hb.2⟩

theorem Brings.post (h : Brings names P ts ms rest Q) (hQ : ∀ b, Q b → Q' b) :
    Brings names P ts ms rest Q' :=
  fun depth => (h depth).mono fun b hb => ⟨hb.1, hQ b hb.2⟩

theorem brings_plain (hPlain : Plain t rest) (hRole : role.isWritten = true)
    (h : ∀ depth b, Ready depth (t :: rest) b → P b →
      (b.group t.kind rest = .command → t ∈ names) ∧ Q (b.step t.kind rest)) :
    Brings names P (t :: rest) [⟨role, t⟩] rest Q := by
  refine fun depth => .single hRole fun b hb => ?_
  obtain ⟨hNamed, hStep⟩ := h depth b hb.1 hb.2
  exact ⟨hNamed, hb.1.step hPlain, hStep⟩

/-- A blank, an operator or a separator. -/
theorem brings_between
    (h : t.kind = .space ∨ t.kind.isOperator = true ∨ t.kind.isSeparator = true) :
    Brings names P (t :: rest) [⟨.layout, t⟩] rest Fresh := by
  have hPlain : Plain t rest := by
    refine plain_of_kind ?_ ?_ <;> cases hKind : t.kind <;>
      simp_all [Kind.isQuote, Kind.isOperator, Kind.isSeparator]
  refine brings_plain hPlain rfl fun depth b hb _ => ⟨fun hGroup => ?_, ?_⟩
  · have hKind := (Painter.group_eq_command hGroup).1
    simp [hKind, Kind.isOperator, Kind.isSeparator] at h
  · exact Painter.next_between hb.outside h

theorem brings_string (h : Quoted opener.kind ts parts closer rest)
    (hQuote : opener.kind.isQuote = true)
    (hUnhidden : Unhidden (⟨.quote, opener⟩ :: inside opener parts ++ [⟨.quote, closer⟩]))
    (hQ : ∀ b k, P b → Q (b.closed k)) :
    Brings names P (opener :: ts)
      (⟨.quote, opener⟩ :: inside opener parts ++ [⟨.quote, closer⟩]) rest Q := by
  intro depth b hb
  have hHidden := (unhidden_string_iff h.closer_kind).1 hUnhidden
  have hPaints := paints_string (R := Named names) h hQuote hb.1.outside hHidden
    fun _ _ hGroup => by cases hGroup
  exact ⟨_, hPaints, hb.1.closed hQuote, hQ b _ hb.2⟩

theorem brings_substitution {dollar paren close : Token} (hDollar : dollar.kind = .dollar)
    (hParen : paren.kind = .leftParenthesis) (hClose : close.kind = .rightParenthesis)
    (hTs : ts = written ms ++ close :: rest) (h : Brings names Fresh ts ms (close :: rest) Q) :
    Brings names P (dollar :: paren :: ts)
      (⟨.bracket, dollar⟩ :: ⟨.bracket, paren⟩ :: ms ++ [⟨.bracket, close⟩]) rest Fresh := by
  subst hTs
  intro depth b hb
  have hInner := leads_substitution hDollar hParen hClose (R := Named names)
    (fun _ hGroup => by cases hGroup) ⟨ready_bracketed (by simp), rfl⟩ (h (depth + 1))
    fun _ hb' => hb'.1
  obtain ⟨b', hPaints, rfl⟩ := hInner b hb.1
  exact ⟨_, hPaints, ready_bracketed (by simp), rfl⟩

/-- A state in which no command is painted, and that only a substitution or the end of the word
puts an end to. -/
structure Quiet (K : Brush → Prop) : Prop where
  muted  : ∀ b, K b → Muted b
  step   : ∀ {depth t rest b}, Ready depth (t :: rest) b → Wordy t rest → K b →
    K (b.step t.kind rest)
  closed : ∀ b k, K b → K (b.closed k)

theorem quiet_off : Quiet Off where
  muted _ hb := .inl hb
  step := Ready.step_off
  closed b _ hb := by
    have hb : b.painter.atCommand = false := hb
    simp [Off, Brush.closed, hb]

theorem quiet_muted : Quiet Muted where
  muted _ hb := hb
  step := Ready.step_muted
  closed b _ hb := by
    rcases hb with hb | hb
    · exact .inl (by simp [Brush.closed, hb])
    · exact .inr hb

theorem Quiet.brings (hK : Quiet K) (hRole : role.isWritten = true) (hWordy : Wordy t rest) :
    Brings names K (t :: rest) [⟨role, t⟩] rest K := by
  refine brings_plain hWordy.toPlain hRole fun depth b hReady hb => ⟨fun hGroup => ?_, ?_⟩
  · obtain ⟨-, hAt, hReading⟩ := Painter.group_eq_command hGroup
    rcases hK.muted b hb with h | h <;> simp_all
  · exact hK.step hReady hWordy hb

-- ---------------------------------------------------------------------------
-- Substitutions at the end
-- ---------------------------------------------------------------------------

/-- There is a substitution at the end. -/
def Ends (bits : List Bool) : Prop := bits.getLast? = some true

variable {done bits bits' : List Bool}

theorem ends_append (h : bits ≠ []) : Ends (done ++ bits) ↔ Ends bits := by
  rw [Ends, Ends, List.getLast?_append_of_ne_nil _ h]

theorem onlyLast_left (h : Tree.onlyLast (bits ++ bits') = true) : Tree.onlyLast bits = true := by
  rw [Tree.onlyLast, List.all_eq_true] at h ⊢
  intro bit hBit
  refine h bit ?_
  cases bits' with
  | nil => rwa [List.append_nil]
  | cons bit' bits' =>
    rw [List.dropLast_append_of_ne_nil (List.cons_ne_nil _ _)]
    exact List.mem_append_left _ (List.mem_of_mem_dropLast hBit)

theorem onlyLast_right (h : Tree.onlyLast (bits ++ bits') = true) :
    Tree.onlyLast bits' = true := by
  cases bits' with
  | nil => rfl
  | cons bit' bits' =>
    rw [Tree.onlyLast, List.dropLast_append_of_ne_nil (List.cons_ne_nil _ _), List.all_append,
      Bool.and_eq_true] at h
    exact h.2

/-- Behind a substitution nothing comes. -/
theorem not_ends (h : Tree.onlyLast (done ++ bits) = true) (hBits : bits ≠ []) : ¬ Ends done := by
  intro hEnds
  rw [Tree.onlyLast, List.dropLast_append_of_ne_nil hBits, List.all_append, Bool.and_eq_true,
    List.all_eq_true] at h
  exact absurd (h.1 true (List.mem_of_getLast? hEnds)) (by simp)

-- ---------------------------------------------------------------------------
-- Words
-- ---------------------------------------------------------------------------

/-- A token that ends a word comes next. -/
def AtEnd : List Token → Prop
  | [] => False
  | t :: more => atWordEnd t more = true

/-- No value is being read, or a word is at its end. -/
def Entry (ts : List Token) (b : Brush) : Prop := Fresh b ∨ AtEnd ts

theorem Entry.fresh (h : Entry (t :: more) b) (hOpen : atWordEnd t more = false) : Fresh b := by
  refine h.resolve_right fun hEnd => ?_
  rw [AtEnd, hOpen] at hEnd
  cases hEnd

/-- How the painter takes a piece of a word: where it is quiet it stays so, and in front of a
command's name, with no `=` around, the first flag goes off. Either is undone by a
substitution. -/
structure TakesPiece (names : List Token) (ts : List Token) (tree : Tree) (ms : List Mark)
    (rest : List Token) : Prop where
  quiet : ∀ K, Quiet K → Brings names K ts ms rest fun b => Ends [tree.isSubstitution] ∨ K b
  front : (∀ t, tree.token? = some t → t.kind ≠ .equals ∧ t ∈ names) →
    rest.head?.map (·.kind) ≠ some .equals →
    Brings names (Entry ts) ts ms rest fun b => Ends [tree.isSubstitution] ∨ Off b

theorem takesPiece_literal {kind : Tree.Kind} (hOpen : atWordEnd t more = false)
    (hQuote : t.kind.isQuote = false) (hStart : startsSubstitution t more = false)
    (hBacktick : t.kind ≠ .backtick) :
    TakesPiece names (t :: more) (.leaf kind t none) [⟨.literal, t⟩] more := by
  obtain ⟨hSpace, -, hSeparator, hOperator, -, hClose⟩ := Descent.atWordEnd_eq_false.1 hOpen
  have hWordy : Wordy t more :=
    ⟨⟨hQuote, hClose, hStart⟩, hSpace, hOperator, hSeparator, hBacktick⟩
  refine ⟨fun K hK => (hK.brings rfl hWordy).post fun _ => .inr, ?_⟩
  intro hFront hNext
  refine brings_plain hWordy.toPlain rfl fun depth b hReady hb => ⟨fun _ => (hFront t rfl).2, ?_⟩
  exact .inr (hReady.step_front hWordy (hb.fresh hOpen) (hFront t rfl).1 hNext)

theorem takesPiece_string (hQuote : opener.kind.isQuote = true)
    (h : Quoted opener.kind more parts closer rest)
    (hUnhidden : Unhidden (⟨.quote, opener⟩ :: inside opener parts ++ [⟨.quote, closer⟩])) :
    TakesPiece names (opener :: more) (Descent.stringTree opener parts)
      (⟨.quote, opener⟩ :: inside opener parts ++ [⟨.quote, closer⟩]) rest := by
  refine ⟨fun K hK => brings_string h hQuote hUnhidden fun b k hb => .inr (hK.closed b k hb), ?_⟩
  refine fun _ _ => brings_string h hQuote hUnhidden fun b k hb => .inr ?_
  have hFresh : b.painter.assigning = false := hb.fresh (Grammar.atWordEnd_of_isQuote hQuote)
  simp [Off, Brush.closed, hFresh]

theorem takesPiece_substitution {dollar paren close : Token} {root : Tree}
    (hDollar : dollar.kind = .dollar) (hParen : paren.kind = .leftParenthesis)
    (hClose : close.kind = .rightParenthesis) (hTs : ts = written ms ++ close :: rest)
    (h : Brings names (Entry ts) ts ms (close :: rest) Q) :
    TakesPiece names (dollar :: paren :: ts) (.node .substitution root [] none)
      (⟨.bracket, dollar⟩ :: ⟨.bracket, paren⟩ :: ms ++ [⟨.bracket, close⟩]) rest := by
  have hBrings (P : Brush → Prop) := brings_substitution (P := P) hDollar hParen hClose hTs
    (h.pre fun _ => .inl)
  exact ⟨fun K _ => (hBrings K).post fun _ _ => .inl rfl,
    fun _ _ => (hBrings _).post fun _ _ => .inl rfl⟩

/-- How it takes the pieces `trees` behind some others, of which `done` says what is a
substitution. -/
def TakesPieces (names : List Token) (ts : List Token) (trees : List Tree) (ms : List Mark)
    (rest : List Token) : Prop :=
  ∀ K done, Quiet K → Tree.onlyLast (done ++ trees.map Tree.isSubstitution) = true →
    Brings names (fun b => Ends done ∨ K b) ts ms rest
      fun b => Ends (done ++ trees.map Tree.isSubstitution) ∨ K b

theorem takesPieces_nil : TakesPieces names ts [] [] ts := fun K done _ _ =>
  .nil fun b hb => by rwa [List.map_nil, List.append_nil]

theorem takesPieces_cons {first : Tree} {others : List Tree}
    (hFirst : TakesPiece names ts first as between) (hBetween : between = written bs ++ rest)
    (hOthers : TakesPieces names between others bs rest) :
    TakesPieces names ts (first :: others) (as ++ bs) rest := by
  intro K done hK hLast
  have hAll : done ++ (first :: others).map Tree.isSubstitution =
      (done ++ [first.isSubstitution]) ++ others.map Tree.isSubstitution := by simp
  -- No substitution was at the end, since another piece comes.
  have hDone : ¬ Ends done := not_ends hLast (by simp)
  have hRest := (hOthers K _ hK (hAll ▸ hLast)).pre
    fun b (hb : Ends [first.isSubstitution] ∨ K b) => by rwa [ends_append (by simp)]
  rw [hAll]
  exact ((hFirst.quiet K hK).append hBetween hRest).pre fun b hb => hb.resolve_left hDone

/-- The word may be a command's name: the painter may paint the token in front as one, and finds
no `=` that it would take for that of an assignment. -/
def MayName (names : List Token) (tree : Tree) : Prop :=
  tree.namesPlainly = true ∧ ∀ t, tree.frontToken? = some t → t ∈ names

/-- How it takes a word: as one of the later parts of a command or a value, and as the name. -/
structure TakesWord (names : List Token) (ts : List Token) (tree : Tree) (ms : List Mark)
    (rest : List Token) : Prop where
  quiet : Tree.onlyLast (tree.pieces.map Tree.isSubstitution) = true → ∀ K, Quiet K →
    Brings names K ts ms rest fun b => Ends (tree.pieces.map Tree.isSubstitution) ∨ K b
  name  : Tree.onlyLast (tree.pieces.map Tree.isSubstitution) = true → MayName names tree →
    Brings names (Entry ts) ts ms rest
      fun b => Ends (tree.pieces.map Tree.isSubstitution) ∨ Off b

theorem takesWord {word : WordRole} {first : Tree} {others : List Tree}
    (hFirst : TakesPiece names ts first as between) (hBetween : between = written bs ++ rest)
    (hOthers : TakesPieces names between others bs rest)
    (hEquals : between.head?.map (·.kind) = some .equals →
      (others.head?.bind Tree.token?).map (·.kind) = some .equals) :
    TakesWord names ts (Descent.wordTree word first others) (as ++ bs) rest := by
  have hBits : (Descent.wordTree word first others).pieces.map Tree.isSubstitution =
      [first.isSubstitution] ++ others.map Tree.isSubstitution :=
    Tree.map_pieces_wordTree word first others fun _ _ _ _ _ => rfl
  have hTokens : (Descent.wordTree word first others).pieces.map Tree.token? =
      first.token? :: others.map Tree.token? :=
    Tree.map_pieces_wordTree word first others fun _ _ _ _ _ => rfl
  refine ⟨fun hLast K hK => ?_, fun hLast ⟨hPlainly, hNames⟩ => ?_⟩ <;> rw [hBits] at hLast ⊢
  · exact (hFirst.quiet K hK).append hBetween (hOthers K _ hK hLast)
  have hFront : (Descent.wordTree word first others).frontToken? = first.token? := by
    have hHead := congrArg List.head? hTokens
    rw [List.head?_map, List.head?_cons, Option.map_eq_some_iff] at hHead
    obtain ⟨piece, hPiece, hToken⟩ := hHead
    rw [Tree.frontToken?, hPiece, Option.bind_some, hToken]
  rw [Tree.namesPlainly, hTokens, List.take_succ_cons, List.all_cons, Bool.and_eq_true,
    bne_iff_ne] at hPlainly
  refine (hFirst.front ?_ ?_).append hBetween (hOthers Off _ quiet_off hLast)
  · intro t ht
    refine ⟨fun hKind => hPlainly.1 ?_, hNames t (hFront.trans ht)⟩
    rw [ht, Option.map_some, hKind]
  · intro hNext
    have hSecond := hEquals hNext
    obtain _ | ⟨second, others⟩ := others
    · cases hSecond
    · rw [List.head?_cons, Option.bind_some] at hSecond
      simp [hSecond] at hPlainly

-- ---------------------------------------------------------------------------
-- Parts of commands
-- ---------------------------------------------------------------------------

/-- How it takes a part of a command: behind the name, as an assignment in front of the name, and
as the name. -/
structure TakesPart (names : List Token) (ts : List Token) (tree : Tree) (ms : List Mark)
    (rest : List Token) : Prop where
  later      : Tree.onlyLast tree.substitutes = true →
    Brings names Off ts ms rest fun b => Ends tree.substitutes ∨ Off b
  assignment : Tree.onlyLast tree.substitutes = true → tree.kind = .assignment →
    Brings names (Entry ts) ts ms rest fun _ => True
  name       : Tree.onlyLast tree.substitutes = true → tree.kind ≠ .assignment →
    MayName names tree → Brings names (Entry ts) ts ms rest fun b => Ends tree.substitutes ∨ Off b

/-- The name of an assignment and its `=`. -/
theorem brings_assigned {name equals : Token}
    (hStart : startsAssignment name (equals :: ts) = true) :
    Brings names Off (name :: equals :: ts) [⟨.literal, name⟩, ⟨.equals, equals⟩] ts Off ∧
      Brings names (Entry (name :: equals :: ts)) (name :: equals :: ts)
        [⟨.literal, name⟩, ⟨.equals, equals⟩] ts Muted := by
  obtain ⟨hName, -, equals', ts', hCons, hEquals⟩ := Descent.startsAssignment_iff.1 hStart
  obtain ⟨rfl, rfl⟩ := List.cons.inj hCons
  have hSecond (K : Brush → Prop) (hK : Quiet K) :
      Brings names K (equals :: ts) [⟨.equals, equals⟩] ts K :=
    hK.brings rfl (wordy_of_kind (.inr hEquals))
  have hWordy : Wordy name (equals :: ts) := wordy_of_kind (.inl hName)
  constructor
  · exact (quiet_off.brings rfl hWordy).append rfl (hSecond Off quiet_off)
  · refine Brings.append (brings_plain hWordy.toPlain rfl fun depth b hReady hb => ?_) rfl
      (hSecond Muted quiet_muted)
    have hFresh := hb.fresh (Grammar.atWordEnd_of_kind (.inr hName))
    obtain ⟨hGroup, hStep⟩ := hReady.step_name hFresh hName (congrArg some hEquals)
    exact ⟨fun h => absurd h hGroup, hStep⟩

theorem takesPart_assignmentEmpty {name equals : Token}
    (hStart : startsAssignment name (equals :: ts) = true) :
    TakesPart names (name :: equals :: ts) (.node .assignment (.leaf .lhs name none) [] none)
      [⟨.literal, name⟩, ⟨.equals, equals⟩] ts where
  later _ := (brings_assigned hStart).1.post fun _ => .inr
  assignment _ _ := (brings_assigned hStart).2.post fun _ _ => trivial
  name _ hKind := absurd rfl hKind

theorem takesPart_assignment {name equals : Token} {value : Tree}
    (hStart : startsAssignment name (equals :: ts) = true) (hTs : ts = written ms ++ rest)
    (h : TakesWord names ts value ms rest) :
    TakesPart names (name :: equals :: ts)
      (.node .assignment (.leaf .lhs name none) [value] none)
      (⟨.literal, name⟩ :: ⟨.equals, equals⟩ :: ms) rest := by
  have hBits : (Tree.node .assignment (.leaf .lhs name none) [value] none).substitutes =
      [false] ++ value.pieces.map Tree.isSubstitution := by
    simp [Tree.substitutes, Tree.pieces, Tree.isSubstitution]
  have hValue : value.pieces.map Tree.isSubstitution ≠ [] := by simp [value.pieces_ne_nil]
  refine ⟨fun hLast => ?_, fun hLast _ => ?_, fun _ hKind => absurd rfl hKind⟩
  · rw [hBits] at hLast ⊢
    rw [ends_append hValue]
    exact (brings_assigned hStart).1.append hTs (h.quiet (onlyLast_right hLast) Off quiet_off)
  · rw [hBits] at hLast
    exact ((brings_assigned hStart).2.append hTs
      (h.quiet (onlyLast_right hLast) Muted quiet_muted)).post fun _ _ => trivial

theorem takesPart_word {tree : Tree} (hKind : tree.kind = .argument)
    (h : TakesWord names ts tree ms rest) : TakesPart names ts tree ms rest := by
  have hBits : tree.substitutes = tree.pieces.map Tree.isSubstitution := by
    unfold Tree.substitutes
    split
    · cases hKind
    · rfl
  refine ⟨fun hLast => ?_, fun _ hAssignment => ?_, fun hLast _ hName => ?_⟩
  · rw [hBits] at hLast ⊢
    exact h.quiet hLast Off quiet_off
  · rw [hKind] at hAssignment
    cases hAssignment
  · rw [hBits] at hLast ⊢
    exact h.name hLast hName

/-- How it takes the parts of a command: behind the name, and from the front on. -/
structure TakesParts (names : List Token) (ts : List Token) (trees : List Tree) (ms : List Mark)
    (rest : List Token) : Prop where
  later : ∀ done, Tree.onlyLast (done ++ trees.flatMap Tree.substitutes) = true →
    Brings names (fun b => Ends done ∨ Off b) ts ms rest fun _ => True
  front : Tree.partsPlain trees = true →
    (∀ t, (trees.find? (·.kind == .argument)).bind Tree.frontToken? = some t → t ∈ names) →
    Brings names (Entry ts) ts ms rest fun _ => True

theorem takesParts_nil : TakesParts names ts [] [] ts :=
  ⟨fun _ _ => .nil fun _ _ => trivial, fun _ _ => .nil fun _ _ => trivial⟩

theorem takesParts_cons {first : Tree} {others : List Tree}
    (hKind : first.kind = .assignment ∨ first.kind = .argument)
    (hFirst : TakesPart names ts first as between) (hBetween : between = written bs ++ rest)
    (hEnd : AtEnd between) (hOthers : TakesParts names between others bs rest) :
    TakesParts names ts (first :: others) (as ++ bs) rest := by
  have hSome := first.substitutes_ne_nil
  constructor
  · intro done hLast
    rw [List.flatMap_cons] at hLast
    have hDone : ¬ Ends done := not_ends hLast (by simp [hSome])
    rw [← List.append_assoc] at hLast
    have hPart := hFirst.later (onlyLast_right (onlyLast_left hLast))
    have hRest := (hOthers.later _ hLast).pre
      fun b (hb : Ends first.substitutes ∨ Off b) => by rwa [ends_append hSome]
    exact (hPart.append hBetween hRest).pre fun b hb => hb.resolve_left hDone
  · intro hPlain hNames
    rw [Tree.partsPlain] at hPlain
    rcases hKind with hKind | hKind
    · rw [if_pos hKind, Bool.and_eq_true] at hPlain
      have hRest := hOthers.front hPlain.2 fun t ht => hNames t
        (by rwa [List.find?_cons_of_neg (by simp [hKind])])
      exact (hFirst.assignment hPlain.1 hKind).append hBetween (hRest.pre fun _ _ => .inr hEnd)
    · rw [if_neg (by simp [hKind]), Bool.and_eq_true, List.flatMap_cons] at hPlain
      have hMayName : MayName names first := by
        refine ⟨hPlain.2, fun t ht => hNames t ?_⟩
        rwa [List.find?_cons_of_pos (by simp [hKind]), Option.bind_some]
      exact (hFirst.name (onlyLast_left hPlain.1) (by simp [hKind]) hMayName).append hBetween
        (hOthers.later _ hPlain.1)

-- ---------------------------------------------------------------------------
-- Readings
-- ---------------------------------------------------------------------------

/-- What is known of the trees and marks of a reading. -/
structure Calm (names : List Token) (trees : List Tree) (ms : List Mark) : Prop where
  commands : ∀ c ∈ Tree.walkAll trees, c.kind = .command →
    Tree.partsPlain c.children = true ∧ ∀ t, c.commandName? = some t → t ∈ names
  unhidden : Unhidden ms
  marks    : ∀ m ∈ ms, (m.role = .literal → m.token.kind ≠ .backtick) ∧
    (m.role = .layout → m.token.kind ≠ .backslash)

theorem Calm.mono {trees' : List Tree} (h : Calm names trees ms)
    (hTrees : ∀ c ∈ Tree.walkAll trees', c ∈ Tree.walkAll trees) (hMarks : as <:+: ms) :
    Calm names trees' as := by
  obtain ⟨front, back, rfl⟩ := hMarks
  refine ⟨fun c hc => h.commands c (hTrees c hc), h.unhidden.left.right, fun m hm => h.marks m ?_⟩
  exact List.mem_append_left _ (List.mem_append_right _ hm)

theorem Calm.within (h : Calm names trees ms) (hMarks : as <:+: ms) : Calm names trees as :=
  h.mono (fun _ => id) hMarks

theorem Calm.first {first : Tree} {others : List Tree}
    (h : Calm names (first :: others) (as ++ bs)) : Calm names [first] as :=
  h.mono (by simp [Tree.walkAll]; tauto) (List.prefix_append ..).isInfix

theorem Calm.others {first : Tree} {others : List Tree}
    (h : Calm names (first :: others) (as ++ bs)) : Calm names others bs :=
  h.mono (by simp [Tree.walkAll]; tauto) (List.suffix_append ..).isInfix

theorem Calm.children {kind : Tree.Kind} {first : Tree} {others : List Tree}
    {quote : Option Text} (h : Calm names [.node kind first others quote] ms) :
    Calm names (first :: others) ms :=
  h.mono (by simp [Tree.walkAll, Tree.walk]; tauto) List.infix_rfl

theorem Calm.command {first : Tree} {others : List Tree} {quote : Option Text}
    (h : Calm names [.node .command first others quote] ms) :
    Tree.partsPlain (first :: others) = true ∧
      ∀ t, ((first :: others).find? (·.kind == .argument)).bind Tree.frontToken? = some t →
        t ∈ names :=
  h.commands (.node .command first others quote) (by simp [Tree.walkAll, Tree.walk]) rfl

theorem Calm.word {word : WordRole} {first : Tree} {others : List Tree}
    (h : Calm names [Descent.wordTree word first others] ms) : Calm names (first :: others) ms := by
  unfold Descent.wordTree at h
  split at h
  · refine ⟨fun c hc _ => ?_, h.unhidden, h.marks⟩
    obtain rfl : c = _ := by simpa [Tree.walkAll, Tree.walk] using hc
    exact ⟨rfl, by simp [Tree.commandName?, Tree.child?, Tree.children]⟩
  · exact h.children

/-- How the painter takes what is read as a form. -/
def Takes (names : List Token) : Form → List Token → List Tree → List Mark → List Token → Prop
  | .piece _, ts, [tree], ms, rest => TakesPiece names ts tree ms rest
  | .pieces _, ts, trees, ms, rest => TakesPieces names ts trees ms rest
  | .word _, ts, [tree], ms, rest => TakesWord names ts tree ms rest
  | .part, ts, [tree], ms, rest => TakesPart names ts tree ms rest
  | .parts, ts, trees, ms, rest => TakesParts names ts trees ms rest
  | _, ts, _, ms, rest => Brings names (Entry ts) ts ms rest fun _ => True

theorem kind_of_word {word : WordRole} {tree : Tree}
    (h : Yields (.word word) ts [tree] ms rest) : tree.kind = word.kind := by
  cases h with
  | word => exact Tree.kind_wordTree ..
  | skip hGap => cases hGap

theorem kind_of_part {tree : Tree} (h : Yields .part ts [tree] ms rest) :
    tree.kind = .assignment ∨ tree.kind = .argument := by
  cases h with
  | assignmentEmpty => exact .inl rfl
  | assignment => exact .inl rfl
  | argument _ h => exact .inr (kind_of_word h)
  | skip hGap => cases hGap

/-- An `=` within a word is a piece of it. -/
theorem equals_of_pieces {word : WordRole} (h : Yields (.pieces word) ts trees ms rest)
    (hNext : ts.head?.map (·.kind) = some .equals) :
    (trees.head?.bind Tree.token?).map (·.kind) = some .equals := by
  cases h with
  | @piecesNil _ t more hEnd =>
    have hKind : t.kind = .equals := Option.some.inj hNext
    have hOpen : atWordEnd t more = false := by
      rw [Descent.atWordEnd_eq_false]
      simp [hKind, Kind.isSeparator, Kind.isOperator, Descent.startsContinuation_of_ne]
    rw [hOpen] at hEnd
    cases hEnd
  | piecesCons hFirst _ =>
    cases hFirst with
    | literal => exact hNext
    | @string _ opener _ _ _ _ hQuote _ =>
      have hKind : opener.kind = .equals := Option.some.inj hNext
      rw [hKind] at hQuote
      cases hQuote
    | substitution hDollar _ _ _ =>
      have hKind := hDollar.symm.trans (Option.some.inj hNext)
      cases hKind
    | skip hGap => cases hGap
  | skip hGap => cases hGap

/-- Whether the form is read up to a token that ends a word. -/
def reachesEnd : Form → Bool
  | .piece _ | .items _ | .sequence _ => false
  | _ => true

theorem atEnd_of_yields (h : Yields form ts trees ms rest) (hForm : reachesEnd form = true) :
    AtEnd rest := by
  induction h with
  | piecesNil hEnd => exact hEnd
  | piecesCons _ _ _ ih => exact ih rfl
  | word _ _ _ ih => exact ih rfl
  | assignmentEmpty _ hEnd => exact hEnd
  | assignment _ _ ih => exact ih rfl
  | argument _ _ ih => exact ih rfl
  | skip _ _ ih => exact ih hForm
  | @partsNil t more hEnds =>
    have hEnd : atWordEnd t more = true := by simp [atWordEnd, Kind.endsArgument, hEnds]
    exact hEnd
  | partsCons _ _ _ ih => exact ih rfl
  | command _ _ _ ih => exact ih rfl
  | operand _ ih => exact ih rfl
  | pipelineSingle _ ih => exact ih rfl
  | pipelineJoin _ _ _ _ ih => exact ih rfl
  | itemSingle _ ih => exact ih rfl
  | itemJoin _ _ _ _ ih => exact ih rfl
  | _ => cases hForm

theorem brings_gap {gap : List Token} (h : form.Skips gap)
    (hMarks : ∀ t ∈ gap, t.kind ≠ .backslash) :
    Brings names P (gap ++ ts) (gap.map (Mark.mk .layout)) ts Fresh := by
  obtain ⟨rule, h⟩ := h.gap
  cases h with
  | space _ hKind => exact brings_between (.inl hKind)
  | continuation _ hBackslash => exact absurd hBackslash (hMarks _ (List.mem_cons_self ..))
  | newline hKind => exact brings_between (.inr (.inr (by rw [hKind]; rfl)))
  | separator hKind => exact brings_between (.inr (.inr hKind))

/-- Blanks between the parts of a command. -/
theorem brings_gap_off {gap : List Token} (h : Form.parts.Skips gap)
    (hMarks : ∀ t ∈ gap, t.kind ≠ .backslash) :
    Brings names Off (gap ++ ts) (gap.map (Mark.mk .layout)) ts Off := by
  have h : Gap .parts gap := h
  cases h with
  | continuation _ hBackslash => exact absurd hBackslash (hMarks _ (List.mem_cons_self ..))
  | @space _ t _ hKind =>
    have hPlain : Plain t ts := plain_of_kind (by rw [hKind]; rfl) (by simp [hKind])
    refine brings_plain hPlain rfl fun depth b hReady hb => ⟨fun hGroup => ?_, ?_⟩
    · have hWord := (Painter.group_eq_command hGroup).1
      rw [hKind] at hWord
      cases hWord
    · have hGroup := hReady.group_ne_substitution hPlain (by simp [hKind])
      have hStep : (b.step t.kind ts).painter.atCommand = b.painter.atCommand := by
        rw [Brush.step, hKind] at *
        exact Painter.next_space hReady.outside hGroup
      exact hStep.trans hb

theorem takesParts_skip {gap : List Token} (h : Form.parts.Skips gap)
    (hMarks : ∀ t ∈ gap, t.kind ≠ .backslash) (hTs : ts = written ms ++ rest)
    (hParts : TakesParts names ts trees ms rest) :
    TakesParts names (gap ++ ts) trees (gap.map (Mark.mk .layout) ++ ms) rest := by
  constructor
  · intro done hLast
    refine Brings.append ?_ hTs (hParts.later done hLast)
    by_cases hDone : Ends done
    · exact (brings_gap h hMarks).post fun _ _ => .inl hDone
    · exact ((brings_gap_off h hMarks).pre fun _ hb => hb.resolve_left hDone).post fun _ => .inr
  · intro hPlain hNames
    exact ((brings_gap h hMarks).post fun _ => .inl).append hTs (hParts.front hPlain hNames)

/-- Two readings with an operator between them. -/
theorem brings_join (hOperator : t.kind.isOperator = true)
    (hLeft : Brings names (Entry ts) ts as (t :: between) fun _ => True)
    (hBetween : between = written bs ++ rest)
    (hRight : Brings names (Entry between) between bs rest Q) :
    Brings names (Entry ts) ts (as ++ ⟨.layout, t⟩ :: bs) rest Q := by
  have hToken : Brings names (fun _ => True) (t :: between) [⟨.layout, t⟩] between
      (Entry between) := (brings_between (.inr (.inl hOperator))).post fun _ => .inl
  exact hLeft.append (congrArg (t :: ·) hBetween) (hToken.append hBetween hRight)

theorem Calm.join {kind : Tree.Kind} {left right : Tree} {m : Mark}
    (h : Calm names [Production.binary kind left right] (as ++ m :: bs)) :
    Calm names [left] as ∧ Calm names [right] bs := by
  have hBoth := h.children
  exact ⟨hBoth.first.children,
    hBoth.others.children.within (List.suffix_cons ..).isInfix⟩

/-- The painter takes everything that the parser reads, where nothing leads it astray. -/
theorem takes_of_yields (h : Yields form ts trees ms rest) (hCalm : Calm names trees ms) :
    Takes names form ts trees ms rest := by
  -- Each case is the lemma about its form; what is known of the whole goes down with `Calm`.
  induction h with
  | literal hOpen hQuote hStart =>
    have hBacktick := (hCalm.marks _ (List.mem_singleton_self _)).1 rfl
    exact takesPiece_literal hOpen hQuote hStart hBacktick
  | string hQuote h => exact takesPiece_string hQuote h hCalm.unhidden
  | substitution hDollar hParen hClose h ih =>
    have hInner := hCalm.children.within ⟨[_, _], [_], rfl⟩
    exact takesPiece_substitution hDollar hParen hClose h.tokens (ih hInner)
  | piecesNil => exact takesPieces_nil
  | piecesCons _ hOthers ihFirst ihOthers =>
    exact takesPieces_cons (ihFirst hCalm.first) hOthers.tokens (ihOthers hCalm.others)
  | word _ hOthers ihFirst ihOthers =>
    have hCalm := hCalm.word
    exact takesWord (ihFirst hCalm.first) hOthers.tokens (ihOthers hCalm.others)
      (equals_of_pieces hOthers)
  | assignmentEmpty hStart => exact takesPart_assignmentEmpty hStart
  | @assignment name equals _ _ value ms hStart h ih =>
    have hBoth : Calm names [.leaf .lhs name none, value]
        ([⟨.literal, name⟩] ++ ⟨.equals, equals⟩ :: ms) := hCalm.children
    have hValue := hBoth.others.within (List.suffix_cons ..).isInfix
    exact takesPart_assignment hStart h.tokens (ih hValue)
  | argument _ h ih => exact takesPart_word (kind_of_word h) (ih hCalm)
  | @skip form gap ts rest trees ms hGap h ih =>
    have hMarks : ∀ t ∈ gap, t.kind ≠ .backslash := fun t ht =>
      (hCalm.marks ⟨.layout, t⟩ (List.mem_append_left _ (List.mem_map_of_mem ht))).2 rfl
    have hRest := ih (hCalm.within (List.suffix_append ..).isInfix)
    have hFresh : Brings names (Entry (gap ++ ts)) (gap ++ ts) (gap.map (Mark.mk .layout)) ts
        (Entry ts) := (brings_gap hGap hMarks).post fun _ => .inl
    -- Between the parts of a command, a blank must also leave the first flag off.
    cases form with
    | parts => exact takesParts_skip hGap hMarks h.tokens hRest
    | operand => exact hFresh.append h.tokens hRest
    | items nested => exact hFresh.append h.tokens hRest
    | _ => cases hGap
  | partsNil => exact takesParts_nil
  | partsCons hFirst hOthers ihFirst ihOthers =>
    exact takesParts_cons (kind_of_part hFirst) (ihFirst hCalm.first) hOthers.tokens
      (atEnd_of_yields hFirst rfl) (ihOthers hCalm.others)
  | command hFirst hOthers ihFirst ihOthers =>
    have hChildren := hCalm.children
    have hParts := takesParts_cons (kind_of_part hFirst) (ihFirst hChildren.first) hOthers.tokens
      (atEnd_of_yields hFirst rfl) (ihOthers hChildren.others)
    exact hParts.front hCalm.command.1 hCalm.command.2
  | operand _ ih => exact ih hCalm
  | pipelineSingle _ ih => exact ih hCalm
  | pipelineJoin _ hOperator hRight ihLeft ihRight =>
    exact brings_join (by rw [hOperator]; rfl) (ihLeft hCalm.join.1) hRight.tokens
      (ihRight hCalm.join.2)
  | itemSingle _ ih => exact ih hCalm
  | itemJoin _ hOperator hRight ihLeft ihRight =>
    refine brings_join ?_ (ihLeft hCalm.join.1) hRight.tokens (ihRight hCalm.join.2)
    rcases hOperator with hKind | hKind <;> rw [hKind] <;> rfl
  | @finish t more hKind =>
    have hPlain : Plain t more := plain_of_kind (by rw [hKind]; rfl) (by simp [hKind])
    refine brings_plain hPlain rfl fun depth b _ _ => ⟨fun hGroup => ?_, trivial⟩
    have hWord := hKind.symm.trans (Painter.group_eq_command hGroup).1
    cases hWord
  | close => exact .nil fun _ _ => trivial
  | itemsCons hFirst hOthers ihFirst ihOthers =>
    exact (ihFirst hCalm.first).append hOthers.tokens ((ihOthers hCalm.others).pre
      fun _ _ => .inr (atEnd_of_yields hFirst rfl))
  | sequence _ ih => exact ih hCalm.children

-- ---------------------------------------------------------------------------
-- Lines
-- ---------------------------------------------------------------------------

theorem mem_written {m : Mark} (hm : m ∈ ms) (hRole : m.role.isWritten = true) :
    m.token ∈ written ms :=
  List.mem_map_of_mem (List.mem_filter.2 ⟨hm, hRole⟩)

theorem calm_of_plain {tree : Tree} (hPlain : tree.commandsPlain = true) (hUnhidden : Unhidden ms)
    (hBackticks : ∀ t ∈ written ms, t.kind ≠ .backtick)
    (hLines : ∀ m ∈ ms, m.role = .layout → m.token.kind ≠ .backslash) :
    Calm tree.commandNames [tree] ms := by
  have hWalk : Tree.walkAll [tree] = tree.walk := by simp [Tree.walkAll]
  refine ⟨fun c hc hKind => ⟨?_, fun t ht => ?_⟩, hUnhidden,
    fun m hm => ⟨fun hRole => ?_, hLines m hm⟩⟩
  · have hCommand := List.all_eq_true.1 hPlain c (hWalk ▸ hc)
    simpa [hKind] using hCommand
  · exact List.mem_filterMap.2 ⟨c, hWalk ▸ hc, ht⟩
  · exact hBackticks _ (mem_written hm (by rw [hRole]; rfl))

/-- The tokens that are shown are all but the end. -/
theorem map_token_shown (ms : List Mark) :
    (shown ms).map (·.token) = (written ms).filter fun t => t.kind ≠ .endOfInput := by
  rw [shown, written, List.filter_map]
  rfl

/-- **Commands.** In a line without backticks and line continuations, where no quote hides and all
commands are plain, only the names of commands are painted as commands. -/
theorem line_commands {text : Text} {limit : Int} {tree : Tree}
    (h : parse text limit = .ok tree) (hBackticks : ∀ t ∈ tokenize text, t.kind ≠ .backtick)
    (hPlain : tree.commandsPlain = true) :
    (∃ marks, Yields (.sequence false) (tokenize text) [tree] marks []) ∧
      ∀ marks, Yields (.sequence false) (tokenize text) [tree] marks [] → Unhidden marks →
        (∀ m ∈ marks, m.role = .layout → m.token.kind ≠ .backslash) →
        LineShows text marks fun m style =>
          style = Group.command.style → m.token ∈ tree.commandNames := by
  refine ⟨Marking.yields_of_parseTokens h, fun marks hYields hUnhidden hLines => ?_⟩
  have hWritten := written_of_yields hYields
  have hCalm := calm_of_plain hPlain hUnhidden (hWritten ▸ hBackticks) hLines
  obtain ⟨b, hPaints, -⟩ := takes_of_yields hYields hCalm 0 {} ⟨ready_start, .inl rfl⟩
  refine lineShows_of_paints h hYields hPaints fun m g hNamed hStyle => hNamed ?_
  exact Group.style_injective hStyle

/-- A substitution at the end of a value, one at the end of a command, and a separator in a
string. -/
theorem line_commands_substitutions :
    ∃ tree marks, parse "x=$(a) b \"c;d\" | e $(f)".toList 19 = .ok tree ∧
      (∀ t ∈ tokenize "x=$(a) b \"c;d\" | e $(f)".toList, t.kind ≠ .backtick) ∧
      tree.commandsPlain = true ∧
      Yields (.sequence false) (tokenize "x=$(a) b \"c;d\" | e $(f)".toList) [tree] marks [] ∧
      Unhidden marks ∧ (∀ m ∈ marks, m.role = .layout → m.token.kind ≠ .backslash) ∧
      LineShows "x=$(a) b \"c;d\" | e $(f)".toList marks fun m style =>
        style = Group.command.style → m.token ∈ tree.commandNames := by
  have hParse : (parse "x=$(a) b \"c;d\" | e $(f)".toList 19).map Tree.commandsPlain =
      .ok true := by cbv
  obtain ⟨tree, hTree, hPlain⟩ := Marking.exists_tree_of_map hParse
  have hBackticks : ∀ t ∈ tokenize "x=$(a) b \"c;d\" | e $(f)".toList, t.kind ≠ .backtick := by
    decide
  obtain ⟨⟨marks, hYields⟩, hShows⟩ := line_commands hTree hBackticks hPlain
  have hWritten := written_of_yields hYields
  have hNone : ∀ t ∈ written marks, t.kind ≠ .backslash := hWritten ▸ by decide
  have hUnhidden := (tidy_of_yields hYields (hWritten ▸ by decide)).1
  have hLines : ∀ m ∈ marks, m.role = .layout → m.token.kind ≠ .backslash := fun m hm hRole =>
    hNone _ (mem_written hm (by rw [hRole]; rfl))
  exact ⟨tree, marks, hTree, hBackticks, hPlain, hYields, hUnhidden, hLines,
    hShows marks hYields hUnhidden hLines⟩

/-- An argument behind a substitution: the painter takes it for the name of a command. -/
theorem line_commands_behind_substitution :
    ∃ tree marks, parse "echo $(a) b".toList 19 = .ok tree ∧
      (∀ t ∈ tokenize "echo $(a) b".toList, t.kind ≠ .backtick) ∧
      Yields (.sequence false) (tokenize "echo $(a) b".toList) [tree] marks [] ∧
      ¬ LineShows "echo $(a) b".toList marks fun m style =>
        style = Group.command.style → m.token ∈ tree.commandNames := by
  have hParse : (parse "echo $(a) b".toList 19).map Tree.commandNames =
      .ok [⟨.word, "echo".toList, 0⟩, ⟨.word, ['a'], 7⟩] := by cbv
  obtain ⟨tree, hTree, hNames⟩ := Marking.exists_tree_of_map hParse
  obtain ⟨marks, hYields⟩ := Marking.yields_of_parseTokens hTree
  refine ⟨tree, marks, hTree, by decide, hYields, ?_⟩
  rintro ⟨fragments, hShows, hLine⟩
  have hFragments : line "echo $(a) b".toList = fragments := hLine.trans (List.append_nil fragments)
  subst hFragments
  have hTokens : List.Forall₂ (fun t f => f.style = Group.command.style → t ∈ tree.commandNames)
      ((shown marks).map (·.token)) (line "echo $(a) b".toList) :=
    List.forall₂_map_left_iff.2 (hShows.imp fun _ _ h => h.2)
  rw [map_token_shown, written_of_yields hYields, hNames] at hTokens
  have hLast := (List.forall₂_iff_get.1 hTokens).2 7 (by decide) (by decide) (by decide)
  exact absurd hLast (by decide)

end Highlight

end ShellReader
