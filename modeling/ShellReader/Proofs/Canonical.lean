import ShellReader.Proofs.Quoting
import ShellReader.Proofs.RoundTrip

/-!
# ShellReader — what the canonical layout looks like

What is written for a tree can be told from its tokens. Outside of strings there is no
newline; there is one blank between the words of a command and on either side of an
operator, and none elsewhere, except behind a semicolon; and semicolons stand right behind
an item. `Canonical` asks this of every token outside of strings, by what stands right
before and right behind it.

For the proof the same is asked from left to right (`Neat`), where each token answers for
the one behind it: what a phrase is followed by is not known before the phrase is read.

## Results

* `canonical_of_neat` — asking from left to right is enough.
* `Reads.laid` — what is written for a phrase is neat before whatever may follow.
* `canonical_written` — what is written for a tree is canonical.
-/

namespace ShellReader

open Token (Kind)
open Grammar (frontKind)
open Descent (startsSubstitution)

-- ---------------------------------------------------------------------------
-- The layout
-- ---------------------------------------------------------------------------

/-- The last two tokens open a substitution. -/
def Opens (before : List Kind) : Prop := [.dollar, .leftParenthesis] <:+ before

/-- What the layout asks of a token outside of strings, between those before it and those
behind it. -/
structure WellPlaced (before : List Kind) (k : Kind) (after : List Kind) : Prop where
  newline : k ≠ .newline
  space : k = .space → after.head? ≠ some .space ∧ after.head? ≠ some .rightParenthesis ∧
    ¬ Opens before
  operator : k.isOperator = true → before.getLast? = some .space ∧ after.head? = some .space
  semicolon : k = .semicolon → before ≠ [] ∧ before.getLast? ≠ some .space ∧ ¬ Opens before ∧
    after.head? = some .space

/-- Every token outside of strings is well placed. -/
def Canonical (ks : List Kind) : Prop :=
  ∀ before k after, ks = before ++ k :: after → Quoting.outside.after before = .outside →
    WellPlaced before k after

-- ---------------------------------------------------------------------------
-- From left to right
-- ---------------------------------------------------------------------------

/-- What the layout asks of a token, given the kind of the one before it. Blanks and `$(`
answer for what is behind them. -/
structure Placed (prev : Option Kind) (t : Token) (more : List Token) : Prop where
  newline : t.kind ≠ .newline
  space : t.kind = .space → frontKind more ≠ some .space ∧ frontKind more ≠ some .semicolon ∧
    frontKind more ≠ some .rightParenthesis
  semicolon : t.kind = .semicolon → prev ≠ none ∧ frontKind more = some .space
  operator : t.kind.isOperator = true → prev = some .space ∧ frontKind more = some .space
  opening : startsSubstitution t more = true → frontKind (more.drop 1) ≠ some .space ∧
    frontKind (more.drop 1) ≠ some .semicolon

/-- The tokens are placed as asked, the first of them standing as `q` says. -/
def Neat : Quoting → Option Kind → List Token → Prop
  | _, _, [] => True
  | q, prev, t :: more =>
    (q = .outside → Placed prev t more) ∧ Neat (q.step t.kind) (some t.kind) more

section Neat

variable {q : Quoting} {prev : Option Kind} {t : Token} {ts us more : List Token}

theorem Neat.cons (hQuote : t.kind.isQuote = false) (h : Placed prev t more)
    (hMore : Neat .outside (some t.kind) more) : Neat .outside prev (t :: more) := by
  refine ⟨fun _ => h, ?_⟩
  rwa [Quoting.step_outside hQuote]

/-- Nothing is asked inside of strings. -/
theorem Quoting.Shielded.neat (h : q.Shielded ts) (hus : ∀ k, Neat .outside (some k) us)
    (k : Kind) : Neat q (some k) (ts ++ us) := by
  induction ts generalizing q k with
  | nil =>
    obtain rfl : q = .outside := h
    exact hus k
  | cons t ts ih => exact ⟨fun hq => absurd hq h.1, ih h.2 t.kind⟩

/-- A token that goes on with a word may stand anywhere, `$(` apart. -/
theorem placed_of_endsArgument (h : t.kind.endsArgument = false)
    (hOpening : startsSubstitution t more = true → frontKind (more.drop 1) ≠ some .space ∧
      frontKind (more.drop 1) ≠ some .semicolon) : Placed prev t more := by
  simp only [Kind.endsArgument, Kind.endsCommand, Bool.or_eq_false_iff, beq_eq_false_iff_ne] at h
  obtain ⟨hSpace, ⟨-, hSeparator⟩, hOperator⟩ := h
  obtain ⟨hNewline, hSemicolon⟩ := Descent.isSeparator_eq_false.1 hSeparator
  exact ⟨hNewline, fun hKind => absurd hKind hSpace, fun hKind => absurd hKind hSemicolon,
    fun hKind => by simp [hOperator] at hKind, hOpening⟩

/-- What is asked of a token in a neat list. -/
theorem Neat.placed {before after : List Token} (h : Neat q prev (before ++ t :: after))
    (hOutside : q.after (before.map (·.kind)) = .outside) :
    Placed ((before.map (·.kind)).getLast?.or prev) t after := by
  induction before generalizing q prev with
  | nil => exact h.1 hOutside
  | cons b before ih =>
    have hLast : ((b :: before).map (·.kind)).getLast?.or prev =
        (before.map (·.kind)).getLast?.or (some b.kind) := by
      rw [List.map_cons, List.getLast?_cons]
      cases (before.map (·.kind)).getLast? <;> rfl
    rw [hLast]
    exact ih h.2 hOutside

/-- Behind a `$(` in a neat list there is neither a blank nor a semicolon. -/
theorem Neat.not_opens {before : List Token} (h : Neat .outside none (before ++ t :: more))
    (hOutside : Quoting.outside.after (before.map (·.kind)) = .outside)
    (hKind : t.kind = .space ∨ t.kind = .semicolon) : ¬ Opens (before.map (·.kind)) := by
  rintro ⟨front, hFront⟩
  obtain ⟨vs, ws, rfl, rfl, hOpening⟩ := List.map_eq_append_iff.1 hFront.symm
  obtain ⟨dollar, ws, rfl, hDollar, hOpening⟩ := List.map_eq_cons_iff.1 hOpening
  obtain ⟨paren, ws, rfl, hParen, hNil⟩ := List.map_eq_cons_iff.1 hOpening
  obtain rfl := List.map_eq_nil_iff.1 hNil
  -- The `$` is outside of strings, since neither token closes one.
  have hFrontOutside : Quoting.outside.after (vs.map (·.kind)) = .outside := by
    rw [List.map_append, Quoting.after_append] at hOutside
    simp only [List.map_cons, List.map_nil, hDollar, hParen, Quoting.after_cons,
      Quoting.after_nil] at hOutside
    exact Quoting.eq_outside_of_step (Quoting.eq_outside_of_step hOutside rfl) rfl
  rw [List.append_assoc] at h
  have hPlaced := h.placed hFrontOutside
  have hNext := hPlaced.opening (by simp [startsSubstitution, hDollar, hParen])
  rcases hKind with hKind | hKind <;> simp [frontKind, hKind] at hNext

/-- Asking from left to right is enough. -/
theorem canonical_of_neat (h : Neat .outside none ts) : Canonical (ts.map (·.kind)) := by
  intro before k after hSplit hOutside
  obtain ⟨vs, ws, rfl, rfl, hRest⟩ := List.map_eq_append_iff.1 hSplit
  obtain ⟨t, ws, rfl, rfl, rfl⟩ := List.map_eq_cons_iff.1 hRest
  have hPlaced := h.placed hOutside
  rw [Option.or_none] at hPlaced
  have hHead : (ws.map (·.kind)).head? = frontKind ws := List.head?_map
  refine ⟨hPlaced.newline, fun hKind => ?_, fun hKind => ?_, fun hKind => ?_⟩
  · obtain ⟨hSpace, -, hParen⟩ := hPlaced.space hKind
    rw [hHead]
    exact ⟨hSpace, hParen, h.not_opens hOutside (.inl hKind)⟩
  · rw [hHead]
    exact hPlaced.operator hKind
  · obtain ⟨hPrev, hNext⟩ := hPlaced.semicolon hKind
    rw [hHead]
    refine ⟨?_, ?_, h.not_opens hOutside (.inr hKind), hNext⟩
    · intro hNil
      rw [hNil] at hPrev
      exact hPrev rfl
    · -- A blank right before the semicolon would not be placed as asked.
      intro hLast
      obtain ⟨front, hFront⟩ := List.getLast?_eq_some_iff.1 hLast
      obtain ⟨us, blanks, rfl, rfl, hBlanks⟩ := List.map_eq_append_iff.1 hFront
      obtain ⟨u, blanks, rfl, hBlank, hNil⟩ := List.map_eq_cons_iff.1 hBlanks
      obtain rfl := List.map_eq_nil_iff.1 hNil
      have hFrontOutside : Quoting.outside.after (us.map (·.kind)) = .outside := by
        rw [List.map_append, Quoting.after_append] at hOutside
        simp only [List.map_cons, List.map_nil, hBlank, Quoting.after_cons,
          Quoting.after_nil] at hOutside
        exact Quoting.eq_outside_of_step hOutside rfl
      rw [List.append_assoc] at h
      have hNext := (h.placed hFrontOutside).space hBlank
      simp [frontKind, hKind] at hNext

end Neat

-- ---------------------------------------------------------------------------
-- Phrases
-- ---------------------------------------------------------------------------

namespace Grammar

open Production (startsAssignment atWordEnd)

variable {limit : Int} {rule : Rule} {depth : Nat} {t : Token} {ts us vs rest rest' : List Token}
  {ps : List Phrase}

/-- There is a first token, and it begins a word. -/
def Opening (ts : List Token) : Prop :=
  ∃ t more, ts = t :: more ∧ t.kind.endsArgument = false

theorem Opening.append (h : Opening ts) (us : List Token) : Opening (ts ++ us) := by
  obtain ⟨t, more, rfl, hOpen⟩ := h
  exact ⟨t, more ++ us, rfl, hOpen⟩

theorem opening_of_kind {k : Kind} (h : t.kind = k) (hOpen : k.endsArgument = false)
    (more : List Token) : Opening (t :: more) :=
  ⟨t, more, rfl, h ▸ hOpen⟩

theorem closed_opening : Closed (fun _ => True) fun p => Opening p.tokens where
  literal role t more _ hOpen _ := by
    refine ⟨t, [], rfl, ?_⟩
    simp only [atWordEnd, Bool.or_eq_false_iff] at hOpen
    exact hOpen.1
  string t closer more parts rest _ _ _ hQuote _ := by
    rcases Quoting.eq_of_isQuote hQuote with hKind | hKind <;>
      exact opening_of_kind hKind rfl _
  substitution dollar paren close root _ _ _ hDollar _ _ _ := opening_of_kind hDollar rfl _
  word role first others hFirst _ := hFirst.append _
  assignmentEmpty name equals _ _ hName _ := opening_of_kind hName rfl _
  assignment name equals value _ _ hName _ _ := opening_of_kind hName rfl _
  command first others hFirst _ := hFirst.append _
  join item tokens t next _ _ _ hItem _ := hItem.append _
  sequence first others hFirst _ := hFirst.append _

/-- The first token of a phrase begins a word. -/
theorem Reads.opening (h : Reads limit rule depth ts ps rest)
    (hItem : rule.Item fun p => Opening p.tokens) : ∀ p ∈ ps, Opening p.tokens :=
  h.closed closed_opening (fun _ _ _ => trivial) hItem

theorem Opening.frontKind_ne (h : Opening ts) : frontKind ts ≠ some .space ∧
    frontKind ts ≠ some .semicolon ∧ frontKind ts ≠ some .rightParenthesis := by
  obtain ⟨t, more, rfl, hOpen⟩ := h
  refine ⟨?_, ?_, ?_⟩ <;>
  · intro hKind
    rw [frontKind, List.head?_cons, Option.map_some, Option.some.injEq] at hKind
    rw [hKind] at hOpen
    cases hOpen

-- ---------------------------------------------------------------------------
-- What is written is neat
-- ---------------------------------------------------------------------------

/-- What may stand behind a word: the word ends there, and the rest is neat whatever the
word ends with. -/
def Ready (rest : List Token) : Prop := EndsWord rest ∧ ∀ k, Neat .outside (some k) rest

/-- What is neat wherever a word may end behind it. -/
def Neatly (us : List Token) : Prop :=
  ∀ prev rest, Ready rest → Neat .outside prev (us ++ rest)

/-- What a word may be followed by, when it may be followed by the rest. -/
def Trails (us : List Token) : Prop := ∀ rest, Ready rest → Ready (us ++ rest)

theorem ready_cons {k : Kind} (hKind : t.kind = k)
    (h : k = .rightParenthesis ∨ k = .endOfInput) (hRest : ∀ k, Neat .outside (some k) rest) :
    Ready (t :: rest) := by
  have hEnds : EndsWord (t :: rest) := by
    refine ⟨t, rest, rfl, ?_⟩
    rw [hKind]
    rcases h with rfl | rfl <;> decide
  have hPlaced : ∀ prev, Placed prev t rest := by
    intro prev
    rcases h with rfl | rfl <;> constructor <;>
      simp [hKind, Kind.isOperator, startsSubstitution]
  have hQuote : t.kind.isQuote = false := by
    rw [hKind]
    rcases h with rfl | rfl <;> rfl
  exact ⟨hEnds, fun k => .cons hQuote (hPlaced _) (hRest _)⟩

/-- A blank, and then a token that is neither a blank nor a separator. -/
theorem ready_blank (hFront : frontKind us ≠ some .space ∧ frontKind us ≠ some .semicolon ∧
    frontKind us ≠ some .rightParenthesis) (h : Neat .outside (some .space) us) :
    Ready (blank :: us) := by
  have hPlaced : ∀ prev, Placed prev blank us := fun prev =>
    ⟨by decide, fun _ => hFront, fun hKind => absurd hKind (by decide),
      fun hKind => absurd hKind (by decide), by simp [startsSubstitution, blank]⟩
  exact ⟨endsWord_blank us, fun k => .cons rfl (hPlaced _) h⟩

theorem ready_semicolon (h : Ready (blank :: us)) : Ready (semicolon :: blank :: us) := by
  have hPlaced : ∀ k, Placed (some k) semicolon (blank :: us) := fun k =>
    ⟨by decide, fun hKind => absurd hKind (by decide), fun _ => ⟨by simp, rfl⟩,
      fun hKind => absurd hKind (by decide), by simp [startsSubstitution, semicolon]⟩
  exact ⟨⟨semicolon, _, rfl, rfl, by decide⟩, fun k => .cons rfl (hPlaced k) (h.2 _)⟩

theorem ready_operator (hOperator : t.kind.isOperator = true) (h : Ready (blank :: us)) :
    Ready (blank :: t :: blank :: us) := by
  have hFront : t.kind ≠ .space ∧ t.kind ≠ .semicolon ∧ t.kind ≠ .rightParenthesis ∧
      t.kind ≠ .newline ∧ t.kind ≠ .dollar := by
    rcases Descent.eq_of_isOperator hOperator with hKind | hKind | hKind <;> simp [hKind]
  obtain ⟨hSpace, hSemicolon, hParen, hNewline, hDollar⟩ := hFront
  refine ready_blank (by simp [frontKind, hSpace, hSemicolon, hParen]) ?_
  refine .cons (not_isQuote_of_isOperator hOperator) ?_ (h.2 _)
  exact ⟨hNewline, fun hKind => absurd hKind hSpace, fun hKind => absurd hKind hSemicolon,
    fun _ => ⟨rfl, rfl⟩, fun hKind => by simp [startsSubstitution, hDollar] at hKind⟩

theorem Neatly.trails_blank (h : Neatly us) (hOpen : Opening us) : Trails (blank :: us) := by
  intro rest hRest
  exact ready_blank (hOpen.append rest).frontKind_ne (h _ rest hRest)

theorem Neatly.trails_semicolon (h : Neatly us) (hOpen : Opening us) :
    Trails (semicolon :: blank :: us) :=
  fun rest hRest => ready_semicolon (h.trails_blank hOpen rest hRest)

theorem Neatly.trails_operator (h : Neatly us) (hOpen : Opening us)
    (hOperator : t.kind.isOperator = true) : Trails (blank :: t :: blank :: us) :=
  fun rest hRest => ready_operator hOperator (h.trails_blank hOpen rest hRest)

theorem Neatly.append (h : Neatly us) (hvs : Trails vs) : Neatly (us ++ vs) := by
  intro prev rest hRest
  rw [List.append_assoc]
  exact h prev _ (hvs rest hRest)

theorem Trails.flatMap {f : Phrase → List Token} (h : ∀ p ∈ ps, Trails (f p)) :
    Trails (ps.flatMap f) := by
  induction ps with
  | nil => exact fun rest hRest => hRest
  | cons p ps ih =>
    intro rest hRest
    rw [List.flatMap_cons, List.append_assoc]
    exact h p (by simp) _ (ih (fun q hq => h q (List.mem_cons_of_mem _ hq)) rest hRest)

/-- What is written for phrases is neat before whatever may follow. -/
def Laid : Rule → List Phrase → List Token → Prop
  | .piece _, ps, rest => ∀ prev rest', frontKind rest' = frontKind rest ∨ EndsWord rest' →
    (∀ k, Neat .outside (some k) rest') → Neat .outside prev (written ps ++ rest')
  | .pieces _, ps, _ => ∀ rest', Ready rest' → ∀ k, Neat .outside (some k) (written ps ++ rest')
  | .chain _ tokens, ps, _ => Neatly tokens → ∀ p ∈ ps, Neatly p.tokens
  | _, ps, _ => ∀ p ∈ ps, Neatly p.tokens

/-- A substitution is neat if what is inside is. -/
theorem neat_substitution (prev : Option Kind) {dollar paren close : Token} {root : List Token}
    (hDollar : dollar.kind = .dollar) (hParen : paren.kind = .leftParenthesis)
    (hClose : close.kind = .rightParenthesis) (hOpen : Opening root) (hRoot : Neatly root)
    (hRest : ∀ k, Neat .outside (some k) rest) :
    Neat .outside prev (dollar :: paren :: (root ++ close :: rest)) := by
  obtain ⟨hSpace, hSemicolon, -⟩ := (hOpen.append (close :: rest)).frontKind_ne
  refine .cons (by rw [hDollar]; rfl) (placed_of_endsArgument (by rw [hDollar]; rfl)
    fun _ => ⟨hSpace, hSemicolon⟩) ?_
  refine .cons (by rw [hParen]; rfl) (placed_of_endsArgument (by rw [hParen]; rfl)
    fun hKind => by simp [startsSubstitution, hParen] at hKind) ?_
  exact hRoot _ _ (ready_cons hClose (.inl rfl) hRest)

/-- A name and the `=` behind it. -/
theorem neat_assignment {name equals : Token} {prev : Option Kind}
    (h : startsAssignment name (equals :: ts) = true)
    (hRest : Neat .outside (some equals.kind) rest) :
    Neat .outside prev (name :: equals :: rest) := by
  obtain ⟨hName, -, _, _, hMore, hEquals⟩ := Descent.startsAssignment_iff.1 h
  obtain ⟨rfl, -⟩ := List.cons.inj hMore
  refine .cons (by rw [hName]; rfl) (placed_of_endsArgument (by rw [hName]; rfl)
    fun hKind => by simp [startsSubstitution, hName] at hKind) ?_
  exact .cons (by rw [hEquals]; rfl) (placed_of_endsArgument (by rw [hEquals]; rfl)
    fun hKind => by simp [startsSubstitution, hEquals] at hKind) hRest

theorem Reads.laid (h : Reads limit rule depth ts ps rest) : Laid rule ps rest := by
  induction h with
  | @literal _ _ t more hOpen hQuote hSubstitution =>
    intro prev rest' hFront hRest
    obtain ⟨hOpen, hSubstitution⟩ := literal_again hFront hOpen hSubstitution
    simp only [atWordEnd, Bool.or_eq_false_iff] at hOpen
    exact .cons hQuote (placed_of_endsArgument hOpen.1 (by simp [hSubstitution])) (hRest _)
  | @string _ _ t closer _ parts _ hQuote _ hQuoted =>
    intro prev rest' _ hRest
    have hInside := (hQuoted.shielded hQuote).neat hRest t.kind
    have hPlaced : Placed prev t (parts ++ [closer] ++ rest') := by
      rcases Quoting.eq_of_isQuote hQuote with hKind | hKind <;>
        exact placed_of_endsArgument (by rw [hKind]; rfl) (by simp [startsSubstitution, hKind])
    rw [written_cons, written_nil, List.append_nil]
    exact ⟨fun _ => hPlaced, hInside⟩
  | @substitution _ _ _ _ close _ _ root hDollar hParen _ hInside hClose ih =>
    intro prev rest' _ hRest
    have hNeat := neat_substitution prev hDollar hParen hClose
      (hInside.opening trivial root (by simp)) (ih root (by simp)) hRest
    simpa using hNeat
  | piecesNil => exact fun rest' hRest k => hRest.2 k
  | piecesCons _ hOthers ihFirst ihOthers =>
    intro rest' hRest k
    have hNeat := ihFirst (some k) _ (pieces_front hOthers hRest.1) (ihOthers rest' hRest)
    simpa using hNeat
  | @word _ _ _ _ _ first others _ _ hOthers ihFirst ihOthers =>
    intro p hp prev rest' hRest
    rw [List.mem_singleton.1 hp]
    have hNeat := ihFirst prev _ (pieces_front hOthers hRest.1) (ihOthers rest' hRest)
    simpa [written] using hNeat
  | assignmentEmpty hStart =>
    intro p hp prev rest' hRest
    rw [List.mem_singleton.1 hp]
    exact neat_assignment hStart (hRest.2 _)
  | @assignment _ _ _ _ _ value hStart _ _ ih =>
    intro p hp prev rest' hRest
    rw [List.mem_singleton.1 hp]
    exact neat_assignment hStart (ih value (by simp) _ rest' hRest)
  | argument _ _ ih => exact ih
  | skip hGap _ ih =>
    rcases hGap.rule_eq with rfl | rfl | ⟨_, rfl⟩ <;> exact ih
  | partsNil => simp [Laid]
  | partsCons _ _ ihFirst ihOthers =>
    simp only [Laid] at ihFirst ihOthers ⊢
    simpa using ⟨ihFirst _ (by simp), ihOthers⟩
  | @command _ _ _ _ first others _ _ hOthers ihFirst ihOthers =>
    have hWhole := (ihFirst first (by simp)).append (.flatMap fun p hp =>
      (ihOthers p hp).trails_blank (hOthers.opening trivial p hp))
    simpa [Laid] using hWhole
  | operand _ ih => exact ih
  | chainStop =>
    intro hItem p hp
    rw [List.mem_singleton.1 hp]
    exact hItem
  | @chainLink _ _ _ _ _ _ _ next _ hOperator _ hNext _ ihNext ihRest =>
    intro hItem
    exact ihRest (hItem.append ((ihNext next (by simp)).trails_operator
      (hNext.opening trivial next (by simp)) hOperator))
  | finish => simp [Laid]
  | close => simp [Laid]
  | @item _ _ _ _ _ _ first _ _ _ _ _ ihFirst ihChain ihOthers =>
    have hWhole := ihChain (ihFirst first (by simp))
    simp only [Laid] at hWhole ihOthers ⊢
    simpa using ⟨hWhole _ (by simp), ihOthers⟩
  | @sequence _ _ _ _ first others _ hItems ih =>
    have hOpening := hItems.opening trivial
    have hWhole := (ih first (by simp)).append (.flatMap fun p (hp : p ∈ others) =>
      (ih p (by simp [hp])).trails_semicolon (hOpening p (by simp [hp])))
    simpa [Laid] using hWhole

/-- What is written for a tree is canonical. -/
theorem canonical_written {nested : Bool} {p : Phrase}
    (h : Reads limit (.sequence nested) depth ts [p] rest) :
    Canonical ((p.tokens ++ [ending]).map (·.kind)) := by
  have hEnd : Ready [ending] := ready_cons rfl (.inr rfl) fun _ => trivial
  exact canonical_of_neat (h.laid p (by simp) none [ending] hEnd)

end Grammar

end ShellReader
