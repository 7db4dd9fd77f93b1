import Mathlib.Data.List.Forall2
import ShellReader.Proofs.Phase

/-!
# ShellReader — the phases of strings, words and commands
-/

namespace ShellReader.Machine

open Descent (Context Reading Item quoted closing piece pieces part parts operand chain items
  stringTree wordTree startsSubstitution)
open Production (atWordEnd startsEscape stopsLiteral startsAssignment)

variable {m m' : Machine} {c : Context} {ts more : List Token} {t : Token} {id : Nat}
  {below : List Nat}

-- ---------------------------------------------------------------------------
-- Quotations
-- ---------------------------------------------------------------------------

/-- A quotation stands for the string of what it has collected. -/
theorem holds_quotation {opener : Token} {parts : List Token}
    (hMade : id < m.productions.length)
    (hp : m.production id = .quotation (some opener) parts) :
    Holds m id (stringTree opener parts) := by
  apply Holds.intro hMade
  intro label trees _
  rw [hp, Production.build, Production.buildQuotation]
  cases parts with
  | nil => rfl
  | cons first others => rfl

/-- A quotation reads to the quote that closes it. -/
theorem quotation_completes {opener : Token} {parts : List Token}
    (h : At m c ts id (.quotation (some opener) parts) below) :
    Completes m id below (quoted c opener ts)
      fun read m' => m'.production id = .quotation (some opener) (parts ++ read) := by
  fun_induction quoted c opener ts generalizing m parts with
  | case1 => exact completes_error (h.starves rfl)
  | case2 t more hEnd =>
    have hr : Production.respondQuotation t more opener parts =
        .faultAt t (.openString opener.text) := by
      rw [Production.respondQuotation, if_pos hEnd]
    exact completes_error (h.fails hr)
  | case3 t more hEnd hClose =>
    have hr : Production.respondQuotation t more opener parts =
        .leave 1 (.quotation (some opener) parts) := by
      rw [Production.respondQuotation, if_neg hEnd, if_pos hClose]
    obtain ⟨last, hReaches, hRest, hStack, hp⟩ := h.leaves hr
    exact completes_ok ⟨last, hReaches, hRest, hStack, by simpa using hp⟩
  | case4 t more hEnd hClose hEscape ih =>
    have hr : Production.respondQuotation t more opener parts =
        .read 2 (.quotation (some opener) (parts ++ (t :: more).take 2)) := by
      rw [Production.respondQuotation, if_neg hEnd, if_neg hClose, if_pos hEscape]
    obtain ⟨next, hReaches, hNext⟩ := h.stays hr
    apply Completes.after hReaches
    apply Completes.map (ih hNext)
    · intro x
      rfl
    · intro x last _ hp
      simpa using hp
  | case5 t more hEnd hClose hEscape ih =>
    have hr : Production.respondQuotation t more opener parts =
        .read 1 (.quotation (some opener) (parts ++ [t])) := by
      rw [Production.respondQuotation, if_neg hEnd, if_neg hClose, if_neg hEscape]
    obtain ⟨next, hReaches, hNext⟩ := h.stays hr
    apply Completes.after hReaches
    apply Completes.map (ih hNext)
    · intro x
      rfl
    · intro x last _ hp
      simpa using hp

-- ---------------------------------------------------------------------------
-- Words
-- ---------------------------------------------------------------------------

/-- Computing a list one by one succeeds where each of its elements does. -/
theorem mapM_eq_ok {α β ε : Type} {f : α → Except ε β} {as : List α} {bs : List β}
    (h : List.Forall₂ (fun a b => f a = .ok b) as bs) : as.mapM f = .ok bs := by
  induction h with
  | nil => rfl
  | cons hHead _ ih =>
    rw [List.mapM_cons, hHead, ih]
    rfl

/-- The tree that a part of a word stands for. -/
inductive PieceHolds (m : Machine) (id : Nat) (role : WordRole) : Part → Tree → Prop where
  | token (t : Token) : PieceHolds m id role (.token t) (.leaf role.partKind t none)
  | child {j : Nat} {tree : Tree} (hj : id < j) (hHolds : Holds m j tree)
      (hNode : tree.isTerminal = false) : PieceHolds m id role (.child j) tree

theorem PieceHolds.reach {role : WordRole} {part : Part} {tree : Tree}
    (h : PieceHolds m id role part tree) (hReaches : Reaches id m m') :
    PieceHolds m' id role part tree := by
  cases h with
  | token t => exact .token t
  | child hj hHolds hNode => exact .child hj (hHolds.reach hReaches hj) hNode

/-- The trees that the parts of a word stand for, one by one. -/
abbrev PiecesHold (m : Machine) (id : Nat) (role : WordRole) :=
  List.Forall₂ (PieceHolds m id role)

theorem PiecesHold.reach {role : WordRole} {parts : List Part} {trees : List Tree}
    (h : PiecesHold m id role parts trees) (hReaches : Reaches id m m') :
    PiecesHold m' id role parts trees :=
  h.imp fun _ _ hPiece => hPiece.reach hReaches

theorem PiecesHold.concat {role : WordRole} {parts : List Part} {trees : List Tree}
    {part : Part} {tree : Tree} (h : PiecesHold m id role parts trees)
    (hPart : PieceHolds m id role part tree) :
    PiecesHold m id role (parts ++ [part]) (trees ++ [tree]) :=
  List.rel_append h (.cons hPart .nil)

theorem PiecesHold.tokens {role : WordRole} (ts : List Token) :
    PiecesHold m id role (ts.map .token) (ts.map fun t => .leaf role.partKind t none) := by
  induction ts with
  | nil => exact .nil
  | cons t rest ih => exact .cons (.token t) ih

/-- The tree of one part of a word, given the trees of the productions it refers to. -/
def pieceTree (role : WordRole) (trees : Nat → Except Failure Tree) : Part → Except Failure Tree
  | .token t => pure (.leaf role.partKind t none)
  | .child j => trees j

/-- A word stands for the trees of its parts put together. -/
theorem holds_word {role : WordRole} {parts : List Part} {first : Tree}
    {others : List Tree} (hMade : id < m.productions.length)
    (hp : m.production id = .word role parts)
    (h : PiecesHold m id role parts (first :: others)) :
    Holds m id (wordTree role first others) := by
  apply Holds.intro hMade
  intro label trees hTrees
  rw [hp, Production.build]
  have hMap : parts.mapM (pieceTree role trees) = .ok (first :: others) := by
    apply mapM_eq_ok
    apply h.imp
    intro part tree hPart
    cases hPart with
    | token t => rfl
    | child hj hHolds _ => exact hTrees _ _ hj hHolds
  cases h with
  | cons hPart hRest =>
    cases hPart with
    | token t =>
      cases hRest with
      | nil => rfl
      | cons _ _ =>
        rw [Production.buildWord]
        · exact congrArg (· >>= fun children =>
            Production.buildNode role.kind children none) hMap
        · simp
    | child hj hHolds hNode =>
      rw [Production.buildWord]
      · rw [wordTree]
        · exact congrArg (· >>= fun children =>
            Production.buildNode role.kind children none) hMap
        · rintro _ _ _ rfl
          simp [Tree.isTerminal, Tree.token?] at hNode
      · simp

/-- A run of literal tokens is read as one piece after the other. -/
theorem pieces_run (role : WordRole) (depth : Nat) {run rest : List Token}
    (hRun : Cursor.takeUntil stopsLiteral (run ++ rest) = run) :
    pieces c role depth (run ++ rest) = (pieces c role depth rest >>= fun r =>
      pure ⟨run.map (fun t => .leaf role.partKind t none) ++ r.value, r.rest,
        Nat.le_trans r.short (by simp)⟩) := by
  induction run with
  | nil => cases hPieces : pieces c role depth rest <;> simp only [List.nil_append, hPieces] <;> rfl
  | cons t run ih =>
    rw [List.cons_append, Cursor.takeUntil] at hRun
    split at hRun
    · simp at hRun
    · rename_i hStop
      have hRun' := (List.cons.inj hRun).2
      simp only [stopsLiteral, Token.Kind.endsLiteral, Bool.or_eq_true, beq_iff_eq,
        not_or] at hStop
      obtain ⟨⟨⟨hEnds, hQuote⟩, hDollar⟩, hContinuation⟩ := hStop
      have hEnd : ¬ atWordEnd t (run ++ rest) = true := by
        simp [atWordEnd, hEnds, hContinuation]
      have hSubstitution : ¬ startsSubstitution t (run ++ rest) = true := by
        simp [startsSubstitution, hDollar]
      show pieces c role depth (t :: (run ++ rest)) = _
      rw [pieces, if_neg hEnd, piece, if_neg hQuote, if_neg hSubstitution]
      show (pieces c role depth (run ++ rest) >>= _) = _
      rw [ih hRun']
      cases pieces c role depth rest <;> rfl

/-- A quoted piece of a word is read in the phase of a quotation. -/
theorem piece_quote_completes {role : WordRole} {parts : List Part}
    (h : At m c (t :: more) id (.word role parts) below)
    (hEnd : ¬ atWordEnd t more = true) (hQuote : t.kind.isQuote = true) :
    Completes m id (id :: below) (piece c role (below.length + 1) t more)
      fun tree m' => ∃ part, m'.production id = .word role (parts ++ [part]) ∧
        PieceHolds m' id role part tree := by
  have hr : (Production.word role parts).respond c.limit (t :: more) =
      .spawn (.quotation none []) := by
    show Production.respondWord t more role parts = _
    rw [Production.respondWord, if_neg hEnd, if_pos hQuote]
  rw [piece, if_pos hQuote]
  apply completes_enter (h.full hr)
  intro hRoom
  obtain ⟨opened, hReaches, hOpened, hAdopted⟩ := h.opens_quotation hr hRoom
  apply Completes.child hReaches (Nat.le_refl _) (quotation_completes hOpened)
  intro x last _ hLast hChild hRest hStack hp
  have hMade := h.made
  have hLength := hChild.length
  have hNew := hOpened.made
  refine completes_ok ⟨last, hLast, hRest, hStack, .child m.productions.length, ?_,
    .child hMade (holds_quotation (by omega) hp) ?_⟩
  · rw [hChild.kept id (by omega) (by omega), hAdopted]
    rfl
  · cases hValue : x.value <;> rfl

/-- Nested sequences that are shorter than `n` are read as they should be. -/
def NestedComplete (c : Context) (n : Nat) : Prop :=
  ∀ {m : Machine} {ts : List Token} {id : Nat} {below : List Nat}, ts.length < n →
    At m c ts id (.freshSequence true) below →
    Completes m id below (Descent.items c true (below.length + 1) [] ts)
      fun tree m' => Holds m' id tree

/-- A substitution whose commands are read closes at its parenthesis. -/
theorem closing_completes {n inner : Nat} {x : Reading Tree n}
    (h : At m c x.rest id (.substitution [inner]) below) (hInner : id < inner)
    (hHolds : Holds m inner x.value) :
    Completes m id below (closing c x) fun tree m' =>
      tree.isTerminal = false ∧ Holds m' id tree := by
  obtain ⟨root, ts, hShort⟩ := x
  cases ts with
  | nil => exact completes_error (h.starves rfl)
  | cons t rest =>
    rw [closing]
    by_cases hParen : t.kind = .rightParenthesis
    · rw [if_pos hParen]
      have hr : Production.respondSubstitution t [inner] =
          .leave 1 (.substitution [inner]) := by
        rw [Production.respondSubstitution, if_pos hParen]
      obtain ⟨last, hReaches, hRest, hStack, hp⟩ := h.leaves hr
      refine completes_ok ⟨last, hReaches, hRest, hStack, rfl, ?_⟩
      apply Holds.intro (Nat.lt_of_lt_of_le h.made hReaches.length)
      intro label trees hTrees
      rw [hp, Production.build, hTrees inner root hInner (hHolds.reach hReaches hInner)]
      rfl
    · rw [if_neg hParen]
      have hr : Production.respondSubstitution t [inner] =
          .faultAt t .unclosedSubstitution := by
        rw [Production.respondSubstitution, if_neg hParen]
      exact completes_error (h.fails hr)

/-- A substitution is read in its own phase, through that of a nested sequence. -/
theorem piece_substitution_completes {n : Nat} (hNested : NestedComplete c n)
    {role : WordRole} {parts : List Part} (h : At m c (t :: more) id (.word role parts) below)
    (hLength : more.length ≤ n) (hEnd : ¬ atWordEnd t more = true)
    (hQuote : ¬ t.kind.isQuote = true) (hStart : startsSubstitution t more = true) :
    Completes m id (id :: below) (piece c role (below.length + 1) t more)
      fun tree m' => ∃ part, m'.production id = .word role (parts ++ [part]) ∧
        PieceHolds m' id role part tree := by
  obtain ⟨hDollar, paren, inside, rfl, hParen⟩ := Descent.startsSubstitution_iff.1 hStart
  have hr : (Production.word role parts).respond c.limit (t :: paren :: inside) =
      .spawn (.substitution []) := by
    show Production.respondWord t (paren :: inside) role parts = _
    rw [Production.respondWord, if_neg hEnd, if_neg hQuote, if_pos hDollar, if_pos (by simpa)]
  have hMade := h.made
  rw [piece, if_neg hQuote, if_pos hStart]
  show Completes m id (id :: below)
    (Descent.substitution c (below.length + 1) t inside >>= fun r =>
      pure (r.within (Nat.le_succ _))) _
  rw [Descent.substitution]
  simp only [bind_assoc]
  apply completes_enter (h.full hr)
  intro hRoom
  cases inside with
  | nil =>
    -- Nothing stands behind the `$(`, whether or not there is room for a sequence.
    rw [Descent.sequence]
    by_cases hFull : c.limit ≤ (below.length + 2 : Nat)
    · exact completes_error (h.full_inside hr hDollar hParen hRoom hFull)
    · obtain ⟨opened, hReaches, hOpened, -, -⟩ :=
        h.opens_substitution hr hDollar hParen hFull
      obtain ⟨last, hRun⟩ := hOpened.starves rfl
      exact completes_error ⟨last, hReaches.run.trans hRun⟩
  | cons u rest =>
    rw [Descent.sequence, bind_assoc]
    apply completes_enter (fun hFull => h.full_inside hr hDollar hParen hRoom hFull)
    intro hRoom
    obtain ⟨opened, hReaches, hOpened, hSubstitution, hAdopted⟩ :=
      h.opens_substitution hr hDollar hParen hRoom
    have hNew := hOpened.made
    apply Completes.child hReaches (Nat.le_succ _)
      (hNested (by simp at hLength ⊢; omega) hOpened)
    intro x inner _ hInner hSequence hRest hStack hHolds
    have hLength := hSequence.length
    -- The sequence is closed, and the substitution below it is as it was opened.
    have hAt : At inner c x.rest m.productions.length
        (.substitution [m.productions.length + 1]) (id :: below) := by
      refine ⟨hInner.limit.trans h.limit, ?_, hRest, hStack, by omega, ?_⟩
      · rw [hInner.tokens, h.last]
      · rw [hSequence.kept _ (by omega) (by omega), hSubstitution]
    have hWord : inner.production id = .word role (parts ++ [.child m.productions.length]) := by
      rw [hSequence.kept id (by omega) (by omega), hAdopted]
      rfl
    apply Completes.child hInner (Nat.le_refl _)
      (closing_completes hAt (Nat.lt_succ_self _) hHolds)
    intro y last _ hLast hClosed hLeft hStack' hTree
    refine completes_ok ⟨last, hLast, hLeft, hStack', .child m.productions.length, ?_,
      .child hMade hTree.2 hTree.1⟩
    rw [hClosed.kept id (by omega) (by omega), hWord]

/-- A lone `$` is a piece of its own. -/
theorem piece_dollar_completes {role : WordRole} {parts : List Part}
    (h : At m c (t :: more) id (.word role parts) below)
    (hEnd : ¬ atWordEnd t more = true) (hQuote : ¬ t.kind.isQuote = true)
    (hDollar : t.kind = .dollar) (hStart : ¬ startsSubstitution t more = true) :
    Completes m id (id :: below) (piece c role (below.length + 1) t more)
      fun tree m' => ∃ part, m'.production id = .word role (parts ++ [part]) ∧
        PieceHolds m' id role part tree := by
  have hHead : ¬ more.head?.map (·.kind) = some .leftParenthesis := by
    intro hHead
    exact hStart (by simp [startsSubstitution, hDollar, hHead])
  have hr : Production.respondWord t more role parts =
      .read 1 (.word role (parts ++ [.token t])) := by
    rw [Production.respondWord, if_neg hEnd, if_neg hQuote, if_pos hDollar, if_neg hHead]
  obtain ⟨next, hReaches, hNext⟩ := h.stays hr
  rw [piece, if_neg hQuote, if_neg hStart]
  exact completes_ok ⟨next, hReaches, hNext.rest, hNext.stack, .token t, hNext.production,
    .token t⟩

/-- What is taken and what is left make up the list. -/
theorem takeUntil_append_drop (stop : List Token → Bool) (ts : List Token) :
    Cursor.takeUntil stop ts ++ ts.drop (Cursor.takeUntil stop ts).length = ts := by
  induction ts with
  | nil => rfl
  | cons t rest ih =>
    rw [Cursor.takeUntil]
    split
    · rfl
    · simp [ih]

/-- A word with the tokens `ts` left reads its pieces up to where it ends. -/
def PiecesComplete (c : Context) (role : WordRole) (id : Nat) (below : List Nat)
    (ts : List Token) : Prop :=
  ∀ {m : Machine} {parts : List Part} {trees : List Tree},
    At m c ts id (.word role parts) below → PiecesHold m id role parts trees →
    Completes m id below (pieces c role (below.length + 1) ts) fun read m' =>
      ∃ parts', m'.production id = .word role parts' ∧
        PiecesHold m' id role parts' (trees ++ read)

section Pieces

variable {role : WordRole} {parts : List Part} {trees : List Tree}

/-- After a single piece the word goes on with what is left. -/
theorem pieces_completes_of_piece
    (hShorter : ∀ rest : List Token, rest.length ≤ more.length →
      PiecesComplete c role id below rest)
    (h : At m c (t :: more) id (.word role parts) below)
    (hParts : PiecesHold m id role parts trees) (hEnd : ¬ atWordEnd t more = true)
    (hPiece : Completes m id (id :: below) (piece c role (below.length + 1) t more)
      fun tree m' => ∃ part, m'.production id = .word role (parts ++ [part]) ∧
        PieceHolds m' id role part tree) :
    Completes m id below (pieces c role (below.length + 1) (t :: more)) fun read m' =>
      ∃ parts', m'.production id = .word role parts' ∧
        PiecesHold m' id role parts' (trees ++ read) := by
  rw [pieces, if_neg hEnd]
  apply Completes.bind hPiece
  rintro x next - hReaches hRest hStack ⟨part, hp, hPart⟩
  apply Completes.map (hShorter x.rest x.short (h.reach hReaches hRest hStack hp)
    ((hParts.reach hReaches).concat hPart))
  · intro y
    rfl
  · intro y last _ hRead
    simpa using hRead

/-- A run of literal tokens is read in one step. -/
theorem pieces_completes_of_literal
    (hShorter : ∀ rest : List Token, rest.length ≤ more.length →
      PiecesComplete c role id below rest)
    (h : At m c (t :: more) id (.word role parts) below)
    (hParts : PiecesHold m id role parts trees) (hEnd : ¬ atWordEnd t more = true)
    (hQuote : ¬ t.kind.isQuote = true) (hDollar : ¬ t.kind = .dollar) :
    Completes m id below (pieces c role (below.length + 1) (t :: more)) fun read m' =>
      ∃ parts', m'.production id = .word role parts' ∧
        PiecesHold m' id role parts' (trees ++ read) := by
  have hStop : stopsLiteral (t :: more) = false := by
    simp_all [stopsLiteral, Token.Kind.endsLiteral, atWordEnd]
  have hFirst := Production.takeUntil_stopsLiteral_ne_nil hStop
  have hSplit := takeUntil_append_drop stopsLiteral (t :: more)
  have hr : (Production.word role parts).respond c.limit (t :: more) =
      if (Cursor.takeUntil stopsLiteral (t :: more)).length = more.length + 1 then .starve
      else .advance (Cursor.takeUntil stopsLiteral (t :: more)).length
        (.word role (parts ++ (Cursor.takeUntil stopsLiteral (t :: more)).map .token))
        (some (.consumed (Cursor.takeUntil stopsLiteral (t :: more)).length)) false := by
    show Production.respondWord t more role parts = _
    rw [Production.respondWord, if_neg hEnd, if_neg hQuote, if_neg hDollar]
  generalize hRun : Cursor.takeUntil stopsLiteral (t :: more) = run at hFirst hSplit hr
  generalize hLeft : (t :: more).drop run.length = rest at hSplit
  have hCount : run.length + rest.length = more.length + 1 := by
    simpa using congrArg List.length hSplit
  rw [← hSplit] at hRun ⊢
  rw [pieces_run role _ hRun]
  by_cases hAll : run.length = more.length + 1
  · rw [if_pos hAll] at hr
    obtain rfl : rest = [] := List.length_eq_zero_iff.1 (by omega)
    rw [pieces]
    exact completes_error (h.starves hr)
  · rw [if_neg hAll] at hr
    obtain ⟨next, hReaches, hNext⟩ := h.stays hr
    rw [hLeft] at hNext
    apply Completes.after hReaches
    apply Completes.map (hShorter rest (by omega) hNext
      (List.rel_append (hParts.reach hReaches) (PiecesHold.tokens run)))
    · intro y
      rfl
    · intro y last _ hRead
      simpa using hRead

/-- A word reads its pieces up to where it ends. -/
theorem pieces_completes {n : Nat} (hNested : NestedComplete c n) (hLength : ts.length ≤ n) :
    PiecesComplete c role id below ts := by
  obtain ⟨size, hSize⟩ : ∃ size, ts.length = size := ⟨_, rfl⟩
  induction size using Nat.strongRecOn generalizing ts with
  | ind size ih =>
    intro m parts trees h hParts
    cases ts with
    | nil =>
      rw [pieces]
      exact completes_error (h.starves rfl)
    | cons t more =>
      rw [List.length_cons] at hLength hSize
      have hShorter : ∀ rest : List Token, rest.length ≤ more.length →
          PiecesComplete c role id below rest :=
        fun rest hRest => ih rest.length (by omega) (by omega) rfl
      by_cases hEnd : atWordEnd t more = true
      · have hr : Production.respondWord t more role parts = .leave 0 (.word role parts) := by
          rw [Production.respondWord, if_pos hEnd]
        obtain ⟨last, hReaches, hRest, hStack, hp⟩ := h.leaves hr
        rw [pieces, if_pos hEnd]
        exact completes_ok ⟨last, hReaches, hRest, hStack, parts, hp,
          by simpa using hParts.reach hReaches⟩
      · by_cases hQuote : t.kind.isQuote = true
        · exact pieces_completes_of_piece hShorter h hParts hEnd
            (piece_quote_completes h hEnd hQuote)
        · by_cases hDollar : t.kind = .dollar
          · by_cases hStart : startsSubstitution t more = true
            · exact pieces_completes_of_piece hShorter h hParts hEnd
                (piece_substitution_completes hNested h (by omega) hEnd hQuote hStart)
            · exact pieces_completes_of_piece hShorter h hParts hEnd
                (piece_dollar_completes h hEnd hQuote hDollar hStart)
          · exact pieces_completes_of_literal hShorter h hParts hEnd hQuote hDollar

/-- A word that has just been opened is read to its end. -/
theorem word_completes {n : Nat} (hNested : NestedComplete c n)
    (h : At m c (t :: more) id (.word role []) below) (hLength : more.length < n)
    (hEnd : ¬ atWordEnd t more = true) :
    Completes m id below (piece c role (below.length + 1) t more >>= fun first =>
      pieces c role (below.length + 1) first.rest >>= fun others =>
        pure (⟨wordTree role first.value others.value, others.rest,
          Nat.le_trans others.short first.short⟩ : Reading Tree more.length))
      fun tree m' => Holds m' id tree := by
  have hPieces := pieces_completes hNested (by simpa using Nat.succ_le_of_lt hLength) h .nil
  rw [pieces, if_neg hEnd] at hPieces
  cases hPiece : piece c role (below.length + 1) t more with
  | error fault =>
    rw [hPiece] at hPieces
    exact hPieces
  | ok first =>
    rw [hPiece] at hPieces
    cases hOthers : pieces c role (below.length + 1) first.rest with
    | error fault =>
      simp only [bind, Except.bind, hOthers] at hPieces ⊢
      exact hPieces
    | ok others =>
      simp only [bind, Except.bind, hOthers] at hPieces ⊢
      obtain ⟨last, hReaches, hRest, hStack, parts, hp, hHold⟩ := hPieces
      exact completes_ok ⟨last, hReaches, hRest, hStack,
        holds_word (Nat.lt_of_lt_of_le h.made hReaches.length) hp hHold⟩

end Pieces

-- ---------------------------------------------------------------------------
-- Commands and assignments
-- ---------------------------------------------------------------------------

/-- A later production that is finished and stands for `tree`. -/
def ChildHolds (m : Machine) (id j : Nat) (tree : Tree) : Prop := id < j ∧ Holds m j tree

theorem ChildHolds.reach {j : Nat} {tree : Tree} (h : ChildHolds m id j tree)
    (hReaches : Reaches id m m') : ChildHolds m' id j tree :=
  ⟨h.1, h.2.reach hReaches h.1⟩

/-- The phase of a child is a stretch of its parent's: afterwards the parent is on top
again, with the child as its latest part. -/
theorem adopts {n : Nat} {p child : Production} {ts' : List Token}
    {r : Except Fault (Reading Tree n)} {opened : Machine} (h : At m c ts id p below)
    (hReaches : Reaches id m opened)
    (hOpened : At opened c ts' m.productions.length child (id :: below))
    (hAdopted : opened.production id = p.adopt m.productions.length)
    (hChild : Completes opened m.productions.length (id :: below) r
      fun tree m' => Holds m' m.productions.length tree) :
    Completes m id (id :: below) r
      fun tree m' => ∃ j, m'.production id = p.adopt j ∧ ChildHolds m' id j tree := by
  have hMade := h.made
  have hNew := hOpened.made
  cases r with
  | error fault =>
    obtain ⟨last, hRun⟩ := hChild
    exact completes_error ⟨last, hReaches.run.trans hRun⟩
  | ok x =>
    obtain ⟨last, hLast, hRest, hStack, hHolds⟩ := hChild
    refine completes_ok ⟨last, hReaches.through (Nat.le_refl _) hLast, hRest, hStack,
      m.productions.length, ?_, hMade, hHolds⟩
    rw [hLast.kept id (by omega) (by omega), hAdopted]

/-- A production that opens a word finds it read when it is on top again. -/
theorem opens_word_completes {n : Nat} (hNested : NestedComplete c n) {p : Production}
    {role : WordRole} (h : At m c (t :: more) id p below)
    (hr : p.respond c.limit (t :: more) = .spawn (.word role [])) (hLength : more.length < n)
    (hEnd : ¬ atWordEnd t more = true) :
    Completes m id (id :: below) (Descent.word c role (below.length + 1) t more)
      fun tree m' => ∃ j, m'.production id = p.adopt j ∧ ChildHolds m' id j tree := by
  rw [Descent.word]
  apply completes_enter (h.full hr)
  intro hRoom
  obtain ⟨opened, hReaches, hOpened, hAdopted⟩ := h.opens_plain hr (.inr ⟨role, rfl⟩) hRoom
  exact adopts h hReaches hOpened hAdopted (word_completes hNested hOpened hLength hEnd)

/-- An assignment whose `=` is read reads its value, if there is one. -/
theorem assignment_completes {n : Nat} (hNested : NestedComplete c n) {name : Token}
    (h : At m c (t :: more) id (.assignment (some name) none) below)
    (hLength : more.length < n) :
    Completes m id below
      (if atWordEnd t more then
        pure (⟨.node .assignment (.leaf .lhs name none) [] none, t :: more, Nat.le_refl _⟩ :
          Reading Tree (t :: more).length)
      else Descent.word c .value (below.length + 1) t more >>= fun r =>
        pure ⟨.node .assignment (.leaf .lhs name none) [r.value] none, r.rest,
          Nat.le_succ_of_le r.short⟩)
      fun tree m' => Holds m' id tree := by
  by_cases hEnd : atWordEnd t more = true
  · have hr : Production.respondAssignment t more (some name) =
        .leave 0 (.assignment (some name) none) := by
      rw [Production.respondAssignment, if_pos hEnd]
    obtain ⟨last, hReaches, hRest, hStack, hp⟩ := h.leaves hr
    rw [if_pos hEnd]
    refine completes_ok ⟨last, hReaches, hRest, hStack, ?_⟩
    apply Holds.intro (Nat.lt_of_lt_of_le h.made hReaches.length)
    intro label trees _
    rw [hp]
    rfl
  · have hr : Production.respondAssignment t more (some name) = .spawn (.word .value []) := by
      rw [Production.respondAssignment, if_neg hEnd]
    rw [if_neg hEnd]
    apply Completes.bind (opens_word_completes hNested h hr hLength hEnd)
    rintro x next - hReaches hRest hStack ⟨j, hp, hChild⟩
    have hNext := h.reach hReaches hRest hStack hp
    -- With its value read the assignment closes, whatever is left.
    have hClose : (Production.assignment (some name) (some j)).respond c.limit x.rest =
        .leave 0 (.assignment (some name) (some j)) := by
      cases x.rest <;> rfl
    obtain ⟨last, hReaches', hRest', hStack', hp'⟩ := hNext.leaves hClose
    refine completes_ok ⟨last, hReaches', hRest', hStack', ?_⟩
    apply Holds.intro (Nat.lt_of_lt_of_le hNext.made hReaches'.length)
    intro label trees hTrees
    rw [hp', Production.build, hTrees j x.value hChild.1 (hChild.reach hReaches').2]
    rfl

/-- A command reads one assignment or argument. -/
theorem part_completes {n : Nat} (hNested : NestedComplete c n) {ids : List Nat}
    (h : At m c (t :: more) id (.command ids) below) (hLength : more.length < n)
    (hEnd : ¬ atWordEnd t more = true) :
    Completes m id (id :: below) (part c (below.length + 1) t more)
      fun tree m' => ∃ j, m'.production id = .command (ids ++ [j]) ∧
        ChildHolds m' id j tree := by
  by_cases hStart : startsAssignment t more = true
  · have hr : (Production.command ids).respond c.limit (t :: more) =
        .spawn (.assignment none none) := by
      show Production.respondCommand t more ids = _
      rw [Production.respondCommand_word (by simpa using hEnd), if_pos hStart]
    obtain ⟨hName, -, equals, rest, rfl, hEquals⟩ := Descent.startsAssignment_iff.1 hStart
    rw [part, if_pos hStart]
    show Completes m id (id :: below)
      (Descent.assignment c (below.length + 1) t rest >>= fun r =>
        pure (r.within (Nat.le_succ _))) _
    have hAssignment : Completes m id (id :: below)
        (Descent.assignment c (below.length + 1) t rest)
        fun tree m' => ∃ j, m'.production id = .command (ids ++ [j]) ∧
          ChildHolds m' id j tree := by
      rw [Descent.assignment.eq_def]
      cases rest with
      | nil =>
        apply completes_enter (h.full hr)
        intro hRoom
        obtain ⟨opened, hReaches, hOpened, -⟩ :=
          h.opens_assignment hr hName hEquals hRoom
        obtain ⟨last, hRun⟩ := hOpened.starves rfl
        exact completes_error ⟨last, hReaches.run.trans hRun⟩
      | cons u rest =>
        apply completes_enter (h.full hr)
        intro hRoom
        obtain ⟨opened, hReaches, hOpened, hAdopted⟩ :=
          h.opens_assignment hr hName hEquals hRoom
        exact adopts h hReaches hOpened hAdopted
          (assignment_completes hNested hOpened (by simp at hLength; omega))
    apply Completes.map hAssignment
    · intro x
      rfl
    · intro x last _ hTree
      exact hTree
  · have hr : (Production.command ids).respond c.limit (t :: more) =
        .spawn (.word .argument []) := by
      show Production.respondCommand t more ids = _
      rw [Production.respondCommand_word (by simpa using hEnd), if_neg hStart]
    rw [part, if_neg hStart]
    exact opens_word_completes hNested h hr hLength hEnd

/-- A command reads its parts up to where it ends. -/
theorem parts_completes {n : Nat} (hNested : NestedComplete c n) {ids : List Nat}
    {trees : List Tree} (h : At m c ts id (.command ids) below) (hLength : ts.length ≤ n)
    (hIds : List.Forall₂ (ChildHolds m id) ids trees) :
    Completes m id below (parts c (below.length + 1) ts) fun read m' =>
      ∃ ids', m'.production id = .command ids' ∧
        List.Forall₂ (ChildHolds m' id) ids' (trees ++ read) := by
  obtain ⟨size, hSize⟩ : ∃ size, ts.length = size := ⟨_, rfl⟩
  induction size using Nat.strongRecOn generalizing m ts ids trees with
  | ind size ih =>
    cases ts with
    | nil =>
      rw [parts]
      exact completes_error (h.starves rfl)
    | cons t more =>
      rw [List.length_cons] at hLength hSize
      cases Descent.commandFront t more with
      | ends hEnds =>
        obtain ⟨last, hReaches, hRest, hStack, hp⟩ :=
          h.leaves (Production.respondCommand_ends hEnds)
        rw [Descent.parts_ends hEnds]
        refine completes_ok ⟨last, hReaches, hRest, hStack, ids, hp, ?_⟩
        rw [List.append_nil]
        exact hIds.imp fun _ _ hChild => hChild.reach hReaches
      | space hSpace =>
        obtain ⟨next, hReaches, (hNext : At next c more id _ below)⟩ :=
          h.stays (Production.respondCommand_space hSpace)
        rw [Descent.parts_space hSpace]
        apply Completes.after hReaches
        apply Completes.map (ih more.length (by omega) hNext (by omega)
          (hIds.imp fun _ _ hChild => hChild.reach hReaches) rfl)
        · intro x
          rfl
        · intro x last _ hRead
          exact hRead
      | continuation _ hContinuation =>
        obtain ⟨next, hReaches, (hNext : At next c (more.drop 1) id _ below)⟩ :=
          h.stays (Production.respondCommand_continuation hContinuation)
        rw [Descent.parts_continuation hContinuation]
        apply Completes.after hReaches
        apply Completes.map (ih (more.drop 1).length (by simp; omega) hNext
          (by simp; omega) (hIds.imp fun _ _ hChild => hChild.reach hReaches) rfl)
        · intro x
          rfl
        · intro x last _ hRead
          exact hRead
      | word hWord =>
        rw [Descent.parts_word hWord]
        apply Completes.bind (part_completes hNested h (by omega) (by simpa using hWord))
        rintro x next - hReaches hRest hStack ⟨j, hp, hChild⟩
        have hShort := x.short
        apply Completes.map (ih x.rest.length (by omega)
          (h.reach hReaches hRest hStack hp) (by omega)
          (List.rel_append (hIds.imp fun _ _ hChild => hChild.reach hReaches)
            (.cons hChild .nil)) rfl)
        · intro y
          rfl
        · intro y last _ hRead
          simpa using hRead

/-- A sequence that opens a command finds it read when it is on top again. -/
theorem opens_command_completes {n : Nat} (hNested : NestedComplete c n) {p : Production}
    (h : At m c (t :: more) id p below)
    (hr : p.respond c.limit (t :: more) = .spawn (.command [])) (hLength : more.length < n)
    (hEnd : ¬ atWordEnd t more = true) :
    Completes m id (id :: below) (Descent.command c (below.length + 1) t more)
      fun tree m' => ∃ j, m'.production id = p.adopt j ∧ ChildHolds m' id j tree := by
  rw [Descent.command]
  apply completes_enter (h.full hr)
  intro hRoom
  obtain ⟨opened, hReaches, hOpened, hAdopted⟩ := h.opens_plain hr (.inl rfl) hRoom
  apply adopts h hReaches hOpened hAdopted
  apply Completes.bind (part_completes hNested hOpened hLength hEnd)
  rintro first next - hReaches' hRest hStack ⟨j, hp, hChild⟩
  have hNext := hOpened.reach hReaches' hRest hStack hp
  have hShort := first.short
  apply Completes.map (parts_completes hNested hNext (by omega) (.cons hChild .nil))
  · intro others
    rfl
  · rintro others last hReaches'' ⟨ids, hp, hIds⟩
    apply Holds.intro (Nat.lt_of_lt_of_le hNext.made hReaches''.length)
    intro label trees hTrees
    have hMap : ids.mapM trees = .ok (first.value :: others.value) :=
      mapM_eq_ok (hIds.imp fun j tree hChild => hTrees j tree hChild.1 hChild.2)
    rw [hp, Production.build, hMap]
    rfl

end ShellReader.Machine
