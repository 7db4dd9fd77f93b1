import ShellReader.Proofs.Faults

/-!
# ShellReader — two readings in parallel

Two lists that are the same up to their first end are read in the same way up to there. No
production reads past an end, none that looks ahead takes an end for anything else, and the
limit matters only where a production is entered and where an operator asks for one more
command. So a reading of the one list can be followed on the other one, which may have other
tokens behind the end or no end at all, and which may be read under a greater limit.

* `Pair` — the two lists, as far as a production can tell them apart;
* `Pair.Alike` — what is left of them is the same up to the end;
* `Pair.Mirrors` — what the two readings come to;
* `Pair.Halts` — what a production does at an end.

## Results

* `Pair.sequence_mirrors` — the second reading of a sequence mirrors the first one, and so
  does that of every other production.
* `parseTokens_parallel` — the same for whole lists.
-/

namespace ShellReader.Descent

open Production (startsAssignment atWordEnd startsEscape)

/-- What two lists have from their first end on, each read in a context of its own: no end,
the same end, or an end that is the last token of the one and that the other does not have. -/
inductive Tails (c c' : Context) : List Token → List Token → Prop where
  | endless (hLast : c.last = c'.last) : Tails c c' [] []
  | both {last : Token} (hLast : last.kind = .endOfInput) (more more' : List Token) :
      Tails c c' (last :: more) (last :: more')
  | first {last : Token} (hLast : last.kind = .endOfInput) : Tails c c' [last] []

/-- Two lists that are the same up to their first end, the second one under a limit that is
no smaller. -/
structure Pair where
  /-- What does not change while the first list is read. -/
  first    : Context
  /-- What does not change while the second list is read. -/
  second   : Context
  tail     : List Token
  tail'    : List Token
  tails    : Tails first second tail tail'
  limit_le : first.limit ≤ second.limit

namespace Pair

variable {P : Pair} {α β : Type} {n m k l : Nat} {t last : Token}
  {ts us more more' : List Token} {b : Bool}

/-- What is left of the lists is the same up to the end. -/
def Alike (P : Pair) (ts us : List Token) : Prop :=
  ∃ left, Endless left ∧ ts = left ++ P.tail ∧ us = left ++ P.tail'

/-- What two readings leave: inside a sequence the end, and what is before it; behind the
outermost one what is behind the end. -/
def Leave (P : Pair) : (inside : Bool) → List Token → List Token → Prop
  | true, ts, us => P.Alike ts us
  | false, ts, us => ∃ last, P.tail = last :: ts ∧ P.tail' = last :: us

/-- A reading has come to the end `last`. -/
def Spent (last : Token) (inside : Bool) : Except Fault (Reading α n) → Prop
  | .error fault => fault.token = some last
  | .ok r => r.rest = if inside then [last] else []

/-- The second reading mirrors the first one. They come to the same; or the first one comes to
the end and the second one finds that there is none; or the first one is cut off by the smaller
limit. -/
inductive Mirrors (P : Pair) (inside : Bool) :
    Except Fault (Reading α n) → Except Fault (Reading α m) → Prop where
  | fault (fault : Fault) : Mirrors P inside (.error fault) (.error fault)
  | ok {r : Reading α n} {r' : Reading α m} (hValue : r'.value = r.value)
      (hRest : P.Leave inside r.rest r'.rest) : Mirrors P inside (.ok r) (.ok r')
  | spent {x : Except Fault (Reading α n)} {last : Token} (hTail : P.tail = [last])
      (hTail' : P.tail' = []) (hSpent : Spent last inside x) :
      Mirrors P inside x (.error P.second.missingEnd)
  | cut {fault : Fault} {y : Except Fault (Reading α m)}
      (hLimit : P.first.limit < P.second.limit)
      (hDeep : fault.cause.category = .nestingTooDeep) : Mirrors P inside (.error fault) y

-- ---------------------------------------------------------------------------
-- Lists that are alike
-- ---------------------------------------------------------------------------

theorem alike_tails (P : Pair) : P.Alike P.tail P.tail' :=
  ⟨[], endless_nil, rfl, rfl⟩

theorem alike_cons (ht : t.kind ≠ .endOfInput) (h : P.Alike ts us) :
    P.Alike (t :: ts) (t :: us) := by
  obtain ⟨left, hLeft, rfl, rfl⟩ := h
  exact ⟨t :: left, endless_cons.2 ⟨ht, hLeft⟩, rfl, rfl⟩

/-- Nothing but the tails is left, or both lists go on with the same token. -/
theorem Alike.cases (h : P.Alike ts us) :
    (P.tail = ts ∧ P.tail' = us ∧ Tails P.first P.second ts us) ∨
      ∃ t more more', t.kind ≠ .endOfInput ∧ ts = t :: more ∧ us = t :: more' ∧
        P.Alike more more' := by
  obtain ⟨_ | ⟨t, left⟩, hLeft, rfl, rfl⟩ := h
  · exact .inl ⟨rfl, rfl, P.tails⟩
  · obtain ⟨hKind, hLeft⟩ := endless_cons.1 hLeft
    exact .inr ⟨t, _, _, hKind, rfl, rfl, left, hLeft, rfl, rfl⟩

/-- A token that is no end comes next in both lists or in neither. -/
theorem Alike.head (h : P.Alike (t :: more) us) (ht : t.kind ≠ .endOfInput) :
    ∃ more', us = t :: more' ∧ P.Alike more more' := by
  rcases h.cases with ⟨-, -, hTails⟩ | ⟨_, _, more', -, hCons, rfl, hMore⟩
  · cases hTails with
    | both hLast => exact absurd hLast ht
    | first hLast => exact absurd hLast ht
  · obtain ⟨rfl, rfl⟩ := List.cons.inj hCons
    exact ⟨more', rfl, hMore⟩

/-- Whether a token of some kind comes next is the same for both. -/
theorem Alike.head?_kind (h : P.Alike ts us) {kind : Token.Kind} (hKind : kind ≠ .endOfInput) :
    (us.head?.map (·.kind) == some kind) = (ts.head?.map (·.kind) == some kind) := by
  rcases h.cases with ⟨-, -, hTails⟩ | ⟨t, more, more', -, rfl, rfl, -⟩
  · cases hTails with
    | endless => rfl
    | both => rfl
    | first hLast => simp [hLast, hKind.symm]
  · rfl

theorem Alike.drop (h : P.Alike ts us) {kind : Token.Kind} (hKind : kind ≠ .endOfInput)
    (hHead : ts.head?.map (·.kind) = some kind) : P.Alike (ts.drop 1) (us.drop 1) := by
  cases ts with
  | nil => cases hHead
  | cons t more =>
    obtain rfl : t.kind = kind := Option.some.inj hHead
    obtain ⟨more', rfl, hMore⟩ := h.head hKind
    exact hMore

section Lookahead

variable (h : P.Alike more more') (t : Token)
include h

theorem Alike.startsContinuation :
    Token.startsContinuation (t :: more') = Token.startsContinuation (t :: more) := by
  rw [startsContinuation_cons, startsContinuation_cons, h.head?_kind (by simp)]

theorem Alike.atWordEnd : atWordEnd t more' = atWordEnd t more := by
  unfold Production.atWordEnd
  rw [h.startsContinuation]

theorem Alike.startsAssignment : startsAssignment t more' = startsAssignment t more := by
  unfold Production.startsAssignment
  rw [h.head?_kind (by simp)]

theorem Alike.startsSubstitution : startsSubstitution t more' = startsSubstitution t more := by
  unfold Descent.startsSubstitution
  rw [h.head?_kind (by simp)]

theorem Alike.startsEscape : startsEscape t more' = startsEscape t more := by
  unfold Production.startsEscape
  rw [h.head?_kind (by simp), h.head?_kind (by simp)]

end Lookahead

/-- Behind a continuation. -/
theorem Alike.drop_of_continuation (h : P.Alike more more')
    (hStart : Token.startsContinuation (t :: more) = true) :
    P.Alike (more.drop 1) (more'.drop 1) := by
  rw [startsContinuation_cons, Bool.and_eq_true, beq_iff_eq, beq_iff_eq] at hStart
  exact h.drop (by simp) hStart.2

-- ---------------------------------------------------------------------------
-- Rules
-- ---------------------------------------------------------------------------

section Rules

variable {x : Except Fault (Reading α n)} {y : Except Fault (Reading α m)}
  {f : Reading α n → Except Fault (Reading β k)} {g : Reading α m → Except Fault (Reading β l)}

/-- Reading in two parts, the second one of what the first one leaves. -/
theorem Mirrors.bind (h : P.Mirrors true x y)
    (hNext : ∀ r r', r'.value = r.value → P.Alike r.rest r'.rest → P.Mirrors b (f r) (g r'))
    (hNothing : ∀ r', r'.rest = [] → g r' = .error P.second.missingEnd) :
    P.Mirrors b (x >>= f) (y >>= g) := by
  cases h with
  | fault fault => exact .fault fault
  | cut hLimit hDeep => exact .cut hLimit hDeep
  | ok hValue hRest => exact hNext _ _ hValue hRest
  | spent hTail hTail' hSpent =>
    cases x with
    | error fault => exact .spent hTail hTail' hSpent
    | ok r =>
      -- The second reading has stopped, as it would stop in the second part with nothing left.
      have hAlike : P.Alike r.rest [] := by
        have hRest : r.rest = P.tail := hSpent.trans hTail.symm
        rw [hRest, ← hTail']
        exact alike_tails P
      have hStep := hNext r ⟨r.value, [], Nat.zero_le m⟩ rfl hAlike
      rw [hNothing _ rfl] at hStep
      exact hStep

/-- What is read may be put to any use. -/
theorem Mirrors.keep (h : P.Mirrors b x y)
    (hKeep : ∀ r r', r'.value = r.value → ∃ s s', f r = .ok s ∧ g r' = .ok s' ∧
      s'.value = s.value ∧ s.rest = r.rest ∧ s'.rest = r'.rest) :
    P.Mirrors b (x >>= f) (y >>= g) := by
  cases h with
  | fault fault => exact .fault fault
  | cut hLimit hDeep => exact .cut hLimit hDeep
  | @ok r r' hValue hLeave =>
    obtain ⟨s, s', hf, hg, hValue', hRest, hRest'⟩ := hKeep r r' hValue
    show P.Mirrors b (f r) (g r')
    rw [hf, hg]
    rw [← hRest, ← hRest'] at hLeave
    exact .ok hValue' hLeave
  | spent hTail hTail' hSpent =>
    refine .spent hTail hTail' ?_
    cases x with
    | error fault => exact hSpent
    | ok r =>
      obtain ⟨s, -, hf, -, -, hRest, -⟩ := hKeep r ⟨r.value, [], Nat.zero_le m⟩ rfl
      show Spent _ b (f r)
      rw [hf]
      exact hRest.trans hSpent

theorem Mirrors.within (h : P.Mirrors b x y) {hn : n ≤ k} {hm : m ≤ l} :
    P.Mirrors b (x >>= fun r => pure (r.within hn)) (y >>= fun r => pure (r.within hm)) :=
  h.keep fun _ _ hValue => ⟨_, _, rfl, rfl, hValue, rfl, rfl⟩

/-- A limit that stops both readings at the same token, or only the first one, or neither. -/
theorem Mirrors.bounded {cause : Int → Fault.Cause} (count : Nat) (t : Token)
    (hDeep : ∀ limit, (cause limit).category = .nestingTooDeep) (h : P.Mirrors b x y) :
    P.Mirrors b
      (if P.first.limit ≤ count then .error (.atToken t (cause P.first.limit)) else x)
      (if P.second.limit ≤ count then .error (.atToken t (cause P.second.limit)) else y) := by
  have hLe := P.limit_le
  by_cases hFull : P.first.limit ≤ count
  · rw [if_pos hFull]
    rcases Int.le_iff_eq_or_lt.1 hLe with hSame | hLess
    · rw [← hSame, if_pos hFull]
      exact .fault _
    · exact .cut hLess (hDeep _)
  · rw [if_neg hFull, if_neg (by omega)]
    exact h

theorem enter_bind (c : Context) (depth : Nat) (t : Token) (x : Except Fault (Reading α n)) :
    (c.enter depth t >>= fun _ => x) =
      if c.limit ≤ depth then .error (.atToken t (.tooDeep c.limit)) else x := by
  unfold Context.enter
  split <;> rfl

/-- A production that is entered at the same token. -/
theorem Mirrors.enter (depth : Nat) (t : Token) (h : P.Mirrors b x y) :
    P.Mirrors b (P.first.enter depth t >>= fun _ => x)
      (P.second.enter depth t >>= fun _ => y) := by
  rw [enter_bind, enter_bind]
  exact h.bounded depth t fun _ => rfl

end Rules

-- ---------------------------------------------------------------------------
-- Productions at an end
-- ---------------------------------------------------------------------------

/-- What a production does at the end `last`, whatever the context and the tokens behind the
end: it fails there, or leaves the end alone, or reads it if it is the outermost sequence. -/
inductive Halts (last : Token)
    (F : Context → (ts : List Token) → Except Fault (Reading α ts.length)) : Bool → Prop where
  | fault {inside : Bool} (cause : Fault.Cause)
      (h : ∀ c more, F c (last :: more) = .error (.atToken last cause)) : Halts last F inside
  | leave (value : α)
      (h : ∀ c more, F c (last :: more) = .ok ⟨value, last :: more, Nat.le_refl _⟩) :
      Halts last F true
  | close (value : α)
      (h : ∀ c more, F c (last :: more) = .ok ⟨value, more, Nat.le_succ _⟩) :
      Halts last F false

section Halts

variable {F : Context → (ts : List Token) → Except Fault (Reading α ts.length)}

theorem Halts.spent (h : Halts last F b) (c : Context) : Spent last b (F c [last]) := by
  cases h with
  | fault cause h =>
    rw [h]
    exact rfl
  | leave value h =>
    rw [h]
    exact rfl
  | close value h =>
    rw [h]
    exact rfl

theorem Halts.mirrors (h : Halts last F b) (hTail : P.tail = last :: more)
    (hTail' : P.tail' = last :: more') :
    P.Mirrors b (F P.first (last :: more)) (F P.second (last :: more')) := by
  cases h with
  | fault cause h =>
    rw [h, h]
    exact .fault _
  | leave value h =>
    rw [h, h]
    have hAlike := alike_tails P
    rw [hTail, hTail'] at hAlike
    exact .ok rfl hAlike
  | close value h =>
    rw [h, h]
    exact .ok rfl ⟨last, hTail, hTail'⟩

theorem Spent.enter {x : Except Fault (Reading α n)} (c : Context) (depth : Nat)
    (h : Spent last b x) : Spent last b (c.enter depth last >>= fun _ => x) := by
  rw [enter_bind]
  split
  · exact rfl
  · exact h

/-- A production that halts at every end, and goes on in the same way at the same token. -/
theorem Alike.elim (h : P.Alike ts us) (hNothing : ∀ c, F c [] = .error c.missingEnd)
    (hHalts : ∀ last, last.kind = .endOfInput → Halts last F b)
    (hCons : ∀ t more more', t.kind ≠ .endOfInput → ts.length = more.length + 1 →
      P.Alike more more' → P.Mirrors b (F P.first (t :: more)) (F P.second (t :: more'))) :
    P.Mirrors b (F P.first ts) (F P.second us) := by
  rcases h.cases with ⟨hTail, hTail', hTails⟩ | ⟨t, more, more', hKind, rfl, rfl, hMore⟩
  · cases hTails with
    | endless hLast =>
      rw [hNothing, hNothing, Context.missingEnd, Context.missingEnd, hLast]
      exact .fault _
    | both hLast more more' => exact (hHalts _ hLast).mirrors hTail hTail'
    | first hLast =>
      rw [hNothing]
      exact .spent hTail hTail' ((hHalts _ hLast).spent _)
  · exact hCons t more more' hKind rfl hMore

variable (h : last.kind = .endOfInput) (depth : Nat)
include h

theorem quoted_halts (opener : Token) : Halts last (quoted · opener) true :=
  .fault (.openString opener.text) fun c more => by rw [quoted, if_pos h]

theorem atWordEnd_end (more : List Token) : atWordEnd last more = true := by
  simp [Production.atWordEnd, h, Token.Kind.endsArgument, Token.Kind.endsCommand]

theorem pieces_halts (role : WordRole) : Halts last (pieces · role depth) true :=
  .leave [] fun c more => by rw [pieces, if_pos (atWordEnd_end h more)]

theorem parts_halts : Halts last (parts · depth) true :=
  .leave [] fun c more => by rw [parts_ends (by simp [h, Token.Kind.endsCommand])]

theorem operand_halts (nested : Bool) (operator : Token) :
    Halts last (operand · nested depth operator) true := by
  refine .fault (if nested then .openSubstitution else .noCommandAfter operator.text) ?_
  intro c more
  rw [operand_finish h]
  cases nested <;> rfl

theorem chain_halts (nested : Bool) (item : Item) :
    Halts last (chain · nested depth item) true :=
  .leave item.tree fun c more => by rw [chain, if_neg (by simp [h, Token.Kind.isOperator])]

theorem items_halts (nested : Bool) (done : List Tree) :
    Halts last (items · nested depth done) nested := by
  cases nested with
  | true =>
    refine .fault .openSubstitution fun c more => ?_
    rw [items_finish h, if_pos rfl]
  | false =>
    cases done with
    | nil =>
      refine .fault .noCommand fun c more => ?_
      rw [items_finish h]
      rfl
    | cons first others =>
      refine .close (.node .root first others none) fun c more => ?_
      rw [items_finish h]
      rfl

end Halts

-- ---------------------------------------------------------------------------
-- Productions
-- ---------------------------------------------------------------------------

theorem quoted_mirrors (opener : Token) (h : P.Alike ts us) :
    P.Mirrors true (quoted P.first opener ts) (quoted P.second opener us) := by
  obtain ⟨size, hSize⟩ : ∃ size, ts.length = size := ⟨_, rfl⟩
  induction size using Nat.strongRecOn generalizing ts us with
  | ind size ih =>
    refine h.elim (F := (quoted · opener)) (fun c => by rw [quoted])
      (fun last hLast => quoted_halts hLast opener) ?_
    intro t more more' hKind hLength hMore
    rw [quoted, quoted, if_neg hKind, if_neg hKind, hMore.startsEscape]
    by_cases hClose : t.kind = opener.kind
    · rw [if_pos hClose, if_pos hClose]
      exact .ok rfl hMore
    rw [if_neg hClose, if_neg hClose]
    by_cases hEscape : opener.kind = .doubleQuote ∧ startsEscape t more = true
    · rw [if_pos hEscape, if_pos hEscape]
      obtain ⟨u, rest, rfl, hNext⟩ : ∃ u rest, more = u :: rest ∧ u.kind ≠ .endOfInput := by
        cases more with
        | nil => simp [Production.startsEscape] at hEscape
        | cons u rest =>
          refine ⟨u, rest, rfl, fun hNext => ?_⟩
          simp [Production.startsEscape, hNext] at hEscape
      obtain ⟨rest', rfl, hRest⟩ := hMore.head hNext
      rw [List.length_cons] at hLength
      refine (ih rest.length (by omega) hRest rfl).keep fun r r' hValue => ?_
      exact ⟨_, _, rfl, rfl, by simp [hValue], rfl, rfl⟩
    · rw [if_neg hEscape, if_neg hEscape]
      refine (ih more.length (by omega) hMore rfl).keep fun r r' hValue => ?_
      exact ⟨_, _, rfl, rfl, by simp [hValue], rfl, rfl⟩

theorem closing_mirrors {r : Reading Tree n} {r' : Reading Tree m} (hValue : r'.value = r.value)
    (hRest : P.Alike r.rest r'.rest) :
    P.Mirrors true (closing P.first r) (closing P.second r') := by
  obtain ⟨root, rest, hShort⟩ := r
  obtain ⟨root', rest', hShort'⟩ := r'
  obtain rfl : root' = root := hValue
  rcases Alike.cases hRest with ⟨hTail, hTail', hTails⟩ | ⟨t, more, more', -, rfl, rfl, hMore⟩
  · have hNoClose {last : Token} (hLast : last.kind = .endOfInput) :
        last.kind ≠ .rightParenthesis := by simp [hLast]
    dsimp only at hTails
    cases hTails with
    | endless hLast =>
      rw [closing, closing, Context.missingEnd, Context.missingEnd, hLast]
      exact .fault _
    | both hLast more more' =>
      rw [closing, closing, if_neg (hNoClose hLast), if_neg (hNoClose hLast)]
      exact .fault _
    | first hLast =>
      rw [closing, closing, if_neg (hNoClose hLast)]
      exact .spent hTail hTail' rfl
  · rw [closing, closing]
    by_cases hClose : t.kind = .rightParenthesis
    · rw [if_pos hClose, if_pos hClose]
      exact .ok rfl hMore
    · rw [if_neg hClose, if_neg hClose]
      exact .fault _

-- The recursion is that of the productions themselves: on what is left of the first list.
mutual

theorem piece_mirrors (role : WordRole) (depth : Nat) (t : Token) {more more' : List Token}
    (h : P.Alike more more') :
    P.Mirrors true (piece P.first role depth t more) (piece P.second role depth t more') := by
  unfold piece
  rw [h.startsSubstitution]
  split
  · refine .enter depth t ((quoted_mirrors t h).keep fun r r' hValue => ?_)
    exact ⟨_, _, rfl, rfl, by simp [hValue], rfl, rfl⟩
  split
  · rename_i hStart
    have hParen : more.head?.map (·.kind) = some .leftParenthesis := by
      simpa using (Bool.and_eq_true_iff.1 hStart).2
    exact (substitution_mirrors depth t (h.drop (by simp) hParen)).within
  · exact .ok rfl h
termination_by 8 * (more.length + 1) + 0
decreasing_by all_goals simp; try omega

theorem substitution_mirrors (depth : Nat) (dollar : Token) {inside inside' : List Token}
    (h : P.Alike inside inside') :
    P.Mirrors true (substitution P.first depth dollar inside)
      (substitution P.second depth dollar inside') := by
  unfold substitution
  refine .enter depth dollar ((sequence_mirrors true (depth + 1) h).bind ?_ ?_)
  · exact fun r r' hValue hRest => closing_mirrors hValue hRest
  · rintro ⟨root, _, hShort⟩ rfl
    rfl
termination_by 8 * inside.length + 7
decreasing_by all_goals simp; try omega

theorem pieces_mirrors (role : WordRole) (depth : Nat) {ts us : List Token}
    (h : P.Alike ts us) :
    P.Mirrors true (pieces P.first role depth ts) (pieces P.second role depth us) := by
  refine h.elim (F := (pieces · role depth)) (fun c => by rw [pieces])
    (fun last hLast => pieces_halts hLast depth role) ?_
  intro t more more' hKind hLength hMore
  unfold pieces
  rw [hMore.atWordEnd]
  split
  · exact .ok rfl (alike_cons hKind hMore)
  refine (piece_mirrors role depth t hMore).bind (fun first first' hFirst hRest => ?_) ?_
  · have hShort := first.short
    exact (pieces_mirrors role depth hRest).keep fun r r' hValue =>
      ⟨_, _, rfl, rfl, by rw [hFirst, hValue], rfl, rfl⟩
  · rintro ⟨first, _, hShort⟩ rfl
    rw [pieces]
    rfl
termination_by 8 * ts.length + 1
decreasing_by all_goals simp; try omega

theorem word_mirrors (role : WordRole) (depth : Nat) (t : Token) {more more' : List Token}
    (h : P.Alike more more') :
    P.Mirrors true (word P.first role depth t more) (word P.second role depth t more') := by
  unfold word
  refine .enter depth t ((piece_mirrors role (depth + 1) t h).bind ?_ ?_)
  · intro first first' hFirst hRest
    have hShort := first.short
    exact (pieces_mirrors role (depth + 1) hRest).keep fun r r' hValue =>
      ⟨_, _, rfl, rfl, by rw [hFirst, hValue], rfl, rfl⟩
  · rintro ⟨first, _, hShort⟩ rfl
    rw [pieces]
    rfl
termination_by 8 * (more.length + 1) + 1
decreasing_by all_goals simp; try omega

theorem assignment_mirrors (depth : Nat) (name : Token) {ts us : List Token}
    (h : P.Alike ts us) :
    P.Mirrors true (assignment P.first depth name ts) (assignment P.second depth name us) := by
  rcases h.cases with ⟨hTail, hTail', hTails⟩ | ⟨t, more, more', hKind, hTs, hUs, hMore⟩
  · cases hTails with
    | endless hLast =>
      rw [assignment, assignment, Context.missingEnd, Context.missingEnd, hLast]
      exact .enter depth name (.fault _)
    | both hLast more more' =>
      rw [assignment, assignment, if_pos (atWordEnd_end hLast more),
        if_pos (atWordEnd_end hLast more')]
      exact .enter depth name (.ok rfl h)
    | first hLast =>
      rw [assignment, assignment, if_pos (atWordEnd_end hLast [])]
      exact .enter depth name (.spent hTail hTail' rfl)
  · have hLength : ts.length = more.length + 1 := by rw [hTs, List.length_cons]
    rw [hTs, hUs, assignment, assignment, hMore.atWordEnd]
    refine .enter depth name ?_
    split
    · exact .ok rfl (alike_cons hKind hMore)
    · exact (word_mirrors .value (depth + 1) t hMore).keep fun r r' hValue =>
        ⟨_, _, rfl, rfl, by rw [hValue], rfl, rfl⟩
termination_by 8 * (ts.length + 1) + 1
decreasing_by all_goals simp; try omega

theorem part_mirrors (depth : Nat) (t : Token) {more more' : List Token}
    (h : P.Alike more more') :
    P.Mirrors true (part P.first depth t more) (part P.second depth t more') := by
  unfold part
  rw [h.startsAssignment]
  split
  · rename_i hStart
    have hEquals : more.head?.map (·.kind) = some .equals := by
      simpa using (Bool.and_eq_true_iff.1 (Bool.and_eq_true_iff.1 hStart).1).2
    exact (assignment_mirrors depth t (h.drop (by simp) hEquals)).within
  · exact word_mirrors .argument depth t h
termination_by 8 * (more.length + 1) + 2
decreasing_by all_goals simp; try omega

theorem parts_mirrors (depth : Nat) {ts us : List Token} (h : P.Alike ts us) :
    P.Mirrors true (parts P.first depth ts) (parts P.second depth us) := by
  refine h.elim (F := (parts · depth)) (fun c => by rw [parts])
    (fun last hLast => parts_halts hLast depth) ?_
  intro t more more' hKind hLength hMore
  cases commandFront t more with
  | ends hEnds =>
    rw [parts_ends hEnds, parts_ends hEnds]
    exact .ok rfl (alike_cons hKind hMore)
  | space hSpace =>
    rw [parts_space hSpace, parts_space hSpace]
    exact (parts_mirrors depth hMore).within
  | continuation _ hContinuation =>
    rw [parts_continuation hContinuation,
      parts_continuation ((hMore.startsContinuation t).trans hContinuation)]
    exact (parts_mirrors depth (hMore.drop_of_continuation hContinuation)).within
  | word hOpen =>
    rw [parts_word hOpen, parts_word ((hMore.atWordEnd t).trans hOpen)]
    refine (part_mirrors depth t hMore).bind (fun first first' hFirst hRest => ?_) ?_
    · have hShort := first.short
      exact (parts_mirrors depth hRest).keep fun r r' hValue =>
        ⟨_, _, rfl, rfl, by rw [hFirst, hValue], rfl, rfl⟩
    · rintro ⟨first, _, hShort⟩ rfl
      rw [parts]
      rfl
termination_by 8 * ts.length + 3
decreasing_by all_goals simp; try omega

theorem command_mirrors (depth : Nat) (t : Token) {more more' : List Token}
    (h : P.Alike more more') :
    P.Mirrors true (command P.first depth t more) (command P.second depth t more') := by
  unfold command
  refine .enter depth t ((part_mirrors (depth + 1) t h).bind ?_ ?_)
  · intro first first' hFirst hRest
    have hShort := first.short
    exact (parts_mirrors (depth + 1) hRest).keep fun r r' hValue =>
      ⟨_, _, rfl, rfl, by rw [hFirst, hValue], rfl, rfl⟩
  · rintro ⟨first, _, hShort⟩ rfl
    rw [parts]
    rfl
termination_by 8 * (more.length + 1) + 3
decreasing_by all_goals simp; try omega

theorem operand_mirrors (nested : Bool) (depth : Nat) (operator : Token) {ts us : List Token}
    (h : P.Alike ts us) :
    P.Mirrors true (operand P.first nested depth operator ts)
      (operand P.second nested depth operator us) := by
  refine h.elim (F := (operand · nested depth operator)) (fun c => by rw [operand])
    (fun last hLast => operand_halts hLast depth nested operator) ?_
  intro t more more' hKind hLength hMore
  cases front t more with
  | space hSpace =>
    rw [operand_space hSpace, operand_space hSpace]
    exact (operand_mirrors nested depth operator hMore).within
  | continuation _ hContinuation =>
    rw [operand_continuation hContinuation,
      operand_continuation ((hMore.startsContinuation t).trans hContinuation)]
    have hRest := hMore.drop_of_continuation hContinuation
    exact (operand_mirrors nested depth operator hRest).within
  | separator hSeparator =>
    by_cases hNewline : t.kind = .newline
    · rw [operand_newline hNewline, operand_newline hNewline]
      exact (operand_mirrors nested depth operator hMore).within
    · have hSemicolon := eq_semicolon hSeparator hNewline
      rw [operand_semicolon hSemicolon, operand_semicolon hSemicolon]
      exact .fault _
  | operator hOperator =>
    rw [operand_operator hOperator, operand_operator hOperator]
    exact .fault _
  | finish hEnd => exact absurd hEnd hKind
  | close hParen =>
    rw [operand_close hParen, operand_close hParen]
    cases nested <;> exact .fault _
  | word hOpen =>
    rw [operand_word hOpen, operand_word ((hMore.atWordEnd t).trans hOpen)]
    exact (command_mirrors depth t hMore).within
termination_by 8 * ts.length + 4
decreasing_by all_goals simp; try omega

theorem chain_mirrors (nested : Bool) (depth : Nat) (item : Item) {ts us : List Token}
    (h : P.Alike ts us) :
    P.Mirrors true (chain P.first nested depth item ts)
      (chain P.second nested depth item us) := by
  refine h.elim (F := (chain · nested depth item)) (fun c => by rw [chain])
    (fun last hLast => chain_halts hLast depth nested item) ?_
  intro t more more' hKind hLength hMore
  unfold chain
  split
  · refine .bounded item.operands t (fun _ => rfl) ?_
    refine (operand_mirrors nested depth t hMore).bind (fun next next' hNext hRest => ?_) ?_
    · have hShort := next.short
      rw [hNext]
      exact (chain_mirrors nested depth (item.join t.kind next.value) hRest).within
    · rintro ⟨next, _, hShort⟩ rfl
      rw [chain]
      rfl
  · exact .ok rfl (alike_cons hKind hMore)
termination_by 8 * ts.length + 5
decreasing_by all_goals simp; try omega

theorem items_mirrors (nested : Bool) (depth : Nat) (done : List Tree) {ts us : List Token}
    (h : P.Alike ts us) :
    P.Mirrors nested (items P.first nested depth done ts)
      (items P.second nested depth done us) := by
  refine h.elim (F := (items · nested depth done)) (fun c => by rw [items])
    (fun last hLast => items_halts hLast depth nested done) ?_
  intro t more more' hKind hLength hMore
  cases front t more with
  | space hSpace =>
    rw [items_space hSpace, items_space hSpace]
    exact (items_mirrors nested depth done hMore).within
  | continuation _ hContinuation =>
    rw [items_continuation hContinuation,
      items_continuation ((hMore.startsContinuation t).trans hContinuation)]
    have hRest := hMore.drop_of_continuation hContinuation
    exact (items_mirrors nested depth done hRest).within
  | separator hSeparator =>
    rw [items_separator hSeparator, items_separator hSeparator]
    exact (items_mirrors nested depth done hMore).within
  | operator hOperator =>
    rw [items_operator hOperator, items_operator hOperator]
    exact .fault _
  | finish hEnd => exact absurd hEnd hKind
  | close hParen =>
    rw [items_close hParen, items_close hParen]
    cases nested with
    | false => exact .fault _
    | true =>
      cases done with
      | nil => exact .fault _
      | cons first others => exact .ok rfl (alike_cons hKind hMore)
  | word hOpen =>
    rw [items_word hOpen, items_word ((hMore.atWordEnd t).trans hOpen)]
    refine (command_mirrors depth t hMore).bind (fun first first' hFirst hBehind => ?_) ?_
    · have hFirstShort := first.short
      rw [hFirst]
      refine (chain_mirrors nested depth (.single first.value) hBehind).bind
        (fun item item' hItem hRest => ?_) ?_
      · have hItemShort := item.short
        rw [hItem]
        exact (items_mirrors nested depth (done ++ [item.value]) hRest).within
      · rintro ⟨item, _, hShort⟩ rfl
        rw [items]
        rfl
    · rintro ⟨first, _, hShort⟩ rfl
      rw [chain]
      rfl
termination_by 8 * ts.length + 5
decreasing_by all_goals simp; try omega

theorem sequence_mirrors (nested : Bool) (depth : Nat) {ts us : List Token}
    (h : P.Alike ts us) :
    P.Mirrors nested (sequence P.first nested depth ts) (sequence P.second nested depth us) := by
  have hItems := items_mirrors nested (depth + 1) [] h
  rcases h.cases with ⟨hTail, hTail', hTails⟩ | ⟨t, more, more', -, rfl, rfl, -⟩
  · cases hTails with
    | endless hLast =>
      rw [sequence, sequence, Context.missingEnd, Context.missingEnd, hLast]
      exact .fault _
    | both hLast more more' =>
      rw [sequence, sequence]
      exact .enter depth _ hItems
    | first hLast =>
      rw [sequence, sequence]
      exact .spent hTail hTail' (.enter _ depth ((items_halts hLast _ nested []).spent _))
  · rw [sequence, sequence]
    exact .enter depth t hItems
termination_by 8 * ts.length + 6
decreasing_by all_goals simp; try omega

end

end Pair

-- ---------------------------------------------------------------------------
-- Whole lists
-- ---------------------------------------------------------------------------

/-- Two whole lists are read by reading their sequences, the second one of which mirrors the
first, and looking at the ends. -/
theorem parseTokens_parallel {left tail tail' : List Token} {limit limit' : Int}
    (hLeft : Endless left) (hLimit : limit ≤ limit')
    (hTails : Tails ⟨limit, (left ++ tail).getLast?⟩ ⟨limit', (left ++ tail').getLast?⟩
      tail tail') :
    ∃ (x : Except Fault (Reading Tree (left ++ tail).length))
      (y : Except Fault (Reading Tree (left ++ tail').length)),
      Pair.Mirrors ⟨_, _, _, _, hTails, hLimit⟩ false x y ∧
      parseTokens (left ++ tail) limit = x >>= checkEnd (left ++ tail) ∧
      parseTokens (left ++ tail') limit' = y >>= checkEnd (left ++ tail') :=
  ⟨_, _, Pair.sequence_mirrors false 0 ⟨left, hLeft, rfl, rfl⟩, rfl, rfl⟩

end ShellReader.Descent
