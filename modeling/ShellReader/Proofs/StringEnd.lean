import Mathlib.Algebra.Group.Nat.Even
import Mathlib.Logic.Relation
import Mathlib.Order.Bounds.Basic
import ShellReader.Proofs.Quoting

/-!
# ShellReader — where a string ends

A quotation reads to the first quote that closes it. Between single quotes that is the next
single quote. Between double quotes a backslash takes a quote or a backslash behind it along,
so the quotation pairs backslashes from the left; seen from the quote, the string ends where the
backslashes right before it can be paired up, that is, where their number is even.

The two views agree wherever the quotation stands, because a run of backslashes that is cut off
two at a time keeps its parity (`closes_escape`), and a backslash that takes nothing along has
no quote behind it (`closes_plain`).

* `backslashesBefore` — the backslashes right before a place;
* `ClosesAt` — a quote closes the string that is opened at a place;
* `Machine.Works` — a production reads on while it is on top of the stack.

## Results

* `Descent.quoted_ends` — recursive descent reads a string to the first quote that closes it, to
  an end before that, or to the last token.
* `Machine.quotation_works` — the machine does so, step by step, and touches nothing else.
* `Machine.spawn_quotation_ends` — both of it, for a quotation that is opened in any machine.
-/

namespace ShellReader

open Token (Kind)

-- ---------------------------------------------------------------------------
-- Backslashes before a place
-- ---------------------------------------------------------------------------

/-- The number of backslashes at the end of a list. -/
def trailingBackslashes (ts : List Token) : Nat :=
  (ts.reverse.takeWhile (·.kind == .backslash)).length

/-- The number of backslashes right before the place `j`, as far as they stand behind the
place `p`. -/
def backslashesBefore (ts : List Token) (p j : Nat) : Nat :=
  trailingBackslashes ((ts.take j).drop (p + 1))

/-- The token at the place `j` closes a string that a quote of the kind `quote` opens at the
place `p`, unless something before it does: it is such a quote and, between double quotes, the
backslashes right before it are even in number. -/
def ClosesAt (ts : List Token) (p : Nat) (quote : Kind) (j : Nat) : Prop :=
  p < j ∧ ts[j]?.map (·.kind) = some quote ∧
    (quote = .singleQuote ∨ Even (backslashesBefore ts p j))

/-- There is an end at the place `e`, behind the place `p`. -/
def EndsAt (ts : List Token) (p : Nat) (e : Nat) : Prop :=
  p < e ∧ ts[e]?.map (·.kind) = some .endOfInput

instance (ts : List Token) (p : Nat) (quote : Kind) (j : Nat) :
    Decidable (ClosesAt ts p quote j) :=
  inferInstanceAs (Decidable (_ ∧ _ ∧ _))

instance (ts : List Token) (p e : Nat) : Decidable (EndsAt ts p e) :=
  inferInstanceAs (Decidable (_ ∧ _))

variable {t u : Token} {ts more : List Token} {quote : Kind} {i n : Nat}

theorem trailingBackslashes_nil : trailingBackslashes [] = 0 := rfl

/-- A token in front counts if it is a backslash and nothing but backslashes is behind it. -/
theorem trailingBackslashes_cons (t : Token) (ts : List Token) :
    trailingBackslashes (t :: ts) = trailingBackslashes ts +
      if t.kind = .backslash ∧ ∀ s ∈ ts, s.kind = .backslash then 1 else 0 := by
  have hAll : (ts.reverse.takeWhile (·.kind == .backslash)).length = ts.reverse.length ↔
      ∀ s ∈ ts, s.kind = .backslash := by
    constructor
    · intro hLength
      have hSelf := (List.takeWhile_prefix _).eq_of_length hLength
      simpa using List.takeWhile_eq_self_iff.1 hSelf
    · intro hRun
      rw [List.takeWhile_eq_self_iff.2 (by simpa using hRun)]
  rw [trailingBackslashes, trailingBackslashes, List.reverse_cons, List.takeWhile_append]
  by_cases hRun : ∀ s ∈ ts, s.kind = .backslash
  · rw [if_pos (hAll.2 hRun), hAll.2 hRun]
    by_cases hKind : t.kind = .backslash
    · rw [if_pos ⟨hKind, hRun⟩]
      simp [hKind]
    · rw [if_neg fun h => hKind h.1]
      simp [hKind]
  · rw [if_neg (mt hAll.1 hRun), if_neg (fun h => hRun h.2), Nat.add_zero]

/-- Other tokens in front do not count. -/
theorem trailingBackslashes_cons_of_ne (h : t.kind ≠ .backslash) (ts : List Token) :
    trailingBackslashes (t :: ts) = trailingBackslashes ts := by
  rw [trailingBackslashes_cons, if_neg fun hRun => h hRun.1, Nat.add_zero]

/-- Nor does a token in front of another token. -/
theorem trailingBackslashes_cons_cons_of_ne (t : Token) (h : u.kind ≠ .backslash)
    (ts : List Token) : trailingBackslashes (t :: u :: ts) = trailingBackslashes ts := by
  rw [trailingBackslashes_cons, if_neg fun hRun => h (hRun.2 u List.mem_cons_self),
    trailingBackslashes_cons_of_ne h, Nat.add_zero]

/-- Two backslashes in front make no odd number even, nor an even one odd. -/
theorem even_trailingBackslashes_pair (ht : t.kind = .backslash) (hu : u.kind = .backslash)
    (ts : List Token) :
    Even (trailingBackslashes (t :: u :: ts)) ↔ Even (trailingBackslashes ts) := by
  rw [trailingBackslashes_cons, trailingBackslashes_cons]
  by_cases hRun : ∀ s ∈ ts, s.kind = .backslash
  · have hBoth : ∀ s ∈ u :: ts, s.kind = .backslash := List.forall_mem_cons.2 ⟨hu, hRun⟩
    rw [if_pos ⟨hu, hRun⟩, if_pos ⟨ht, hBoth⟩, Nat.even_add_one, Nat.even_add_one, not_not]
  · rw [if_neg fun h => hRun h.2, if_neg fun h => hRun (List.forall_mem_cons.1 h.2).2]
    rfl

-- ---------------------------------------------------------------------------
-- Quotes that close
-- ---------------------------------------------------------------------------

/-- The token at the place `i` of what stands behind an opening quote closes the string. -/
def Closes (quote : Kind) (ts : List Token) (i : Nat) : Prop :=
  ts[i]?.map (·.kind) = some quote ∧
    (quote = .singleQuote ∨ Even (trailingBackslashes (ts.take i)))

/-- A token behind an opening quote, counted from the start of the list. -/
theorem getElem?_behind (before : List Token) (opener : Token) (ts : List Token) (i : Nat) :
    (before ++ opener :: ts)[before.length + 1 + i]? = ts[i]? := by
  rw [List.getElem?_append_right (by omega), Nat.add_assoc, Nat.add_sub_cancel_left,
    Nat.add_comm, List.getElem?_cons_succ]

/-- The tokens between an opening quote and a place behind it. -/
theorem drop_take_behind (before : List Token) (opener : Token) (ts : List Token) (i : Nat) :
    ((before ++ opener :: ts).take (before.length + 1 + i)).drop (before.length + 1) =
      ts.take i := by
  have hSplit : before ++ opener :: ts = (before ++ [opener]) ++ ts := by simp
  have hLength : before.length + 1 = (before ++ [opener]).length := by simp
  rw [hSplit, hLength, List.take_length_add_append, List.drop_left]

/-- The same as `ClosesAt`, counted from behind the opening quote. -/
theorem closesAt_iff {before : List Token} {opener : Token} {j : Nat} :
    ClosesAt (before ++ opener :: ts) before.length quote j ↔
      ∃ i, j = before.length + 1 + i ∧ Closes quote ts i := by
  have hShift (i : Nat) : ClosesAt (before ++ opener :: ts) before.length quote
      (before.length + 1 + i) ↔ Closes quote ts i := by
    rw [ClosesAt, Closes, backslashesBefore, getElem?_behind, drop_take_behind]
    exact and_iff_right (by omega)
  constructor
  · intro h
    have hBehind := h.1
    obtain ⟨i, rfl⟩ : ∃ i, j = before.length + 1 + i := ⟨j - (before.length + 1), by omega⟩
    exact ⟨i, rfl, (hShift i).1 h⟩
  · rintro ⟨i, rfl, h⟩
    exact (hShift i).2 h

theorem closes_zero : Closes quote (t :: ts) 0 ↔ t.kind = quote := by
  simp [Closes, trailingBackslashes_nil]

/-- A token that takes nothing along changes nothing for the quotes behind it. -/
theorem closes_plain (h : ¬ (quote = .doubleQuote ∧ Production.startsEscape t ts = true))
    (hQuote : quote.isQuote = true) : Closes quote (t :: ts) (i + 1) ↔ Closes quote ts i := by
  rw [Closes, Closes, List.getElem?_cons_succ, List.take_succ_cons]
  refine and_congr_right fun hKind => ?_
  rcases Quoting.eq_of_isQuote hQuote with rfl | rfl
  · simp
  by_cases ht : t.kind = .backslash
  · -- The token behind the backslash is neither a backslash nor the quote in question.
    cases ts with
    | nil => simp at hKind
    | cons u ts =>
      obtain ⟨hNoQuote, hNoBackslash⟩ : u.kind ≠ .doubleQuote ∧ u.kind ≠ .backslash := by
        simpa [Production.startsEscape, ht] using h
      cases i with
      | zero => simp [hNoQuote] at hKind
      | succ i =>
        rw [List.take_succ_cons, trailingBackslashes_cons_cons_of_ne t hNoBackslash,
          trailingBackslashes_cons_of_ne hNoBackslash]
  · rw [trailingBackslashes_cons_of_ne ht]

/-- An escape pair changes nothing for the quotes behind it. -/
theorem closes_escape (h : Production.startsEscape t (u :: ts) = true) :
    Closes .doubleQuote (t :: u :: ts) (i + 2) ↔ Closes .doubleQuote ts i := by
  obtain ⟨ht, hu⟩ : t.kind = .backslash ∧ (u.kind = .doubleQuote ∨ u.kind = .backslash) := by
    simpa [Production.startsEscape] using h
  rw [Closes, Closes, List.getElem?_cons_succ, List.getElem?_cons_succ, List.take_succ_cons,
    List.take_succ_cons]
  rcases hu with hu | hu
  · rw [trailingBackslashes_cons_cons_of_ne t (by simp [hu])]
  · rw [even_trailingBackslashes_pair ht hu]

/-- The second token of an escape pair closes nothing. -/
theorem not_closes_escape (h : Production.startsEscape t (u :: ts) = true) :
    ¬ Closes .doubleQuote (t :: u :: ts) 1 := by
  obtain ⟨ht, -⟩ : t.kind = .backslash ∧ (u.kind = .doubleQuote ∨ u.kind = .backslash) := by
    simpa [Production.startsEscape] using h
  rintro ⟨-, hSingle | hEven⟩
  · cases hSingle
  · simp [trailingBackslashes_cons, trailingBackslashes_nil, ht] at hEven

-- ---------------------------------------------------------------------------
-- Recursive descent
-- ---------------------------------------------------------------------------

/-- Neither an end nor a quote that closes the string is among the first `n` tokens. -/
def Passes (quote : Kind) (ts : List Token) (n : Nat) : Prop :=
  ∀ i < n, ts[i]?.map (·.kind) ≠ some .endOfInput ∧ ¬ Closes quote ts i

theorem passes_zero : Passes quote ts 0 := fun _ h => absurd h (Nat.not_lt_zero _)

/-- One token more in front. -/
theorem Passes.plain (h : Passes quote ts n) (hQuote : quote.isQuote = true)
    (hEnd : t.kind ≠ .endOfInput) (hClose : t.kind ≠ quote)
    (hEscape : ¬ (quote = .doubleQuote ∧ Production.startsEscape t ts = true)) :
    Passes quote (t :: ts) (n + 1) := by
  intro i hi
  cases i with
  | zero => exact ⟨by simpa using hEnd, mt closes_zero.1 hClose⟩
  | succ i => rw [List.getElem?_cons_succ, closes_plain hEscape hQuote]; exact h i (by omega)

/-- An escape pair more in front. -/
theorem Passes.escape (h : Passes .doubleQuote ts n)
    (hEscape : Production.startsEscape t (u :: ts) = true) :
    Passes .doubleQuote (t :: u :: ts) (n + 2) := by
  obtain ⟨ht, hu⟩ : t.kind = .backslash ∧ (u.kind = .doubleQuote ∨ u.kind = .backslash) := by
    simpa [Production.startsEscape] using hEscape
  intro i hi
  obtain _ | _ | i := i
  · exact ⟨by simp [ht], mt closes_zero.1 (by simp [ht])⟩
  · exact ⟨by rcases hu with hu | hu <;> simp [hu], not_closes_escape hEscape⟩
  · rw [List.getElem?_cons_succ, List.getElem?_cons_succ, closes_escape hEscape]
    exact h i (by omega)

section Places

variable {before : List Token} {opener : Token} {j : Nat}

/-- What closes the string is behind what is passed. -/
theorem Passes.le_of_closesAt (h : Passes quote ts n)
    (hj : ClosesAt (before ++ opener :: ts) before.length quote j) :
    before.length + 1 + n ≤ j := by
  obtain ⟨i, rfl, hCloses⟩ := closesAt_iff.1 hj
  exact Nat.add_le_add_left (Nat.le_of_not_lt fun hi => (h i hi).2 hCloses) _

/-- So is every end behind the opening quote. -/
theorem Passes.le_of_endsAt (h : Passes quote ts n)
    (hj : EndsAt (before ++ opener :: ts) before.length j) : before.length + 1 + n ≤ j := by
  obtain ⟨hBehind, hEnd⟩ := hj
  obtain ⟨i, rfl⟩ : ∃ i, j = before.length + 1 + i := ⟨j - (before.length + 1), by omega⟩
  rw [getElem?_behind] at hEnd
  exact Nat.add_le_add_left (Nat.le_of_not_lt fun hi => (h i hi).1 hEnd) _

end Places

namespace Descent

/-- A reading of the tokens behind an opening quote: it goes to the first quote that closes the
string, to an end before that, or to where there are no tokens any more. -/
def EndsString (c : Context) (opener : Token) (ts : List Token) {k : Nat}
    (r : Except Fault (Reading (List Token) k)) : Prop :=
  ∃ n, Passes opener.kind ts n ∧
    match r with
    | .ok read => Closes opener.kind ts n ∧ read.value = ts.take n ∧ read.rest = ts.drop (n + 1)
    | .error fault =>
      (∃ t, ts[n]? = some t ∧ t.kind = .endOfInput ∧
        fault = .atToken t (.openString opener.text)) ∨
      (n = ts.length ∧ fault = c.missingEnd)

variable {c : Context} {opener : Token} {k k' : Nat}

/-- A reading goes on behind tokens that are passed. -/
theorem EndsString.behind (front : List Token) {r : Except Fault (Reading (List Token) k)}
    (h : EndsString c opener ts r)
    (hPasses : ∀ n, Passes opener.kind ts n →
      Passes opener.kind (front ++ ts) (front.length + n))
    (hCloses : ∀ n, Closes opener.kind ts n →
      Closes opener.kind (front ++ ts) (front.length + n))
    {next : Reading (List Token) k → Reading (List Token) k'}
    (hValue : ∀ read, (next read).value = front ++ read.value)
    (hRest : ∀ read, (next read).rest = read.rest) :
    EndsString c opener (front ++ ts) (r >>= fun read => pure (next read)) := by
  obtain ⟨n, hn, h⟩ := h
  refine ⟨front.length + n, hPasses n hn, ?_⟩
  cases r with
  | ok read =>
    obtain ⟨hClose, hTake, hDrop⟩ := h
    refine ⟨hCloses n hClose, ?_, ?_⟩
    · rw [hValue, hTake, List.take_length_add_append]
    · rw [hRest, hDrop, Nat.add_assoc, List.drop_length_add_append]
  | error fault =>
    rcases h with ⟨t, ht, hEnd, hFault⟩ | ⟨rfl, hFault⟩
    · refine .inl ⟨t, ?_, hEnd, hFault⟩
      rw [List.getElem?_append_right (Nat.le_add_right _ _), Nat.add_sub_cancel_left, ht]
    · exact .inr ⟨List.length_append.symm, hFault⟩

/-- Recursive descent reads a string to the first quote that closes it, if no end comes before
that. -/
theorem quoted_ends (c : Context) (hQuote : opener.kind.isQuote = true) (ts : List Token) :
    EndsString c opener ts (quoted c opener ts) := by
  fun_induction quoted c opener ts with
  | case1 => exact ⟨0, passes_zero, .inr ⟨rfl, rfl⟩⟩
  | case2 t more hEnd => exact ⟨0, passes_zero, .inl ⟨t, rfl, hEnd, rfl⟩⟩
  | case3 t more hEnd hClose => exact ⟨0, passes_zero, closes_zero.2 hClose, rfl, rfl⟩
  | case4 t more hEnd hClose hEscape ih =>
    obtain ⟨hOpener, hEscape⟩ := hEscape
    obtain _ | ⟨u, more⟩ := more
    · simp [Production.startsEscape] at hEscape
    refine EndsString.behind [t, u] ih ?_ ?_ (fun _ => rfl) fun _ => rfl
    · intro n hn
      rw [hOpener] at hn ⊢
      have hPasses := hn.escape hEscape
      rwa [Nat.add_comm] at hPasses
    · intro n hn
      rw [hOpener] at hn ⊢
      have hCloses := (closes_escape hEscape).2 hn
      rwa [Nat.add_comm] at hCloses
  | case5 t more hEnd hClose hEscape ih =>
    refine EndsString.behind [t] ih ?_ ?_ (fun _ => rfl) fun _ => rfl
    · intro n hn
      have hPasses := hn.plain hQuote hEnd hClose hEscape
      rwa [Nat.add_comm] at hPasses
    · intro n hn
      have hCloses := (closes_plain hEscape hQuote).2 hn
      rwa [Nat.add_comm] at hCloses

/-- A string that is read ends at the first quote that closes it, and no end comes before. -/
theorem EndsString.of_ok {read : Reading (List Token) k} (h : EndsString c opener ts (.ok read))
    (before : List Token) :
    ∃ n, n < ts.length ∧ read.value = ts.take n ∧ read.rest = ts.drop (n + 1) ∧
      IsLeast {j | ClosesAt (before ++ opener :: ts) before.length opener.kind j}
        (before.length + 1 + n) ∧
      ∀ e, EndsAt (before ++ opener :: ts) before.length e → before.length + 1 + n ≤ e := by
  obtain ⟨n, hPasses, hCloses, hValue, hRest⟩ := h
  have hn : n < ts.length := by
    apply Nat.lt_of_not_le
    intro hLong
    rw [Closes, List.getElem?_eq_none hLong] at hCloses
    cases hCloses.1
  exact ⟨n, hn, hValue, hRest, ⟨closesAt_iff.2 ⟨n, rfl, hCloses⟩,
    fun _ hj => hPasses.le_of_closesAt hj⟩, fun _ he => hPasses.le_of_endsAt he⟩

/-- A string that is not read has an end before whatever would close it, or there are neither
ends nor quotes that would. -/
theorem EndsString.of_error {fault : Fault}
    (h : EndsString c opener ts (.error fault : Except Fault (Reading (List Token) k)))
    (hQuote : opener.kind.isQuote = true) (before : List Token) :
    (∃ e t, IsLeast {e | EndsAt (before ++ opener :: ts) before.length e} e ∧
      (before ++ opener :: ts)[e]? = some t ∧ fault = .atToken t (.openString opener.text) ∧
      ∀ j, ClosesAt (before ++ opener :: ts) before.length opener.kind j → e < j) ∨
    (fault = c.missingEnd ∧ (∀ e, ¬ EndsAt (before ++ opener :: ts) before.length e) ∧
      ∀ j, ¬ ClosesAt (before ++ opener :: ts) before.length opener.kind j) := by
  obtain ⟨n, hPasses, ⟨t, ht, hEnd, hFault⟩ | ⟨rfl, hFault⟩⟩ := h
  · have hAt : (before ++ opener :: ts)[before.length + 1 + n]? = some t :=
      (getElem?_behind ..).trans ht
    have hKind : (before ++ opener :: ts)[before.length + 1 + n]?.map (·.kind) =
        some .endOfInput := by rw [hAt, Option.map_some, hEnd]
    refine .inl ⟨before.length + 1 + n, t, ⟨⟨by omega, hKind⟩,
      fun _ he => hPasses.le_of_endsAt he⟩, hAt, hFault, fun j hj => ?_⟩
    have hNe : before.length + 1 + n ≠ j := by
      rintro rfl
      rw [← Option.some.inj (hKind.symm.trans hj.2.1)] at hQuote
      cases hQuote
    exact Nat.lt_of_le_of_ne (hPasses.le_of_closesAt hj) hNe
  · have hNone {j : Nat} (hj : before.length + 1 + ts.length ≤ j) :
        (before ++ opener :: ts)[j]? = none :=
      List.getElem?_eq_none (by simp; omega)
    refine .inr ⟨hFault, fun e he => ?_, fun j hj => ?_⟩
    · have hKind := he.2
      rw [hNone (hPasses.le_of_endsAt he)] at hKind
      cases hKind
    · have hKind := hj.2.1
      rw [hNone (hPasses.le_of_closesAt hj)] at hKind
      cases hKind

end Descent

-- ---------------------------------------------------------------------------
-- The machine
-- ---------------------------------------------------------------------------

namespace Machine

open Descent (Context Reading quoted stringTree)

variable {m m' : Machine} {c : Context} {id : ProductionId} {below : List ProductionId}
  {opener : Token} {parts : List Token} {k k' : Nat}

/-- The production `id`, on top of the productions `below`, reads on step by step; it is on top
of them in every machine on the way but the last. -/
def Works (id : ProductionId) (below : List ProductionId) : Machine → Machine → Prop :=
  Relation.ReflTransGen fun m next => m.stack = id :: below ∧ handleTop m = .ok () next

/-- A quotation that has collected `parts` reads on as the result says: it closes with the tokens
of the result collected and leaves the others, or it fails and is still open then. -/
def WorksOut (m : Machine) (id : ProductionId) (below : List ProductionId) (opener : Token)
    (parts : List Token) (r : Except Fault (Reading (List Token) k)) : Prop :=
  match r with
  | .ok read => ∃ last, Works id below m last ∧ Reaches id m last ∧ last.stack = below ∧
      last.cursor.rest = read.rest ∧
      last.production id = .quotation (some opener) (parts ++ read.value)
  | .error fault => ∃ last left, Works id below m last ∧ last.stack = id :: below ∧
      handleTop last = .error (.fault fault) left

/-- A step in front. -/
theorem WorksOut.step {front : List Token} {r : Except Fault (Reading (List Token) k)}
    {next : Reading (List Token) k → Reading (List Token) k'} (hStack : m.stack = id :: below)
    (hTop : handleTop m = .ok () m') (hReaches : Reaches id m m')
    (h : WorksOut m' id below opener (parts ++ front) r)
    (hValue : ∀ read, (next read).value = front ++ read.value)
    (hRest : ∀ read, (next read).rest = read.rest) :
    WorksOut m id below opener parts (r >>= fun read => pure (next read)) := by
  cases r with
  | ok read =>
    obtain ⟨last, hWorks, hLast, hClosed, hLeft, hProduction⟩ := h
    refine ⟨last, .head ⟨hStack, hTop⟩ hWorks, hReaches.trans hLast, hClosed, ?_, ?_⟩
    · rw [hLeft, hRest]
    · rw [hProduction, hValue, List.append_assoc]
  | error fault =>
    obtain ⟨last, left, hWorks, hLast⟩ := h
    exact ⟨last, left, .head ⟨hStack, hTop⟩ hWorks, hLast⟩

/-- A quotation reads on as recursive descent does. -/
theorem quotation_works (h : At m c ts id (.quotation (some opener) parts) below) :
    WorksOut m id below opener parts (quoted c opener ts) := by
  fun_induction quoted c opener ts generalizing m parts with
  | case1 => exact ⟨m, _, .refl, h.stack, h.handleTop_starves rfl⟩
  | case2 t more hEnd =>
    have hr : Production.respondQuotation t more opener parts =
        .faultAt t (.openString opener.text) := by
      rw [Production.respondQuotation, if_pos hEnd]
    exact ⟨m, m, .refl, h.stack, h.handleTop_fails hr⟩
  | case3 t more hEnd hClose =>
    have hr : Production.respondQuotation t more opener parts =
        .leave 1 (.quotation (some opener) parts) := by
      rw [Production.respondQuotation, if_neg hEnd, if_pos hClose]
    obtain ⟨last, hTop, hReaches, hRest, hStack, hProduction⟩ := h.handleTop_leaves hr
    refine ⟨last, .single ⟨h.stack, hTop⟩, hReaches, hStack, hRest, ?_⟩
    rw [hProduction, List.append_nil]
  | case4 t more hEnd hClose hEscape ih =>
    have hr : Production.respondQuotation t more opener parts =
        .read 2 (.quotation (some opener) (parts ++ (t :: more).take 2)) := by
      rw [Production.respondQuotation, if_neg hEnd, if_neg hClose, if_pos hEscape]
    obtain ⟨next, hTop, hReaches, hNext⟩ := h.handleTop_stays hr
    exact (ih hNext).step h.stack hTop hReaches (fun _ => rfl) fun _ => rfl
  | case5 t more hEnd hClose hEscape ih =>
    have hr : Production.respondQuotation t more opener parts =
        .read 1 (.quotation (some opener) (parts ++ [t])) := by
      rw [Production.respondQuotation, if_neg hEnd, if_neg hClose, if_neg hEscape]
    obtain ⟨next, hTop, hReaches, hNext⟩ := h.handleTop_stays hr
    exact (ih hNext).step h.stack hTop hReaches (fun _ => rfl) fun _ => rfl

-- ---------------------------------------------------------------------------
-- Opening a quotation
-- ---------------------------------------------------------------------------

/-- The quotation that `m` opened to become `entered` reads up to the place `next`, closes and
stands for the string of `parts`. What `m` had on its stack and the productions it had made are
as they were. -/
structure ReadsString (m entered : Machine) (opener : Token) (parts : List Token) (next : Nat)
    (last : Machine) : Prop where
  works  : Works m.productions.length m.stack entered last
  stack  : last.stack = m.stack
  kept   : ∀ k < m.productions.length, last.production k = m.production k
  limit  : last.limit = m.limit
  tokens : last.cursor.tokens = m.cursor.tokens
  pos    : last.cursor.pos = next
  tree   : last.tree m.productions.length = .ok (stringTree opener parts)

/-- The quotation that `m` opened to become `entered` reads on and fails before it closes. -/
def LeavesOpen (m entered : Machine) (fault : Fault) : Prop :=
  ∃ last left, Works m.productions.length m.stack entered last ∧
    last.stack = m.productions.length :: m.stack ∧ handleTop last = .error (.fault fault) left

theorem pos_add_length_rest (cursor : Cursor) :
    cursor.pos + cursor.rest.length = cursor.tokens.length := by
  simp [Cursor.pos, Cursor.tokens]

/-- A machine whose latest step was to open a quotation. -/
theorem Entered.at_quotation {entered : Machine}
    (h : Entered m [.quotation (some opener) []] [m.productions.length] 1 entered)
    (hRest : m.cursor.rest = opener :: more) :
    At entered ⟨m.limit, m.cursor.tokens.getLast?⟩ more m.productions.length
      (.quotation (some opener) []) m.stack where
  limit := h.limit
  last := by rw [h.cursor, Cursor.tokens_advance]
  rest := by simp [h.cursor, hRest]
  stack := h.stack
  made := by simp [h.productions]
  production := h.production

/-- A quotation that works out has read its string. -/
theorem WorksOut.readsString {entered : Machine} {read : Reading (List Token) k}
    (h : WorksOut entered m.productions.length m.stack opener [] (.ok read))
    (hEntered : Entered m [.quotation (some opener) []] [m.productions.length] 1 entered)
    (hRest : m.cursor.rest = opener :: more) (hn : n < more.length)
    (hLeft : read.rest = more.drop (n + 1)) :
    ∃ last, ReadsString m entered opener read.value (m.cursor.pos + 1 + n + 1) last := by
  obtain ⟨last, hWorks, hReaches, hStack, hLast, hProduction⟩ := h
  have hMade : m.productions.length < last.productions.length := by
    have hLength := hReaches.length
    rw [hEntered.productions, List.length_append, List.length_singleton] at hLength
    exact hLength
  have hTokens : last.cursor.tokens = m.cursor.tokens := by
    rw [hReaches.tokens, hEntered.cursor, Cursor.tokens_advance]
  refine ⟨last, hWorks, hStack, ?_, hReaches.limit.trans hEntered.limit, hTokens, ?_, ?_⟩
  · intro k hk
    rw [hReaches.kept k (by simp [hEntered.productions]; omega) (by omega)]
    simp [production, hEntered.productions, List.getElem?_append_left hk]
  · have hBefore := pos_add_length_rest m.cursor
    have hAfter := pos_add_length_rest last.cursor
    rw [hTokens, ← hBefore, hLast, hLeft, hRest, List.length_drop, List.length_cons] at hAfter
    omega
  · exact (holds_quotation hMade (by simpa using hProduction)).tree

/-- **Where a string ends.** A quotation that is opened at a quote, in any machine with room for
it, reads to the first quote that closes it, if there is one and no end stands before it. The
machine is then right behind that quote, with nothing else touched, and the string has the tokens
between the two quotes as its parts. Otherwise the quotation is found open at the first end behind
its opening quote, or the list is found to have no end. -/
theorem spawn_quotation_ends {m : Machine} {opener : Token}
    (hCurrent : m.cursor.current = .ok opener) (hQuote : opener.kind.isQuote = true)
    (hRoom : m.stack.length < m.limit) :
    ∃ entered, spawn (.quotation none []) m = .ok m.productions.length entered ∧
      (∀ j, IsLeast {j | ClosesAt m.cursor.tokens m.cursor.pos opener.kind j} j →
        (¬ ∃ e < j, EndsAt m.cursor.tokens m.cursor.pos e) →
        ∃ last, ReadsString m entered opener
          ((m.cursor.tokens.take j).drop (m.cursor.pos + 1)) (j + 1) last) ∧
      ((¬ ∃ j, IsLeast {j | ClosesAt m.cursor.tokens m.cursor.pos opener.kind j} j ∧
          ¬ ∃ e < j, EndsAt m.cursor.tokens m.cursor.pos e) →
        (∀ e t, IsLeast {e | EndsAt m.cursor.tokens m.cursor.pos e} e →
          m.cursor.tokens[e]? = some t →
          LeavesOpen m entered (.atToken t (.openString opener.text))) ∧
        ((¬ ∃ e, EndsAt m.cursor.tokens m.cursor.pos e) →
          LeavesOpen m entered ⟨.missingEnd, m.cursor.tokens.getLast?⟩)) := by
  obtain ⟨more, hRest⟩ : ∃ more, m.cursor.rest = opener :: more := by
    rw [Cursor.current] at hCurrent
    split at hCurrent
    · rename_i t more hCons
      exact ⟨more, by rw [hCons, Except.ok.inj hCurrent]⟩
    · cases hCurrent
  obtain ⟨entered, hSpawn, hEntered⟩ := spawn_quotation hRest (by omega)
  refine ⟨entered, hSpawn, ?_⟩
  have hWorks := quotation_works (hEntered.at_quotation hRest)
  have hEnds := Descent.quoted_ends ⟨m.limit, m.cursor.tokens.getLast?⟩ hQuote more
  obtain ⟨before, hTokens, hPos⟩ : ∃ before,
      m.cursor.tokens = before ++ opener :: more ∧ m.cursor.pos = before.length :=
    ⟨m.cursor.done.reverse, by rw [Cursor.tokens, hRest], by simp [Cursor.pos]⟩
  cases hResult : quoted ⟨m.limit, m.cursor.tokens.getLast?⟩ opener more with
  | ok read =>
    rw [hResult] at hWorks hEnds
    obtain ⟨n, hn, hValue, hLeft, hLeast, hNoEnd⟩ := hEnds.of_ok before
    obtain ⟨last, hReads⟩ := hWorks.readsString hEntered hRest hn hLeft
    rw [hPos, hValue, ← drop_take_behind before opener more] at hReads
    rw [hTokens, hPos]
    refine ⟨fun j hj _ => ?_, fun hNone => ?_⟩
    · obtain rfl := hj.unique hLeast
      exact ⟨last, hReads⟩
    · refine absurd ⟨_, hLeast, ?_⟩ hNone
      rintro ⟨e, hBelow, he⟩
      exact Nat.not_le_of_lt hBelow (hNoEnd e he)
  | error fault =>
    rw [hResult] at hWorks hEnds
    have hOpen : LeavesOpen m entered fault := hWorks
    rcases hEnds.of_error hQuote before with
      ⟨first, t, hFirst, ht, rfl, hBefore⟩ | ⟨rfl, hNoEnd, hNoClose⟩
    · rw [hTokens, hPos]
      refine ⟨fun j hj hNoEnd => ?_, fun _ => ⟨fun e t' he ht' => ?_, fun hNoEnd => ?_⟩⟩
      · exact absurd ⟨first, hBefore j hj.1, hFirst.1⟩ hNoEnd
      · obtain rfl := he.unique hFirst
        obtain rfl := Option.some.inj (ht.symm.trans ht')
        exact hOpen
      · exact absurd ⟨first, hFirst.1⟩ hNoEnd
    · rw [← hTokens, ← hPos] at hNoEnd hNoClose
      exact ⟨fun j hj => absurd hj.1 (hNoClose j),
        fun _ => ⟨fun e _ he => absurd he.1 (hNoEnd e), fun _ => hOpen⟩⟩

/-- Behind three backslashes a quote does not close the string, behind two it does. -/
theorem spawn_quotation_ends_runs :
    let m : Machine := { start (tokenize "\"\\\\\\\"\\\\\" \"".toList) 2 with
      productions := [.word .argument []], stack := [0] }
    m.cursor.tokens.length = 11 ∧
      IsLeast {j | ClosesAt m.cursor.tokens m.cursor.pos .doubleQuote j} 7 ∧
      ∃ entered last, spawn (.quotation none []) m = .ok 1 entered ∧
        ReadsString m entered ⟨.doubleQuote, ['\x22'], 0⟩ ((m.cursor.tokens.take 7).drop 1) 8
          last := by
  intro m
  have hLeast : IsLeast {j | ClosesAt m.cursor.tokens m.cursor.pos .doubleQuote j} 7 := by
    refine ⟨by decide +kernel, fun j hj => Nat.le_of_not_lt fun hLt => ?_⟩
    have hNone : ∀ j < 7, ¬ ClosesAt m.cursor.tokens m.cursor.pos .doubleQuote j := by
      decide +kernel
    exact hNone j hLt hj
  have hNoEnd : ∀ e < 7, ¬ EndsAt m.cursor.tokens m.cursor.pos e := by
    decide +kernel
  obtain ⟨entered, hSpawn, hReads, -⟩ := spawn_quotation_ends (m := m)
    (show m.cursor.current = .ok ⟨.doubleQuote, ['\x22'], 0⟩ by decide +kernel) rfl (by decide)
  obtain ⟨last, hLast⟩ := hReads 7 hLeast fun ⟨e, hLt, he⟩ => hNoEnd e hLt he
  exact ⟨by decide +kernel, hLeast, entered, last, hSpawn, hLast⟩

end Machine

end ShellReader
