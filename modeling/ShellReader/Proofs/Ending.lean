import ShellReader.Proofs.Parallel
import ShellReader.Proofs.Stopping

/-!
# ShellReader — the first end

Two things follow from reading, in parallel, a list that stops at its first end and a list
that does not. What stands behind the end is not looked at before the outermost sequence is
closed; it is then found to be there. And where the end is missing, this shows only where the
list with the end is read up to it, because then nothing is left to read.

Whether a list is read up to its end is told by the cursor of the machine, since recursive
descent does not say where it fails.

## Results

* `parseTokens_append_end` — what stands behind the first end is not read.
* `parseTokens_endless` — the fault of a list without an end.
-/

namespace ShellReader

namespace Descent

section WholeLists

variable {body : List Token} {last : Token} (hBody : Endless body)
  (hLast : last.kind = .endOfInput) (limit : Int)
include hBody hLast

/-- Nothing behind the first end is looked at before the rest is read. -/
theorem parseTokens_onward (rest : List Token) :
    parseTokens (body ++ last :: rest) limit =
      (parseTokens (body ++ [last]) limit >>= fun tree => match rest with
        | [] => .ok tree
        | next :: _ => .error (.atToken next .afterEnd)) := by
  obtain ⟨x, y, hMirrors, hWhole, hOnward⟩ :=
    parseTokens_parallel hBody (Int.le_refl limit) (.both hLast [] rest)
  rw [hWhole, hOnward]
  cases hMirrors with
  | fault fault => rfl
  | cut hLimit => exact absurd hLimit (Int.lt_irrefl _)
  | spent _ hTail => cases hTail
  | @ok r r' hValue hLeave =>
    obtain ⟨_, hTail, hTail'⟩ := hLeave
    have hRest : r.rest = [] := (List.cons.inj hTail).2.symm
    have hBehind : r'.rest = rest := (List.cons.inj hTail').2.symm
    have hRead : checkEnd (body ++ [last]) r = .ok r.value :=
      checkEnd_eq_ok_iff.2 ⟨hRest, by simp [hLast], rfl⟩
    show checkEnd _ r' = checkEnd _ r >>= _
    rewrite [hRead, checkEnd_of_end (by rw [hBehind]) hLast, hBehind, hValue]
    cases rest <;> rfl

/-- A fault that a list has without its end does not show at the end. -/
theorem token_ne_last {fault : Fault} (h : parseTokens (body ++ [last]) limit = .error fault)
    (hSame : parseTokens body limit = .error fault) : fault.token ≠ some last := by
  obtain ⟨t, -, hToken, hShows⟩ := parseTokens_fault_of_end hBody hLast h
  rcases parseTokens_fault hSame with ⟨hCause, -⟩ | ⟨hCause, -⟩ | ⟨u, hMem, hToken', -⟩
  · rw [hCause] at hShows
    exact hShows.elim
  · rw [hCause] at hShows
    exact hShows.elim
  · intro hEnd
    rw [hToken'] at hEnd
    obtain rfl : u = last := Option.some.inj hEnd
    exact hBody u hMem hLast

/-- Without the end, a list has the fault that shows before the end, or no end. -/
theorem parseTokens_without_end :
    (∃ fault, parseTokens (body ++ [last]) limit = .error fault ∧ fault.token ≠ some last ∧
        parseTokens body limit = .error fault) ∨
      (∀ fault, parseTokens (body ++ [last]) limit = .error fault → fault.token = some last) ∧
        parseTokens body limit = .error ⟨.missingEnd, body.getLast?⟩ := by
  obtain ⟨x, y, hMirrors, hWhole, hOther⟩ :=
    parseTokens_parallel hBody (Int.le_refl limit) (.first hLast)
  cases hMirrors with
  | fault fault =>
    have hOther : parseTokens (body ++ []) limit = .error fault := hOther
    rw [List.append_nil] at hOther
    exact .inl ⟨fault, hWhole, token_ne_last hBody hLast limit hWhole hOther, hOther⟩
  | cut hLimit => exact absurd hLimit (Int.lt_irrefl _)
  | ok _ hLeave =>
    obtain ⟨_, -, hTail'⟩ := hLeave
    cases hTail'
  | spent hTail _ hSpent =>
    obtain rfl := (List.cons.inj hTail).1
    have hOther : parseTokens (body ++ []) limit =
        .error ⟨.missingEnd, (body ++ []).getLast?⟩ := hOther
    rw [List.append_nil] at hOther
    refine .inr ⟨fun fault hFault => ?_, hOther⟩
    rw [hWhole] at hFault
    cases x with
    | error fault' =>
      obtain rfl : fault' = fault := Except.error.inj hFault
      exact hSpent
    | ok r =>
      have hRead : checkEnd (body ++ [last]) r = .ok r.value :=
        checkEnd_eq_ok_iff.2 ⟨hSpent, by simp [hLast], rfl⟩
      rw [show (Except.ok r >>= checkEnd (body ++ [last])) = _ from hRead] at hFault
      cases hFault

end WholeLists

end Descent

/-- **What stands behind the first end is not read.** A list that goes on behind its first
end has the fault that it has without what stands there. If it has a tree without that, it
has the tree where nothing stands there, and else the fault that there is more, which shows
at the first token behind the end. -/
theorem parseTokens_append_end {body : List Token} {last : Token}
    (hBody : Descent.Endless body) (hLast : last.kind = .endOfInput) (rest : List Token)
    (limit : Int) :
    (∀ why, parseTokens (body ++ [last]) limit = .error why →
      parseTokens (body ++ [last] ++ rest) limit = .error why) ∧
    ∀ tree, parseTokens (body ++ [last]) limit = .ok tree →
      (rest = [] → parseTokens (body ++ [last] ++ rest) limit = .ok tree) ∧
      ∀ next more, rest = next :: more →
        ∃ fault, parseTokens (body ++ [last] ++ rest) limit = .error (.fault fault) ∧
          fault.report = ⟨.structural, "Tokens found after end".toList, some next⟩ := by
  have hOnward := Descent.parseTokens_onward hBody hLast limit rest
  rw [List.append_assoc, List.singleton_append]
  constructor
  · intro why hWhy
    obtain ⟨fault, hFault, rfl⟩ := parseTokens_eq_error_iff.1 hWhy
    rw [hFault] at hOnward
    exact parseTokens_eq_error_iff.2 ⟨fault, hOnward, rfl⟩
  · intro tree hTree
    rw [parseTokens_eq_ok_iff.1 hTree] at hOnward
    constructor
    · rintro rfl
      exact parseTokens_eq_ok_iff.2 hOnward
    · rintro next more rfl
      exact ⟨.atToken next .afterEnd, parseTokens_eq_error_iff.2 ⟨_, hOnward, rfl⟩, rfl⟩

/-- A second end is as good as any other token behind the first one. -/
theorem parseTokens_append_end_twice :
    ∃ fault, parseTokens [⟨.word, ['a'], 0⟩, ⟨.endOfInput, [], 1⟩, ⟨.endOfInput, [], 2⟩] 3 =
        .error (.fault fault) ∧
      fault.report =
        ⟨.structural, "Tokens found after end".toList, some ⟨.endOfInput, [], 2⟩⟩ := by
  have hBody : Descent.Endless [⟨.word, ['a'], 0⟩] := by simp [Descent.Endless]
  have hTree : parseTokens ([⟨.word, ['a'], 0⟩] ++ [⟨.endOfInput, [], 1⟩]) 3 =
      .ok (.node .root (.node .command (.leaf .argument ⟨.word, ['a'], 0⟩ none) [] none) []
        none) := by cbv
  exact ((parseTokens_append_end hBody rfl [⟨.endOfInput, [], 2⟩] 3).2 _ hTree).2 _ [] rfl

/-- A list that ends with its only end is not read beyond it if it has a fault, and not even
up to it if the fault shows at another token. -/
theorem stoppedAt_of_end {body : List Token} {last : Token} {limit : Int} {fault : Fault}
    (hBody : Descent.Endless body) (hLast : last.kind = .endOfInput)
    (h : Descent.parseTokens (body ++ [last]) limit = .error fault) :
    stoppedAt (body ++ [last]) limit ≤ body.length ∧
      (stoppedAt (body ++ [last]) limit < body.length ↔ fault.token ≠ some last) := by
  obtain ⟨_, -, -, hShows⟩ := Descent.parseTokens_fault_of_end hBody hLast h
  have hCause : fault.cause ≠ .missingEnd := by
    intro hCause
    rw [hCause] at hShows
    exact hShows
  obtain ⟨t, hStopped, hToken⟩ :=
    getElem?_stoppedAt (parseTokens_eq_error_iff.2 ⟨fault, h, rfl⟩) hCause
  generalize stoppedAt (body ++ [last]) limit = place at hStopped
  rcases Nat.lt_or_ge place body.length with hPlace | hPlace
  · rw [List.getElem?_append_left hPlace] at hStopped
    refine ⟨Nat.le_of_lt hPlace, fun _ hEnd => ?_, fun _ => hPlace⟩
    obtain rfl : t = last := Option.some.inj (hToken.symm.trans hEnd)
    exact hBody t (List.mem_of_getElem? hStopped) hLast
  · rw [List.getElem?_append_right hPlace, List.getElem?_singleton] at hStopped
    have hZero : place - body.length = 0 := by
      by_contra hZero
      rw [if_neg hZero] at hStopped
      cases hStopped
    rw [if_pos hZero] at hStopped
    refine ⟨by omega, fun hLt => absurd hLt (by omega), fun hNe => ?_⟩
    exact absurd (hToken.trans hStopped.symm) hNe

/-- **A list without an end has no tree**, and its fault is known from the list with an end
put behind it. If that list has a fault and is not read up to the end, it is the same fault;
and if that list has a tree or is read up to the end, it is that there is no end, which
shows at the last token. -/
theorem parseTokens_endless {body : List Token} {last : Token} (hBody : Descent.Endless body)
    (hLast : last.kind = .endOfInput) (limit : Int) :
    (∀ why, parseTokens (body ++ [last]) limit = .error why →
      stoppedAt (body ++ [last]) limit < body.length → parseTokens body limit = .error why) ∧
    (¬ (∃ why, parseTokens (body ++ [last]) limit = .error why ∧
        stoppedAt (body ++ [last]) limit < body.length) →
      ∃ fault, parseTokens body limit = .error (.fault fault) ∧ fault.report =
        ⟨.structural, "Expected end at the end of the token list".toList, body.getLast?⟩) ∧
    ∀ why, parseTokens (body ++ [last]) limit = .error why →
      stoppedAt (body ++ [last]) limit ≤ body.length := by
  have hStopped {why : Failure} (hWhy : parseTokens (body ++ [last]) limit = .error why) :
      ∃ fault, Descent.parseTokens (body ++ [last]) limit = .error fault ∧ why = .fault fault ∧
        stoppedAt (body ++ [last]) limit ≤ body.length ∧
        (stoppedAt (body ++ [last]) limit < body.length ↔ fault.token ≠ some last) := by
    obtain ⟨fault, hFault, rfl⟩ := parseTokens_eq_error_iff.1 hWhy
    exact ⟨fault, hFault, rfl, stoppedAt_of_end hBody hLast hFault⟩
  refine ⟨?_, ?_, fun why hWhy => ?_⟩
  · intro why hWhy hEarly
    obtain ⟨fault, hFault, rfl, -, hIff⟩ := hStopped hWhy
    rcases Descent.parseTokens_without_end hBody hLast limit with
      ⟨fault', hFault', -, hOther⟩ | ⟨hEnd, -⟩
    · rw [hFault] at hFault'
      obtain rfl := Except.error.inj hFault'
      exact parseTokens_eq_error_iff.2 ⟨fault, hOther, rfl⟩
    · exact absurd (hEnd fault hFault) (hIff.1 hEarly)
  · intro hLate
    rcases Descent.parseTokens_without_end hBody hLast limit with
      ⟨fault, hFault, hToken, -⟩ | ⟨-, hOther⟩
    · have hEarly := (stoppedAt_of_end hBody hLast hFault).2.2 hToken
      exact absurd ⟨_, parseTokens_eq_error_iff.2 ⟨fault, hFault, rfl⟩, hEarly⟩ hLate
    · exact ⟨_, parseTokens_eq_error_iff.2 ⟨_, hOther, rfl⟩, rfl⟩
  · obtain ⟨fault, -, -, hLe, -⟩ := hStopped hWhy
    exact hLe

/-- The operator in front is found before the string runs out, and the string would run out
at the end. -/
theorem parseTokens_endless_string :
    parseTokens [⟨.pipe, ['|'], 0⟩, ⟨.doubleQuote, ['"'], 1⟩] 9 =
        .error (.fault ⟨.unexpected ['|'], some ⟨.pipe, ['|'], 0⟩⟩) ∧
      ∃ fault, parseTokens [⟨.doubleQuote, ['"'], 0⟩, ⟨.word, ['a'], 1⟩] 9 =
          .error (.fault fault) ∧
        fault.report = ⟨.structural, "Expected end at the end of the token list".toList,
          some ⟨.word, ['a'], 1⟩⟩ := by
  have hEarly : Descent.Endless [⟨.pipe, ['|'], 0⟩, ⟨.doubleQuote, ['"'], 1⟩] := by
    simp [Descent.Endless]
  have hLate : Descent.Endless [⟨.doubleQuote, ['"'], 0⟩, ⟨.word, ['a'], 1⟩] := by
    simp [Descent.Endless]
  constructor
  · refine (@parseTokens_endless _ ⟨.endOfInput, [], 2⟩ hEarly rfl 9).1 _ ?_ ?_
    · cbv
    · cbv
  · refine (@parseTokens_endless _ ⟨.endOfInput, [], 2⟩ hLate rfl 9).2.1 ?_
    rintro ⟨why, -, hStopped⟩
    have hPlace : stoppedAt ([⟨.doubleQuote, ['"'], 0⟩, ⟨.word, ['a'], 1⟩] ++
        [⟨.endOfInput, [], 2⟩]) 9 = 2 := by cbv
    rw [hPlace] at hStopped
    exact absurd hStopped (by decide)

end ShellReader
