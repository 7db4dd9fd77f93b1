import ShellReader.Proofs.Parallel

/-!
# ShellReader — the limit only cuts off

A token list is read under a limit as it is under a greater one, until the smaller limit
puts an end to that. So a list that is not cut off has the same tree or the same fault under
every limit that does not cut it off.

There is one place where a limit that is too small does not show. A production that would be
entered behind the last token is not found to be one too many, because there is no token at
which it could be; the list is found to have no end instead. Under the greater limit the
production is entered, and the same is found then.

## Results

* `Descent.parseTokens_cut`, `Descent.parseTokens_ok_unique` — recursive descent under two
  limits.
* `parseTokens_limit_le` — the machine under two limits.
-/

namespace ShellReader

namespace Descent

/-- A list up to its first end, and what it has from there on. -/
theorem exists_tails {c c' : Context} (hLast : c.last = c'.last) (ts : List Token) :
    ∃ left tail, Endless left ∧ ts = left ++ tail ∧ Tails c c' tail tail := by
  induction ts with
  | nil => exact ⟨[], [], endless_nil, rfl, .endless hLast⟩
  | cons t ts ih =>
    by_cases hKind : t.kind = .endOfInput
    · exact ⟨[], t :: ts, endless_nil, rfl, .both hKind ts ts⟩
    · obtain ⟨left, tail, hLeft, hTs, hTails⟩ := ih
      refine ⟨t :: left, tail, endless_cons.2 ⟨hKind, hLeft⟩, ?_, hTails⟩
      rw [hTs, List.cons_append]

/-- A list is read under a smaller limit as under a greater one, or it is cut off. -/
theorem parseTokens_cut (tokens : List Token) {limit larger : Int} (h : limit ≤ larger) :
    (∃ fault, parseTokens tokens limit = .error fault ∧
        fault.cause.category = .nestingTooDeep) ∨
      parseTokens tokens limit = parseTokens tokens larger := by
  have hLast : Context.last ⟨limit, tokens.getLast?⟩ = Context.last ⟨larger, tokens.getLast?⟩ := rfl
  obtain ⟨left, tail, hLeft, rfl, hTails⟩ := exists_tails hLast tokens
  obtain ⟨x, y, hMirrors, hx, hy⟩ := parseTokens_parallel hLeft h hTails
  rw [hx, hy]
  cases hMirrors with
  | fault fault => exact .inr rfl
  | cut hLimit hDeep => exact .inl ⟨_, rfl, hDeep⟩
  | spent hTail hTail' => exact absurd (hTail.symm.trans hTail') (List.cons_ne_nil _ _)
  | @ok r r' hValue hLeave =>
    obtain ⟨value, rest, hShort⟩ := r
    obtain ⟨value', rest', hShort'⟩ := r'
    obtain ⟨_, hTail, hTail'⟩ := hLeave
    obtain rfl : value' = value := hValue
    obtain rfl : rest = rest' := (List.cons.inj (hTail.symm.trans hTail')).2
    exact .inr rfl

/-- Limits that do not cut a list off give it the same tree. -/
theorem parseTokens_ok_unique {tokens : List Token} {limit limit' : Int} {tree tree' : Tree}
    (h : parseTokens tokens limit = .ok tree) (h' : parseTokens tokens limit' = .ok tree') :
    tree = tree' := by
  rcases le_total limit limit' with hLimit | hLimit
  · rcases parseTokens_cut tokens hLimit with ⟨fault, hFault, -⟩ | hSame
    · rw [h] at hFault
      cases hFault
    · rw [h, h'] at hSame
      exact Except.ok.inj hSame
  · rcases parseTokens_cut tokens hLimit with ⟨fault, hFault, -⟩ | hSame
    · rw [h'] at hFault
      cases hFault
    · rw [h, h'] at hSame
      exact (Except.ok.inj hSame).symm

end Descent

/-- **The limit only cuts off.** Under a smaller limit a token list has too much nested, or
it has the tree or the fault that it has under a greater one. -/
theorem parseTokens_limit_le (tokens : List Token) {limit larger : Int} (h : limit ≤ larger) :
    (∃ fault, parseTokens tokens limit = .error (.fault fault) ∧
        fault.cause.category = .nestingTooDeep) ∨
      parseTokens tokens limit = parseTokens tokens larger := by
  rcases Descent.parseTokens_cut tokens h with ⟨fault, hFault, hDeep⟩ | hSame
  · exact .inl ⟨fault, parseTokens_eq_error_iff.2 ⟨fault, hFault, rfl⟩, hDeep⟩
  · right
    rw [parseTokens, parseTokens, Machine.outcome_readTree, Machine.outcome_readTree, hSame]

/-- The inside of the substitution is one production too many for the limit of four, and
there is no token at which it could be found to be. -/
theorem parseTokens_limit_le_substitution :
    parseTokens [⟨.dollar, ['$'], 0⟩, ⟨.leftParenthesis, ['('], 1⟩] 4 =
        parseTokens [⟨.dollar, ['$'], 0⟩, ⟨.leftParenthesis, ['('], 1⟩] 9 ∧
      parseTokens [⟨.dollar, ['$'], 0⟩, ⟨.leftParenthesis, ['('], 1⟩] 4 =
        .error (.fault ⟨.missingEnd, some ⟨.leftParenthesis, ['('], 1⟩⟩) := by
  have hFault : parseTokens [⟨.dollar, ['$'], 0⟩, ⟨.leftParenthesis, ['('], 1⟩] 4 =
      .error (.fault ⟨.missingEnd, some ⟨.leftParenthesis, ['('], 1⟩⟩) := by cbv
  have hLimit : (4 : Int) ≤ 9 := by decide
  rcases parseTokens_limit_le [⟨.dollar, ['$'], 0⟩, ⟨.leftParenthesis, ['('], 1⟩] hLimit with
    ⟨fault, hCut, hDeep⟩ | hSame
  · rw [hFault] at hCut
    obtain rfl := Failure.fault.inj (Except.error.inj hCut)
    cases hDeep
  · exact ⟨hSame, hFault⟩

end ShellReader
