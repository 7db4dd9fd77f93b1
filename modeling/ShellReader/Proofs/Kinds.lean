import ShellReader.Proofs.SideBySide
import ShellReader.Proofs.Stopping
import ShellReader.Tree.Outline

/-!
# ShellReader — the kinds of tokens decide

A token list is read by the kinds of its tokens. Texts and offsets end up in the tree and in
faults, but they do not say how the reading goes on, with one exception: a word before a `=` is
the name of an assignment if it is an identifier.

Two lists of the same kinds are alike in the sense of `Likeness`, if these names are identifiers
in both or in none. So they have trees of one outline, or faults of one category after the same
number of tokens.

## Results

* `likeTokens_kinds` — lists of the same kinds, with the same identifiers before a `=`, are alike.
* `parseTokens_kinds` — they have the same outline, or fail in the same way at the same place.
-/

namespace ShellReader

open Production (startsAssignment)

/-- Tokens of the same kind, whatever their texts and offsets. -/
def sameKind : Likeness where
  token t u := u.kind = t.kind
  text _ _ := True
  kind_eq h := h
  text_of_token _ := trivial
  behind h := h

-- ---------------------------------------------------------------------------
-- Alike token lists
-- ---------------------------------------------------------------------------

theorem startsAssignment_kinds {t u : Token} {more more' : List Token} (hKind : u.kind = t.kind)
    (hMore : more'.map (·.kind) = more.map (·.kind))
    (hName : t.kind = .word → more.head?.map (·.kind) = some .equals →
      u.text.isIdentifier = t.text.isIdentifier) :
    startsAssignment u more' = startsAssignment t more := by
  have hNext : more'.head?.map (·.kind) = more.head?.map (·.kind) := by
    rw [← List.head?_map, hMore, List.head?_map]
  unfold startsAssignment
  rw [hKind, hNext]
  by_cases hWord : t.kind = .word
  · by_cases hEquals : more.head?.map (·.kind) = some .equals
    · rw [hName hWord hEquals]
    · rw [beq_false_of_ne hEquals, Bool.and_false, Bool.false_and, Bool.false_and]
  · rw [beq_false_of_ne hWord, Bool.false_and, Bool.false_and, Bool.false_and]

/-- Every word right before a `=` is an identifier in both lists or in none. -/
def SameNames (tokens tokens' : List Token) : Prop :=
  ∀ (i : Nat) (t u : Token), tokens[i]? = some t → tokens'[i]? = some u → t.kind = .word →
    tokens[i + 1]?.map (·.kind) = some .equals → u.text.isIdentifier = t.text.isIdentifier

/-- Lists of the same kinds, with the same identifiers before a `=`, are alike. -/
theorem likeTokens_kinds {tokens tokens' : List Token}
    (hKinds : tokens'.map (·.kind) = tokens.map (·.kind))
    (hNames : SameNames tokens tokens') : sameKind.LikeTokens tokens tokens' := by
  induction tokens generalizing tokens' with
  | nil =>
    obtain rfl : tokens' = [] := by simpa using hKinds
    exact .nil
  | cons t more ih =>
    obtain ⟨u, more', rfl, hKind, hMore⟩ := List.map_eq_cons_iff.1 hKinds
    have hStarts : startsAssignment u more' = startsAssignment t more := by
      refine startsAssignment_kinds hKind hMore fun hWord hEquals => ?_
      rw [List.head?_eq_getElem?] at hEquals
      exact hNames 0 t u rfl rfl hWord hEquals
    exact .cons hKind hStarts (ih hMore fun i => hNames (i + 1))

-- ---------------------------------------------------------------------------
-- Alike outcomes
-- ---------------------------------------------------------------------------

namespace Likeness

variable {L : Likeness}

mutual

/-- Alike trees have the same outline. -/
theorem LikeTree.outline_eq : {t u : Tree} → L.LikeTree t u → u.outline = t.outline
  | .leaf .., _, h => by
    cases h
    rw [Tree.outline, Tree.outline]
  | .node _ first rest _, _, h => by
    cases h with
    | node kind hFirst hRest _ =>
      cases rest with
      | nil =>
        cases hRest
        rw [Tree.outline, Tree.outline, hFirst.outline_eq]
      | cons second rest =>
        cases hRest with
        | cons hSecond hRest =>
          rw [Tree.outline, Tree.outline, hFirst.outline_eq, hSecond.outline_eq,
            outlines_eq hRest]

theorem outlines_eq : {ts us : List Tree} → List.Forall₂ L.LikeTree ts us →
    Tree.outlines us = Tree.outlines ts
  | [], _, h => by
    cases h
    rfl
  | t :: rest, _, h => by
    cases h with
    | cons hHead hTail =>
      rw [Tree.outlines, Tree.outlines, hHead.outline_eq, outlines_eq hTail]

end

/-- Alike causes are of the same category. -/
theorem LikeCause.category_eq {cause cause' : Fault.Cause} (h : L.LikeCause cause cause') :
    cause'.category = cause.category := by
  cases h <;> rfl

/-- What is alike to a fault is a fault of the same category. -/
theorem LikeFailure.category_eq {fault : Fault} {why : Failure}
    (h : L.LikeFailure (.fault fault) why) :
    ∃ fault', why = .fault fault' ∧ fault'.cause.category = fault.cause.category := by
  cases h with
  | fault hCause _ => exact ⟨_, rfl, hCause.category_eq⟩
  | misuse hMisuse => exact absurd rfl (hMisuse fault)

theorem LikeMachine.pos_eq {m m' : Machine} (h : L.LikeMachine m m') :
    m'.cursor.pos = m.cursor.pos :=
  h.done.length_eq.symm

end Likeness

-- ---------------------------------------------------------------------------
-- The outcome
-- ---------------------------------------------------------------------------

/-- **How a token list is read depends on the kinds of its tokens**, and on which words before a
`=` are identifiers: where two lists agree in this, either both have trees, of the same outline,
or both have faults, of the same category and after the same number of tokens. -/
theorem parseTokens_kinds {tokens tokens' : List Token}
    (hKinds : tokens'.map (·.kind) = tokens.map (·.kind))
    (hNames : SameNames tokens tokens') (limit : Int) :
    (∃ tree tree', parseTokens tokens limit = .ok tree ∧ parseTokens tokens' limit = .ok tree' ∧
      tree'.outline = tree.outline) ∨
    (∃ fault fault', parseTokens tokens limit = .error (.fault fault) ∧
      parseTokens tokens' limit = .error (.fault fault') ∧
      fault'.report.category = fault.report.category ∧
      stoppedAt tokens' limit = stoppedAt tokens limit) := by
  have hLike := Likeness.readTree_like limit (likeTokens_kinds hKinds hNames)
  have hFaults := @parseTokens_eq_error_iff tokens limit
  unfold parseTokens stoppedAt at *
  generalize Machine.readTree (.start tokens limit) = result at hLike hFaults ⊢
  generalize Machine.readTree (.start tokens' limit) = result' at hLike ⊢
  cases hLike with
  | ok hTree _ => exact .inl ⟨_, _, rfl, rfl, hTree.outline_eq⟩
  | error hWhy hMachine =>
    obtain ⟨fault, -, rfl⟩ := hFaults.1 rfl
    obtain ⟨fault', rfl, hCategory⟩ := hWhy.category_eq
    exact .inr ⟨fault, fault', rfl, rfl, hCategory, hMachine.pos_eq⟩

/-- Two assignments, with other names and other numbers: both have trees, of one outline. -/
theorem parseTokens_kinds_assignment :
    let tokens : List Token := [⟨.word, ['x'], 0⟩, ⟨.equals, ['='], 1⟩, ⟨.number, ['1'], 2⟩,
      ⟨.endOfInput, [], 3⟩]
    let tokens' : List Token := [⟨.word, ['y', 'z'], 4⟩, ⟨.equals, [], 4⟩, ⟨.number, ['7'], 0⟩,
      ⟨.endOfInput, [], -1⟩]
    tokens'.map (·.kind) = tokens.map (·.kind) ∧
      SameNames tokens tokens' ∧
      ∃ tree tree', parseTokens tokens 5 = .ok tree ∧ parseTokens tokens' 5 = .ok tree' ∧
        tree'.outline = tree.outline := by
  intro tokens tokens'
  have hKinds : tokens'.map (·.kind) = tokens.map (·.kind) := rfl
  -- Only the first token is a word.
  have hNames : SameNames tokens tokens' := by
    intro i t u ht hu hWord _
    match i with
    | 0 =>
      cases ht
      cases hu
      decide
    | 1 => cases ht; cases hWord
    | 2 => cases ht; cases hWord
    | 3 => cases ht; cases hWord
    | i + 4 => cases ht
  have hTree : (parseTokens tokens 5).isOk = true := by cbv
  refine ⟨hKinds, hNames, (parseTokens_kinds hKinds hNames 5).resolve_right ?_⟩
  rintro ⟨fault, -, hFault, -⟩
  rw [hFault] at hTree
  cases hTree

end ShellReader
