import ShellReader.Proofs.SideBySide

/-!
# ShellReader — blanks around a line

Spaces and newlines around a command line are not read. Those behind it leave no trace at all;
those in front of it move every token, and nothing but the tokens' offsets tells where they are.

A token list and the same list moved are alike in the sense of `Likeness`, with nothing to
differ but the offsets. So what is read off the one is what is read off the other, moved: the
trees, with the parts that are made up for empty strings, and the faults with their tokens.

## Results

* `tokenize_outer_blanks` — blanks around a line move its tokens.
* `parseTokens_shift` — moved tokens have the moved tree or the moved failure.
* `parse_outer_blanks` — both of it for a command line.
-/

namespace ShellReader

open Production (startsAssignment)

-- ---------------------------------------------------------------------------
-- Moving
-- ---------------------------------------------------------------------------

namespace Tree

mutual

/-- The tree with all its tokens `n` characters further on. -/
def shift (n : Int) : Tree → Tree
  | leaf kind t quote => leaf kind (t.shift n) quote
  | node kind first rest quote => node kind (first.shift n) (shiftAll n rest) quote

def shiftAll (n : Int) : List Tree → List Tree
  | [] => []
  | t :: rest => t.shift n :: shiftAll n rest

end

end Tree

/-- The fault with its token `n` characters further on. -/
def Fault.shift (n : Int) (fault : Fault) : Fault :=
  { fault with token := fault.token.map (·.shift n) }

/-- The failure with the token it names, if any, `n` characters further on. -/
def Failure.shift (n : Int) : Failure → Failure
  | .fault f => .fault (f.shift n)
  | why => why

theorem Token.shift_shift (m n : Int) (t : Token) : (t.shift m).shift n = t.shift (n + m) := by
  rw [shift, shift, shift, Int.add_assoc]

-- ---------------------------------------------------------------------------
-- The tokens of a line with blanks around it
-- ---------------------------------------------------------------------------

namespace Text

variable {front line back : Text}

/-- Blanks in front of a line count in its lead, those behind it do not. -/
theorem lead_outer_blanks (hFront : ∀ c ∈ front, isOuterBlank c = true)
    (hLine : ∃ c ∈ line, isOuterBlank c = false) :
    (front ++ line ++ back).lead = front.length + line.lead := by
  have hStops : (line.takeWhile isOuterBlank).length ≠ line.length := by
    obtain ⟨c, hMem, hc⟩ := hLine
    intro hAll
    have hSame : line.takeWhile isOuterBlank = line :=
      (List.takeWhile_prefix isOuterBlank).eq_of_length hAll
    have hBlank := List.mem_takeWhile_imp (hSame.symm ▸ hMem)
    exact absurd hBlank (by simp [hc])
  rw [lead, lead, List.append_assoc, List.takeWhile_append_of_pos hFront, List.length_append,
    List.takeWhile_append, if_neg hStops]

/-- Blanks around a line are no part of its core. -/
theorem core_outer_blanks (hFront : ∀ c ∈ front, isOuterBlank c = true)
    (hBack : ∀ c ∈ back, isOuterBlank c = true) (hLine : ∃ c ∈ line, isOuterBlank c = false) :
    (front ++ line ++ back).core = line.core := by
  have hLeft : trimLeft isOuterBlank (front ++ line ++ back) =
      trimLeft isOuterBlank line ++ back := by
    have hStops : (line.dropWhile isOuterBlank).isEmpty = false := by
      obtain ⟨c, hMem, hc⟩ := hLine
      rw [List.isEmpty_eq_false_iff]
      intro hNone
      exact absurd (List.dropWhile_eq_nil_iff.1 hNone c hMem) (by simp [hc])
    rw [trimLeft, trimLeft, List.append_assoc, List.dropWhile_append_of_pos hFront,
      List.dropWhile_append, hStops]
    rfl
  have hReverse : ∀ c ∈ back.reverse, isOuterBlank c = true := by simpa using hBack
  rw [core, core, trim, trim, hLeft, trimRight, trimRight, List.reverse_append,
    List.dropWhile_append_of_pos hReverse]

end Text

/-- Blanks around a line move its tokens. -/
theorem tokenize_outer_blanks {front line back : Text}
    (hFront : ∀ c ∈ front, Text.isOuterBlank c = true)
    (hBack : ∀ c ∈ back, Text.isOuterBlank c = true)
    (hLine : ∃ c ∈ line, Text.isOuterBlank c = false) :
    tokenize (front ++ line ++ back) = (tokenize line).map (·.shift front.length) := by
  rw [tokenize, tokenize, Text.core_outer_blanks hFront hBack hLine,
    Text.lead_outer_blanks hFront hLine, List.map_map]
  refine List.map_congr_left fun t _ => ?_
  rw [Function.comp_apply, Token.shift_shift, Nat.cast_add]

-- ---------------------------------------------------------------------------
-- A token list and the same list moved
-- ---------------------------------------------------------------------------

/-- Tokens that differ by `n` in their offsets, and in nothing else. -/
def shifting (n : Int) : Likeness where
  token t u := u = t.shift n
  text := Eq
  kind_eq := by
    rintro t u rfl
    rfl
  text_of_token := by
    rintro t u rfl
    rfl
  behind := by
    rintro t u rfl
    simp [Token.shift, Int.add_assoc]

namespace Likeness

variable {n : Int}

theorem likeTokens_shift (ts : List Token) :
    (shifting n).LikeTokens ts (ts.map (·.shift n)) := by
  induction ts with
  | nil => exact .nil
  | cons t more ih =>
    refine .cons rfl ?_ ih
    cases more <;> rfl

theorem eq_of_rel {α : Type} {f : α → α} {a b : Option α}
    (h : Option.Rel (fun x y => y = f x) a b) : b = a.map f := by
  cases h with
  | none => rfl
  | some h => rw [h, Option.map_some]

mutual

theorem LikeTree.eq_shift : {t u : Tree} → (shifting n).LikeTree t u → u = t.shift n
  | .leaf .., _, h => by
    cases h with
    | leaf kind hToken =>
      cases hToken
      rw [Tree.shift]
  | .node _ first rest _, _, h => by
    cases h with
    | node kind hFirst hRest hQuote =>
      rw [Tree.shift, hFirst.eq_shift, eq_shiftAll hRest]
      cases hQuote with
      | none => rfl
      | some hQuote =>
        cases hQuote
        rfl

theorem eq_shiftAll : {ts us : List Tree} → List.Forall₂ (shifting n).LikeTree ts us →
    us = Tree.shiftAll n ts
  | [], _, h => by
    cases h
    rfl
  | t :: rest, _, h => by
    cases h with
    | cons hHead hTail => rw [Tree.shiftAll, hHead.eq_shift, eq_shiftAll hTail]

end

theorem LikeCause.eq_of_shifting {cause cause' : Fault.Cause}
    (h : (shifting n).LikeCause cause cause') : cause' = cause := by
  cases h with
  | same => rfl
  | unexpected h => exact congrArg _ h.symm
  | noCommandAfter h => exact congrArg _ h.symm
  | openString h => exact congrArg _ h.symm

theorem LikeFailure.eq_shift {why why' : Failure} (h : (shifting n).LikeFailure why why') :
    why' = why.shift n := by
  cases h with
  | fault hCause hToken =>
    rw [hCause.eq_of_shifting, eq_of_rel hToken]
    rfl
  | misuse hMisuse =>
    cases why with
    | fault fault => exact absurd rfl (hMisuse fault)
    | _ => rfl

end Likeness

/-- Moved tokens have the moved tree or the moved failure. -/
theorem parseTokens_shift (tokens : List Token) (n limit : Int) :
    parseTokens (tokens.map (·.shift n)) limit =
      ((parseTokens tokens limit).map (·.shift n)).mapError (·.shift n) := by
  have hLike := Likeness.readTree_like limit (Likeness.likeTokens_shift (n := n) tokens)
  unfold parseTokens
  generalize Machine.readTree (.start tokens limit) = result at hLike ⊢
  generalize Machine.readTree (.start (tokens.map (·.shift n)) limit) = result' at hLike ⊢
  cases hLike with
  | ok hTree => exact congrArg Except.ok hTree.eq_shift
  | error hWhy => exact congrArg Except.error hWhy.eq_shift

/-- **Blanks around a command line move its tokens and do nothing else**: the tree is the same,
or the failure has the same cause, with every token as much further on as there are blanks in
front of the line. The line must not be blank itself. -/
theorem parse_outer_blanks {front line back : Text}
    (hFront : ∀ c ∈ front, Text.isOuterBlank c = true)
    (hBack : ∀ c ∈ back, Text.isOuterBlank c = true)
    (hLine : ∃ c ∈ line, Text.isOuterBlank c = false) (limit : Int) :
    parse (front ++ line ++ back) limit =
      ((parse line limit).map (·.shift front.length)).mapError (·.shift front.length) := by
  rw [parse, parse, tokenize_outer_blanks hFront hBack hLine, parseTokens_shift]

/-- Two blanks in front of a line with an empty string: the part that is made up for the string
is moved as the tokens of the line are. -/
theorem parse_outer_blanks_empty_string :
    (∀ c ∈ " \n".toList, Text.isOuterBlank c = true) ∧
    (∀ c ∈ "\n".toList, Text.isOuterBlank c = true) ∧
    (∃ c ∈ "a ''".toList, Text.isOuterBlank c = false) ∧
    (parse (" \n".toList ++ "a ''".toList ++ "\n".toList) 4).map
      (fun tree => tree.walk.filterMap fun t => t.token?.map (·.offset)) = .ok [2, 5] := by
  have hFront : ∀ c ∈ " \n".toList, Text.isOuterBlank c = true := by simp [Text.isOuterBlank]
  have hBack : ∀ c ∈ "\n".toList, Text.isOuterBlank c = true := by simp [Text.isOuterBlank]
  have hLine : ∃ c ∈ "a ''".toList, Text.isOuterBlank c = false :=
    ⟨'a', by simp, rfl⟩
  refine ⟨hFront, hBack, hLine, ?_⟩
  rw [parse_outer_blanks hFront hBack hLine]
  cbv

end ShellReader
