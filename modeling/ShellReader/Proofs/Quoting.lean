import ShellReader.Proofs.Layout

/-!
# ShellReader — inside and outside of strings

Blanks and separators mean nothing inside a quoted string. Whether a token stands inside
one is told from the tokens before it, by a state that opens a string at a quote and
closes it at the next quote of the same kind; between double quotes a backslash hides the
token behind it.

## Results

* `Quoted.shielded` — what is read as a string is inside one, up to its closing quote.
* `Reads.balanced` — the tokens of a phrase close every string that they open.
-/

namespace ShellReader

open Token (Kind)

-- ---------------------------------------------------------------------------
-- The state
-- ---------------------------------------------------------------------------

/-- Where a token stands, as to quoted strings. -/
inductive Quoting where
  /-- In no string. -/
  | outside
  /-- Between single quotes. -/
  | single
  /-- Between double quotes. -/
  | double
  /-- Between double quotes, right behind a backslash. -/
  | hidden
deriving DecidableEq

namespace Quoting

variable {q : Quoting} {t : Token} {k quote : Kind} {ks ls : List Kind} {ts us : List Token}

/-- Where the next token stands. -/
def step : Quoting → Kind → Quoting
  | outside, k =>
    if k = .singleQuote then single else if k = .doubleQuote then double else outside
  | single, k => if k = .singleQuote then outside else single
  | double, k =>
    if k = .doubleQuote then outside else if k = .backslash then hidden else double
  | hidden, _ => double

/-- Where the token behind a list stands. -/
def after (q : Quoting) (ks : List Kind) : Quoting := ks.foldl step q

@[simp] theorem after_nil : q.after [] = q := rfl

@[simp] theorem after_cons : q.after (k :: ks) = (q.step k).after ks := rfl

@[simp] theorem after_append : q.after (ks ++ ls) = (q.after ks).after ls :=
  List.foldl_append ..

theorem eq_of_isQuote (h : quote.isQuote = true) :
    quote = .singleQuote ∨ quote = .doubleQuote := by
  cases quote <;> simp [Kind.isQuote] at h ⊢

theorem step_outside (h : k.isQuote = false) : outside.step k = outside := by
  have hSingle : k ≠ .singleQuote := by rintro rfl; cases h
  have hDouble : k ≠ .doubleQuote := by rintro rfl; cases h
  simp [step, hSingle, hDouble]

/-- What closes no string was outside before, if what follows is. -/
theorem eq_outside_of_step (h : q.step k = outside) (hQuote : k.isQuote = false) :
    q = outside := by
  have hSingle : k ≠ .singleQuote := by rintro rfl; cases hQuote
  have hDouble : k ≠ .doubleQuote := by rintro rfl; cases hQuote
  cases q with
  | outside => rfl
  | single => simp [step, hSingle] at h
  | double =>
    simp only [step, hDouble, if_false] at h
    split at h <;> cases h
  | hidden => cases h

/-- A quote opens a string. -/
theorem step_quote (h : quote.isQuote = true) : outside.step quote ≠ outside := by
  rcases eq_of_isQuote h with rfl | rfl <;> decide

/-- The same quote closes it. -/
theorem step_close (h : quote.isQuote = true) : (outside.step quote).step quote = outside := by
  rcases eq_of_isQuote h with rfl | rfl <;> rfl

/-- Other tokens stay inside, unless they hide the next one. -/
theorem step_inside (h : quote.isQuote = true) (hk : k ≠ quote)
    (hHides : ¬ (quote = .doubleQuote ∧ k = .backslash)) :
    (outside.step quote).step k = outside.step quote := by
  rcases eq_of_isQuote h with rfl | rfl
  · simp [step, hk]
  · have hBackslash : k ≠ .backslash := fun hKind => hHides ⟨rfl, hKind⟩
    simp [step, hk, hBackslash]

/-- Only a quote or a backslash makes a difference behind a backslash. -/
theorem step_hidden (hQuote : k ≠ .doubleQuote) (hBackslash : k ≠ .backslash) :
    hidden.step k = double.step k := by
  simp [step, hQuote, hBackslash]

/-- All of the tokens are inside a string, and what follows them is not. -/
def Shielded : Quoting → List Token → Prop
  | q, [] => q = outside
  | q, t :: ts => q ≠ outside ∧ Shielded (q.step t.kind) ts

theorem Shielded.after (h : q.Shielded ts) : q.after (ts.map (·.kind)) = outside := by
  induction ts generalizing q with
  | nil => exact h
  | cons t ts ih => exact ih h.2

end Quoting

-- ---------------------------------------------------------------------------
-- Strings
-- ---------------------------------------------------------------------------

namespace Grammar

open Production (startsEscape)

variable {limit : Int} {rule : Rule} {depth : Nat} {t : Token} {ts us rest : List Token}
  {ps : List Phrase}

/-- What is read as a string is inside one, up to the quote that closes it. -/
theorem Quoted.shielded {opener : Kind} {parts : List Token} {closer : Token}
    (hQuote : opener.isQuote = true) (h : Quoted opener ts parts closer rest) :
    (Quoting.outside.step opener).Shielded (parts ++ [closer]) := by
  have hOpen := Quoting.step_quote hQuote
  induction h with
  | close _ hClose =>
    refine ⟨hOpen, ?_⟩
    rw [hClose, Quoting.step_close hQuote]
    rfl
  | @escape t u _ _ _ _ _ hClose hOpener hEscape _ ih =>
    subst hOpener
    have hBackslash : t.kind = .backslash := by
      simp only [startsEscape, Bool.and_eq_true, beq_iff_eq] at hEscape
      exact hEscape.1
    refine ⟨hOpen, ?_⟩
    rw [hBackslash]
    exact ⟨by decide, ih⟩
  | @plain t closer more parts rest _ hClose hEscape hQuoted ih =>
    rw [List.cons_append]
    refine ⟨hOpen, ?_⟩
    by_cases hHides : opener = .doubleQuote ∧ t.kind = .backslash
    · -- The backslash hides a token that would not have mattered.
      obtain ⟨rfl, hBackslash⟩ := hHides
      obtain ⟨u, us, hParts⟩ : ∃ u us, parts ++ [closer] = u :: us := by
        cases parts with
        | nil => exact ⟨closer, [], rfl⟩
        | cons u parts => exact ⟨u, parts ++ [closer], rfl⟩
      have hMore : more = u :: (us ++ rest) := by
        rw [hQuoted.eq_append, List.append_cons, hParts]
        rfl
      obtain ⟨hNoQuote, hNoBackslash⟩ : u.kind ≠ .doubleQuote ∧ u.kind ≠ .backslash := by
        simpa [startsEscape, hBackslash, hMore] using hEscape
      rw [hBackslash]
      rw [hParts] at ih ⊢
      refine ⟨by decide, ?_⟩
      show (Quoting.hidden.step u.kind).Shielded us
      rw [Quoting.step_hidden hNoQuote hNoBackslash]
      exact ih.2
    · rw [Quoting.step_inside hQuote hClose hHides]
      exact ih

-- ---------------------------------------------------------------------------
-- Phrases
-- ---------------------------------------------------------------------------

/-- The tokens close every string that they open. -/
def Balanced (ts : List Token) : Prop :=
  Quoting.outside.after (ts.map (·.kind)) = .outside

theorem balanced_nil : Balanced [] := rfl

theorem balanced_cons (h : t.kind.isQuote = false) : Balanced (t :: ts) ↔ Balanced ts := by
  rw [Balanced, List.map_cons, Quoting.after_cons, Quoting.step_outside h]
  rfl

theorem Balanced.append (h : Balanced ts) (hus : Balanced us) : Balanced (ts ++ us) := by
  rw [Balanced, List.map_append, Quoting.after_append, h]
  exact hus

/-- A row of balanced lists with something balanced between any two. -/
theorem Balanced.flatMap {first : List Token} {others : List Phrase} (between : List Token)
    (h : Balanced first) (hBetween : Balanced between)
    (hOthers : ∀ p ∈ others, Balanced p.tokens) :
    Balanced (first ++ others.flatMap fun p => between ++ p.tokens) := by
  induction others generalizing first with
  | nil => simpa using h
  | cons p others ih =>
    have hNext := h.append (hBetween.append (hOthers p (by simp)))
    have hRest := ih hNext fun q hq => hOthers q (List.mem_cons_of_mem _ hq)
    simpa using hRest

/-- A string that is read is balanced. -/
theorem Quoted.balanced {opener closer : Token} {parts : List Token}
    (hQuote : opener.kind.isQuote = true) (h : Quoted opener.kind ts parts closer rest) :
    Balanced (opener :: parts ++ [closer]) :=
  (h.shielded hQuote).after

theorem not_isQuote_of_isOperator {k : Kind} (h : k.isOperator = true) : k.isQuote = false := by
  rcases Descent.eq_of_isOperator h with rfl | rfl | rfl <;> rfl

/-- A command joined to an item. -/
theorem Balanced.link (h : Balanced ts) (hOperator : t.kind.isOperator = true)
    (hus : Balanced us) : Balanced (ts ++ blank :: t :: blank :: us) := by
  refine h.append ?_
  rw [balanced_cons rfl, balanced_cons (not_isQuote_of_isOperator hOperator), balanced_cons rfl]
  exact hus

theorem closed_balanced : Closed (fun _ => True) fun p => Balanced p.tokens where
  literal role t more _ _ hQuote := (balanced_cons hQuote).2 balanced_nil
  string t closer more parts rest _ _ _ hQuote hQuoted := hQuoted.balanced hQuote
  substitution dollar paren close root _ _ _ hDollar hParen hClose hRoot := by
    have hBack : Balanced [close] := (balanced_cons (by rw [hClose]; rfl)).2 balanced_nil
    rw [List.cons_append, List.cons_append, balanced_cons (by rw [hDollar]; rfl),
      balanced_cons (by rw [hParen]; rfl)]
    exact hRoot.append hBack
  word role first others hFirst hOthers := hFirst.flatMap [] balanced_nil hOthers
  assignmentEmpty name equals _ _ hName hEquals := by
    rw [balanced_cons (by rw [hName]; rfl), balanced_cons (by rw [hEquals]; rfl)]
    exact balanced_nil
  assignment name equals value _ _ hName hEquals hValue := by
    rw [balanced_cons (by rw [hName]; rfl), balanced_cons (by rw [hEquals]; rfl)]
    exact hValue
  command first others hFirst hOthers :=
    hFirst.flatMap [blank] ((balanced_cons rfl).2 balanced_nil) hOthers
  join item tokens t next _ hOperator _ hItem hNext := hItem.link hOperator hNext
  sequence first others hFirst hOthers :=
    hFirst.flatMap [semicolon, blank]
      ((balanced_cons rfl).2 ((balanced_cons rfl).2 balanced_nil)) hOthers

/-- The tokens of a phrase close every string that they open. -/
theorem Reads.balanced (h : Reads limit rule depth ts ps rest)
    (hItem : rule.Item fun p => Balanced p.tokens) : ∀ p ∈ ps, Balanced p.tokens :=
  h.closed closed_balanced (fun _ _ _ => trivial) hItem

end Grammar

end ShellReader
