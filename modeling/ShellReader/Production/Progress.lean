import ShellReader.Production.Respond

/-!
# ShellReader — the progress of productions

A production always gets on: it fails, it reads a token, it closes, or it opens
another production that gets on in turn. Each response is given a weight, such
that opening leads to a response of smaller weight unless a token is read.

## Results

* `Production.respond_reads_or_leaves` — a production that neither fails nor opens
  another reads a token or closes.
* `Production.opens_of_respond` — a production only opens what its rule provides for.
* `Production.weight_command_of_respond`, `Production.weight_word_of_respond` — what
  is opened without reading a token weighs less than what opened it.
-/

namespace ShellReader.Production

-- ---------------------------------------------------------------------------
-- Reading and closing
-- ---------------------------------------------------------------------------

/-- A production without a rule fails, whatever is left. -/
theorem respond_blank (limit : Int) (rest : List Token) :
    blank.respond limit rest = .fail .noRule := by
  cases rest <;> rfl

/-- A run of literal tokens that may start at `t` has at least one token. -/
theorem takeUntil_stopsLiteral_ne_nil {t : Token} {rest : List Token}
    (h : stopsLiteral (t :: rest) = false) :
    (Cursor.takeUntil stopsLiteral (t :: rest)).length ≠ 0 := by
  simp [Cursor.takeUntil, h]

/-- A production that neither fails nor opens another reads a token or closes. -/
theorem respond_reads_or_leaves {limit : Int} {rest : List Token} {p next : Production}
    {count : Nat} {remark : Option Remark} {leave : Bool}
    (h : p.respond limit rest = .advance count next remark leave) :
    (0 < count ∧ rest ≠ []) ∨ (count = 0 ∧ leave = true) := by
  cases rest with
  | nil =>
    rw [respond, respondAtNothing.eq_def] at h
    split at h <;> simp_all [Response.leave]
  | cons t more =>
    rw [respond, respondAt.eq_def] at h
    split at h
    · simp at h
    · -- A sequence.
      simp only [respondSequence, closeSequence, Response.read, Response.leave,
        Response.faultAt] at h
      repeat' split at h
      all_goals simp_all
      all_goals omega
    · simp only [respondCommand, Response.read, Response.leave] at h
      repeat' split at h
      all_goals simp_all
      all_goals omega
    · simp_all [Response.leave]
    · simp only [respondAssignment, Response.leave] at h
      split at h <;> simp_all
    · -- A word: a literal run is not empty where it may start.
      simp only [respondWord, Response.read, Response.leave] at h
      split at h
      · simp_all
      · rename_i hEnd
        split at h
        · simp at h
        · rename_i hQuote
          split at h
          · split at h <;> simp_all
            omega
          · rename_i hDollar
            split at h
            · simp at h
            · have hRun := @takeUntil_stopsLiteral_ne_nil t more (by
                simp_all [stopsLiteral, Token.Kind.endsLiteral, atWordEnd])
              simp only [Response.advance.injEq] at h
              left
              refine ⟨?_, by simp⟩
              omega
    · simp at h
    · simp only [respondQuotation, Response.read, Response.leave, Response.faultAt] at h
      repeat' split at h
      all_goals simp_all
      all_goals omega
    · simp only [respondSubstitution, Response.leave, Response.faultAt] at h
      split at h <;> simp_all
      omega

-- ---------------------------------------------------------------------------
-- Opening
-- ---------------------------------------------------------------------------

/-- What a production may open, always as good as new. -/
inductive Opens : Production → Production → Prop where
  | command {nested items current} : Opens (.sequence nested items current) (.command [])
  | assignment {parts} : Opens (.command parts) (.assignment none none)
  | argument {parts} : Opens (.command parts) (.word .argument [])
  | value {name} : Opens (.assignment name none) (.word .value [])
  | quotation {role parts} : Opens (.word role parts) (.quotation none [])
  | substitution {role parts} : Opens (.word role parts) (.substitution [])

/-- A production only opens what its rule provides for. -/
theorem opens_of_respond {limit : Int} {rest : List Token} {p child : Production}
    (h : p.respond limit rest = .spawn child) : Opens p child := by
  cases rest with
  | nil =>
    rw [respond, respondAtNothing.eq_def] at h
    split at h <;> simp [Response.leave] at h
  | cons t more =>
    rw [respond, respondAt.eq_def] at h
    split at h
    · simp at h
    · simp only [respondSequence, closeSequence, Response.read, Response.leave,
        Response.faultAt] at h
      repeat' split at h
      all_goals simp_all
      all_goals subst h; constructor
    · simp only [respondCommand, Response.read, Response.leave] at h
      repeat' split at h
      all_goals simp_all
      all_goals subst h; constructor
    · simp [Response.leave] at h
    · simp only [respondAssignment, Response.leave] at h
      split at h <;> simp_all
      subst h; constructor
    · simp only [respondWord, Response.read, Response.leave] at h
      repeat' split at h
      all_goals simp_all
      all_goals subst h; constructor
    · simp at h
    · simp only [respondQuotation, Response.read, Response.leave, Response.faultAt] at h
      repeat' split at h
      all_goals simp_all
    · simp only [respondSubstitution, Response.leave, Response.faultAt] at h
      split at h <;> simp_all

-- ---------------------------------------------------------------------------
-- Weights
-- ---------------------------------------------------------------------------

/-- How much a response counts in the potential of the machine. -/
def Response.weight : Response → Nat
  | .advance 0 _ _ true => 6
  | .spawn (.command _) => 4
  | .spawn (.assignment ..) | .spawn (.word ..) => 2
  | _ => 0

theorem Response.weight_le (r : Response) : r.weight ≤ 6 := by
  unfold Response.weight
  split <;> omega

/-- Where a sequence opens a command, the command opens something in turn. -/
theorem weight_command_of_respond {limit : Int} {rest : List Token} {nested : Bool}
    {items : List (List Part)} {current : List Part} {child : Production}
    (h : (sequence nested items current).respond limit rest = .spawn child) :
    ((command []).respond limit rest).weight = 2 := by
  obtain ⟨⟩ := opens_of_respond h
  cases rest with
  | nil => simp [respond, respondAtNothing] at h
  | cons t more =>
    simp only [respond, respondAt, respondSequence, closeSequence, Response.read,
      Response.leave, Response.faultAt] at h
    repeat' split at h
    all_goals simp_all
    -- None of the tokens that a command skips or stops at is left here.
    have hEnd : t.kind.endsCommand = false := by simp_all [Token.Kind.endsCommand]
    change (respondCommand t more []).weight = 2
    simp only [respondCommand, hEnd]
    split <;> simp_all
    split <;> simp [Response.weight]

/-- A word that does not stop at once reads a token or opens a quotation or a substitution. -/
theorem weight_word_of_not_atWordEnd {limit : Int} {t : Token} {more : List Token}
    {role : WordRole} {parts : List Part} (h : atWordEnd t more = false) :
    ((word role parts).respond limit (t :: more)).weight = 0 := by
  simp only [respond, respondAt, respondWord, h, Response.read]
  split
  · contradiction
  · split
    · simp [Response.weight]
    · split
      · split <;> simp [Response.weight]
      · rename_i hQuote hDollar
        have hRun := @takeUntil_stopsLiteral_ne_nil t more (by
          simp_all [stopsLiteral, Token.Kind.endsLiteral, atWordEnd])
        split
        · simp [Response.weight]
        · unfold Response.weight
          split <;> simp_all

/-- Where a command or an assignment opens a word, the word does not stop at once. -/
theorem weight_word_of_respond {limit : Int} {rest : List Token} {p : Production}
    {role : WordRole} (h : p.respond limit rest = .spawn (.word role [])) :
    ((word role []).respond limit rest).weight = 0 := by
  cases rest with
  | nil =>
    rw [respond, respondAtNothing.eq_def] at h
    split at h <;> simp [Response.leave] at h
  | cons t more =>
    apply weight_word_of_not_atWordEnd
    have hOpens := opens_of_respond h
    cases hOpens with
    | argument =>
      simp only [respond, respondAt, respondCommand, Response.read, Response.leave] at h
      repeat' split at h
      all_goals simp_all [atWordEnd, Token.Kind.endsArgument]
    | value =>
      simp only [respond, respondAt, respondAssignment, Response.leave] at h
      split at h <;> simp_all

end ShellReader.Production
