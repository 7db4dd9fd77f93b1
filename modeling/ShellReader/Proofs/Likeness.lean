import ShellReader.Proofs.Refinement

/-!
# ShellReader — alike tokens and productions

When two tokens count as alike is left open: a `Likeness` says so, and is asked for no more than
that alike tokens are of the same kind. Of their texts a production looks at one thing only,
whether an assignment starts somewhere, and this has to be the same for alike token lists
(`Likeness.LikeTokens`).

Everything that is made of tokens is then alike if it is so token by token: parts, productions,
faults, and what a production does next.

## Results

* `Likeness.respond_like` — alike productions respond alike to alike tokens.
* `Likeness.LikeProduction.label`, `Likeness.LikeProduction.adopt` — alike productions are of one
  sort, and remain alike when they record another one.
-/

namespace ShellReader

open Production (startsAssignment atWordEnd startsEscape stopsLiteral awaiting? Response)

/-- When two tokens, and two texts, count as alike. -/
structure Likeness where
  token         : Token → Token → Prop
  text          : Text → Text → Prop
  kind_eq       : ∀ {t u : Token}, token t u → u.kind = t.kind
  text_of_token : ∀ {t u : Token}, token t u → text t.text u.text
  /-- The parts of two empty strings, just behind their opening quotes. -/
  behind        : ∀ {t u : Token}, token t u →
    token ⟨t.kind, [], t.offset + 1⟩ ⟨u.kind, [], u.offset + 1⟩

namespace Likeness

-- ---------------------------------------------------------------------------
-- Alike data
-- ---------------------------------------------------------------------------

/-- Alike token lists, in which assignments start at the same places. -/
inductive LikeTokens (L : Likeness) : List Token → List Token → Prop where
  | nil : LikeTokens L [] []
  | cons {t u : Token} {ts us : List Token} (hToken : L.token t u)
      (hStarts : startsAssignment u us = startsAssignment t ts) (h : LikeTokens L ts us) :
      LikeTokens L (t :: ts) (u :: us)

inductive LikePart (L : Likeness) : Part → Part → Prop where
  | token {t u : Token} (h : L.token t u) : LikePart L (.token t) (.token u)
  | child (id : ProductionId) : LikePart L (.child id) (.child id)

abbrev LikeParts (L : Likeness) := List.Forall₂ L.LikePart

inductive LikeProduction (L : Likeness) : Production → Production → Prop where
  | blank : LikeProduction L .blank .blank
  | sequence (nested : Bool) {items items' : List (List Part)} {current current' : List Part}
      (hItems : List.Forall₂ L.LikeParts items items') (hCurrent : L.LikeParts current current') :
      LikeProduction L (.sequence nested items current) (.sequence nested items' current')
  | command (parts : List ProductionId) : LikeProduction L (.command parts) (.command parts)
  | assignment {name name' : Option Token} (hName : Option.Rel L.token name name')
      (value : Option ProductionId) :
      LikeProduction L (.assignment name value) (.assignment name' value)
  | word (role : WordRole) {parts parts' : List Part} (hParts : L.LikeParts parts parts') :
      LikeProduction L (.word role parts) (.word role parts')
  | quotation {opener opener' : Option Token} {parts parts' : List Token}
      (hOpener : Option.Rel L.token opener opener')
      (hParts : List.Forall₂ L.token parts parts') :
      LikeProduction L (.quotation opener parts) (.quotation opener' parts')
  | substitution (parts : List ProductionId) :
      LikeProduction L (.substitution parts) (.substitution parts)

/-- Alike causes: the same, but for the texts of the tokens they name. -/
inductive LikeCause (L : Likeness) : Fault.Cause → Fault.Cause → Prop where
  | same (cause : Fault.Cause) : LikeCause L cause cause
  | unexpected {a b : Text} (h : L.text a b) : LikeCause L (.unexpected a) (.unexpected b)
  | noCommandAfter {a b : Text} (h : L.text a b) :
      LikeCause L (.noCommandAfter a) (.noCommandAfter b)
  | openString {a b : Text} (h : L.text a b) : LikeCause L (.openString a) (.openString b)

inductive LikeFailure (L : Likeness) : Failure → Failure → Prop where
  | fault {cause cause' : Fault.Cause} {token token' : Option Token}
      (hCause : L.LikeCause cause cause') (hToken : Option.Rel L.token token token') :
      LikeFailure L (.fault ⟨cause, token⟩) (.fault ⟨cause', token'⟩)
  | misuse {why : Failure} (h : ∀ fault, why ≠ .fault fault) : LikeFailure L why why

inductive LikeResponse (L : Likeness) : Response → Response → Prop where
  | fail {why why' : Failure} (h : L.LikeFailure why why') :
      LikeResponse L (.fail why) (.fail why')
  | starve : LikeResponse L .starve .starve
  | advance (count : Nat) {next next' : Production} (h : L.LikeProduction next next')
      (remark : Option Production.Remark) (leave : Bool) :
      LikeResponse L (.advance count next remark leave) (.advance count next' remark leave)
  | spawn {child : Production} (h : L.LikeProduction child child) :
      LikeResponse L (.spawn child) (.spawn child)

variable {L : Likeness} {t u : Token} {ts us more more' : List Token}

-- ---------------------------------------------------------------------------
-- Tokens
-- ---------------------------------------------------------------------------

theorem LikeTokens.forall₂ (h : L.LikeTokens ts us) : List.Forall₂ L.token ts us := by
  induction h with
  | nil => exact .nil
  | cons hToken _ _ ih => exact .cons hToken ih

theorem LikeTokens.length_eq (h : L.LikeTokens ts us) : us.length = ts.length :=
  h.forall₂.length_eq.symm

/-- The kinds of the first tokens are the same. -/
theorem LikeTokens.head?_kind (h : L.LikeTokens ts us) :
    us.head?.map (·.kind) = ts.head?.map (·.kind) := by
  cases h with
  | nil => rfl
  | cons hToken _ _ => simp [L.kind_eq hToken]

section Heads

variable (ht : L.token t u) (hMore : L.LikeTokens more more')
include ht hMore

theorem startsContinuation_like :
    Token.startsContinuation (u :: more') = Token.startsContinuation (t :: more) := by
  rw [Descent.startsContinuation_cons, Descent.startsContinuation_cons, L.kind_eq ht,
    hMore.head?_kind]

theorem atWordEnd_like : atWordEnd u more' = atWordEnd t more := by
  rw [atWordEnd, atWordEnd, L.kind_eq ht, startsContinuation_like ht hMore]

theorem startsEscape_like : startsEscape u more' = startsEscape t more := by
  rw [startsEscape, startsEscape, L.kind_eq ht, hMore.head?_kind]

end Heads

theorem stopsLiteral_like (h : L.LikeTokens ts us) : stopsLiteral us = stopsLiteral ts := by
  cases h with
  | nil => rfl
  | cons ht _ hMore =>
    rw [stopsLiteral, stopsLiteral, L.kind_eq ht, startsContinuation_like ht hMore]

/-- Runs of literal tokens are alike. -/
theorem takeUntil_like (h : L.LikeTokens ts us) :
    List.Forall₂ L.token (Cursor.takeUntil stopsLiteral ts) (Cursor.takeUntil stopsLiteral us) := by
  induction h with
  | nil => exact .nil
  | cons hToken hStarts h ih =>
    rw [Cursor.takeUntil, Cursor.takeUntil, stopsLiteral_like (.cons hToken hStarts h)]
    split
    · exact .nil
    · exact .cons hToken ih

-- ---------------------------------------------------------------------------
-- Productions
-- ---------------------------------------------------------------------------

theorem concat_like {α β : Type} {R : α → β → Prop} {as : List α} {bs : List β} {a : α} {b : β}
    (h : List.Forall₂ R as bs) (hLast : R a b) : List.Forall₂ R (as ++ [a]) (bs ++ [b]) :=
  List.rel_append h (.cons hLast .nil)

theorem LikeProduction.label {p p' : Production} (h : L.LikeProduction p p') :
    p'.label = p.label := by
  cases h with
  | word role => cases role <;> rfl
  | _ => rfl

theorem LikeProduction.adopt {p p' : Production} (h : L.LikeProduction p p')
    (id : ProductionId) : L.LikeProduction (p.adopt id) (p'.adopt id) := by
  cases h with
  | blank => exact .blank
  | sequence nested hItems hCurrent =>
    exact .sequence nested hItems (concat_like hCurrent (.child id))
  | command parts => exact .command _
  | assignment hName value => exact .assignment hName (some id)
  | word role hParts => exact .word role (concat_like hParts (.child id))
  | quotation hOpener hParts => exact .quotation hOpener hParts
  | substitution parts => exact .substitution _

-- ---------------------------------------------------------------------------
-- Responses
-- ---------------------------------------------------------------------------

section Responses

variable {limit : Int} {nested : Bool} {items items' : List (List Part)}
  {current current' : List Part}

theorem isEmpty_like {α β : Type} {R : α → β → Prop} {as : List α} {bs : List β}
    (h : List.Forall₂ R as bs) : bs.isEmpty = as.isEmpty := by
  cases h <;> rfl

theorem isSome_like {α β : Type} {R : α → β → Prop} {a : Option α} {b : Option β}
    (h : Option.Rel R a b) : b.isSome = a.isSome := by
  cases h <;> rfl

theorem awaiting?_like (h : L.LikeParts current current') :
    Option.Rel L.token (awaiting? current) (awaiting? current') := by
  rw [awaiting?, awaiting?, List.getLast?_eq_head?_reverse, List.getLast?_eq_head?_reverse]
  have hReverse : L.LikeParts current.reverse current'.reverse := List.rel_reverse h
  generalize current.reverse = latest at hReverse ⊢
  generalize current'.reverse = latest' at hReverse ⊢
  cases hReverse with
  | nil => exact .none
  | cons hLast _ =>
    cases hLast with
    | token hToken => exact .some hToken
    | child id => exact .none

theorem finished_like (hItems : List.Forall₂ L.LikeParts items items')
    (hCurrent : L.LikeParts current current') :
    List.Forall₂ L.LikeParts (Production.finished items current)
      (Production.finished items' current') := by
  unfold Production.finished
  rw [isEmpty_like hCurrent]
  split
  · exact hItems
  · exact concat_like hItems hCurrent

/-- Alike faults that show at alike tokens. -/
theorem faultAt_like (ht : L.token t u) {cause cause' : Fault.Cause}
    (hCause : L.LikeCause cause cause') :
    L.LikeResponse (.faultAt t cause) (.faultAt u cause') :=
  .fail (.fault hCause (.some ht))

theorem closeSequence_like (ht : L.token t u) (count : Nat)
    (hItems : List.Forall₂ L.LikeParts items items') (hCurrent : L.LikeParts current current') :
    L.LikeResponse (Production.closeSequence t count nested items current)
      (Production.closeSequence u count nested items' current') := by
  unfold Production.closeSequence
  have hFinished := finished_like hItems hCurrent
  have hAwaiting := awaiting?_like hCurrent
  generalize awaiting? current = operator at hAwaiting ⊢
  generalize awaiting? current' = operator' at hAwaiting ⊢
  cases hAwaiting with
  | some hOperator => exact faultAt_like ht (.noCommandAfter (L.text_of_token hOperator))
  | none =>
    dsimp only
    rw [isEmpty_like hFinished]
    split
    · exact faultAt_like ht (.same _)
    · exact .advance count (.sequence nested hFinished .nil) none true

theorem respondSequence_like (ht : L.token t u) (hMore : L.LikeTokens more more')
    (hItems : List.Forall₂ L.LikeParts items items') (hCurrent : L.LikeParts current current') :
    L.LikeResponse (Production.respondSequence limit t more nested items current)
      (Production.respondSequence limit u more' nested items' current') := by
  have hOperands : Production.operands current' = Production.operands current := by
    rw [Production.operands, Production.operands, hCurrent.length_eq]
  have hSame : L.LikeProduction (.sequence nested items current)
      (.sequence nested items' current') := .sequence nested hItems hCurrent
  have hAwaiting := awaiting?_like hCurrent
  unfold Production.respondSequence
  rw [L.kind_eq ht, startsContinuation_like ht hMore, hOperands, isEmpty_like hCurrent]
  split
  · exact .advance 1 hSame none false
  split
  · exact .advance 2 hSame none false
  split
  · generalize awaiting? current = operator at hAwaiting ⊢
    generalize awaiting? current' = operator' at hAwaiting ⊢
    cases hAwaiting with
    | none => exact .advance 1 (.sequence nested (finished_like hItems hCurrent) .nil) none false
    | some hOperator =>
      dsimp only
      split
      · exact .advance 1 hSame none false
      · exact faultAt_like ht (.noCommandAfter (L.text_of_token hOperator))
  rw [isSome_like hAwaiting]
  split
  · split
    · exact faultAt_like ht (.unexpected (L.text_of_token ht))
    split
    · exact faultAt_like ht (.same _)
    · exact .advance 1 (.sequence nested hItems (concat_like hCurrent (.token ht))) none false
  split
  · split
    · exact faultAt_like ht (.same _)
    · exact closeSequence_like ht 1 hItems hCurrent
  split
  · split
    · exact closeSequence_like ht 0 hItems hCurrent
    · exact faultAt_like ht (.same _)
  · exact .spawn (.command [])

theorem respondCommand_like (ht : L.token t u)
    (hStarts : startsAssignment u more' = startsAssignment t more)
    (hMore : L.LikeTokens more more') (parts : List ProductionId) :
    L.LikeResponse (Production.respondCommand t more parts)
      (Production.respondCommand u more' parts) := by
  unfold Production.respondCommand
  rw [L.kind_eq ht, startsContinuation_like ht hMore, hStarts]
  split
  · exact .advance 0 (.command parts) none true
  split
  · exact .advance 1 (.command parts) none false
  split
  · exact .advance 2 (.command parts) (some .continuation) false
  split
  · exact .spawn (.assignment .none none)
  · exact .spawn (.word .argument .nil)

theorem respondAssignment_like (ht : L.token t u) (hMore : L.LikeTokens more more')
    {name name' : Option Token} (hName : Option.Rel L.token name name') :
    L.LikeResponse (Production.respondAssignment t more name)
      (Production.respondAssignment u more' name') := by
  unfold Production.respondAssignment
  rw [atWordEnd_like ht hMore]
  split
  · exact .advance 0 (.assignment hName none) none true
  · exact .spawn (.word .value .nil)

theorem tokenParts_like {read read' : List Token} (h : List.Forall₂ L.token read read') :
    L.LikeParts (read.map Part.token) (read'.map Part.token) := by
  induction h with
  | nil => exact .nil
  | cons hToken _ ih => exact .cons (.token hToken) ih

theorem respondWord_like (ht : L.token t u)
    (hStarts : startsAssignment u more' = startsAssignment t more)
    (hMore : L.LikeTokens more more') (role : WordRole) {parts parts' : List Part}
    (hParts : L.LikeParts parts parts') :
    L.LikeResponse (Production.respondWord t more role parts)
      (Production.respondWord u more' role parts') := by
  have hRun := takeUntil_like (.cons ht hStarts hMore)
  unfold Production.respondWord
  rw [L.kind_eq ht, atWordEnd_like ht hMore, hMore.head?_kind, hMore.length_eq]
  split
  · exact .advance 0 (.word role hParts) none true
  split
  · exact .spawn (.quotation .none .nil)
  split
  · split
    · exact .spawn (.substitution [])
    · exact .advance 1 (.word role (concat_like hParts (.token ht))) none false
  dsimp only
  rw [← hRun.length_eq]
  split
  · exact .starve
  · exact .advance _ (.word role (List.rel_append hParts (tokenParts_like hRun))) _ false

theorem respondQuotation_like (ht : L.token t u) (hMore : L.LikeTokens more more')
    {opener opener' : Token} (hOpener : L.token opener opener') {parts parts' : List Token}
    (hParts : List.Forall₂ L.token parts parts') :
    L.LikeResponse (Production.respondQuotation t more opener parts)
      (Production.respondQuotation u more' opener' parts') := by
  have hOpened : Option.Rel L.token (some opener) (some opener') := .some hOpener
  unfold Production.respondQuotation
  rw [L.kind_eq ht, L.kind_eq hOpener, startsEscape_like ht hMore]
  split
  · exact faultAt_like ht (.openString (L.text_of_token hOpener))
  split
  · exact .advance 1 (.quotation hOpened hParts) none true
  split
  · have hPair : List.Forall₂ L.token ((t :: more).take 2) ((u :: more').take 2) :=
      List.forall₂_take 2 (.cons ht hMore.forall₂)
    have hLonger : List.Forall₂ L.token (parts ++ (t :: more).take 2)
        (parts' ++ (u :: more').take 2) := List.rel_append hParts hPair
    exact .advance 2 (.quotation hOpened hLonger) none false
  · exact .advance 1 (.quotation hOpened (concat_like hParts ht)) none false

/-- Alike productions respond alike to alike tokens. -/
theorem respond_like (limit : Int) {p p' : Production} (hp : L.LikeProduction p p')
    (h : L.LikeTokens ts us) : L.LikeResponse (p.respond limit ts) (p'.respond limit us) := by
  have hNoRule : L.LikeResponse (.fail .noRule) (.fail .noRule) :=
    .fail (.misuse (by simp))
  have hNotEntered : L.LikeResponse (.fail .notEntered) (.fail .notEntered) :=
    .fail (.misuse (by simp))
  cases h with
  | nil =>
    cases hp with
    | blank => exact hNoRule
    | sequence => exact .starve
    | command parts => exact .starve
    | assignment hName value =>
      cases value with
      | none => exact .starve
      | some value => exact .advance 0 (.assignment hName (some value)) none true
    | word => exact .starve
    | quotation hOpener hParts =>
      cases hOpener with
      | none => exact hNotEntered
      | some hOpener => exact .starve
    | substitution parts => exact .starve
  | cons ht hStarts hMore =>
    cases hp with
    | blank => exact hNoRule
    | sequence nested hItems hCurrent => exact respondSequence_like ht hMore hItems hCurrent
    | command parts => exact respondCommand_like ht hStarts hMore parts
    | assignment hName value =>
      cases value with
      | none => exact respondAssignment_like ht hMore hName
      | some value => exact .advance 0 (.assignment hName (some value)) none true
    | word role hParts => exact respondWord_like ht hStarts hMore role hParts
    | quotation hOpener hParts =>
      cases hOpener with
      | none => exact hNotEntered
      | some hOpener => exact respondQuotation_like ht hMore hOpener hParts
    | substitution parts =>
      show L.LikeResponse (Production.respondSubstitution _ parts)
        (Production.respondSubstitution _ parts)
      unfold Production.respondSubstitution
      rw [L.kind_eq ht]
      split
      · exact .advance 1 (.substitution parts) none true
      · exact faultAt_like ht (.same _)

end Responses

end Likeness

end ShellReader
