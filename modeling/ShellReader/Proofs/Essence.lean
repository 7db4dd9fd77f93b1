import ShellReader.Proofs.Quoting
import ShellReader.Proofs.RoundTrip

/-!
# ShellReader — what the layout leaves alone

The source of a tree is laid out anew: blanks, separators and line continuations outside
of strings are those of the canonical layout, not those that were read. Everything else
is kept. What is kept of a token list is its *essence* (`erase`): the list without the
blanks and separators outside of strings, and without the backslash of a continuation.

A phrase is read from tokens of its own essence, and that is also the essence of what is
written for it; so the two agree for a whole line.

## Results

* `Reads.kept` — what a rule reads has the essence of what is written for its phrases.
* `erase_tokenize_source` — a line and the source of its tree have the same essence.
-/

namespace ShellReader

open Token (Kind shape)

-- ---------------------------------------------------------------------------
-- The essence of a token list
-- ---------------------------------------------------------------------------

/-- Whether a token outside of strings belongs to the layout: a blank, a separator or the
backslash of a continuation. -/
def isFiller (t : Token) (more : List Token) : Bool :=
  t.kind == .space || t.kind.isSeparator || Token.startsContinuation (t :: more)

/-- The tokens without those of the layout, the first of them standing as `q` says. -/
def erase : Quoting → List Token → List Token
  | _, [] => []
  | q, t :: more =>
    if q = .outside ∧ isFiller t more = true then erase (q.step t.kind) more
    else t :: erase (q.step t.kind) more

/-- The tokens inside of strings, and those of the kinds that never belong to the layout. -/
def content : Quoting → List Token → List Token
  | _, [] => []
  | q, t :: more =>
    if q = .outside ∧ t.kind ∈ [Kind.space, .newline, .semicolon, .backslash] then
      content (q.step t.kind) more
    else t :: content (q.step t.kind) more

section Erase

variable {q : Quoting} {t : Token} {more ts us : List Token}

theorem isFiller_eq_false_iff : isFiller t more = false ↔
    t.kind ≠ .space ∧ t.kind.isSeparator = false ∧
      Token.startsContinuation (t :: more) = false := by
  simp [isFiller, and_assoc]

/-- Tokens of the layout are of four kinds, none of which opens a string. -/
theorem isFiller_kind (h : isFiller t more = true) :
    t.kind ∈ [Kind.space, .newline, .semicolon, .backslash] := by
  simp only [isFiller, Descent.startsContinuation_cons, Bool.or_eq_true, Bool.and_eq_true,
    beq_iff_eq] at h
  rcases h with (hSpace | hSeparator) | hBackslash
  · simp [hSpace]
  · cases hKind : t.kind <;> simp [hKind, Kind.isSeparator] at hSeparator ⊢
  · simp [hBackslash.1]

theorem isFiller_step (h : isFiller t more = true) :
    Quoting.outside.step t.kind = .outside := by
  have hKind := isFiller_kind h
  simp only [List.mem_cons, List.not_mem_nil, or_false] at hKind
  rcases hKind with hKind | hKind | hKind | hKind <;> rw [hKind] <;> rfl

theorem erase_filler (h : isFiller t more = true) :
    erase .outside (t :: more) = erase .outside more := by
  rw [erase, if_pos ⟨rfl, h⟩, isFiller_step h]

theorem erase_keep (h : isFiller t more = false) (hQuote : t.kind.isQuote = false) :
    erase .outside (t :: more) = t :: erase .outside more := by
  rw [erase, if_neg (by simp [h]), Quoting.step_outside hQuote]

/-- What is inside of a string is kept. -/
theorem erase_inside (hq : q ≠ .outside) :
    erase q (t :: more) = t :: erase (q.step t.kind) more := by
  rw [erase, if_neg fun h => hq h.1]

theorem Quoting.Shielded.erase (h : q.Shielded ts) (us : List Token) :
    erase q (ts ++ us) = ts ++ ShellReader.erase .outside us := by
  induction ts generalizing q with
  | nil =>
    obtain rfl : q = .outside := h
    rfl
  | cons t ts ih => rw [List.cons_append, erase_inside h.1, ih h.2, List.cons_append]

open Grammar (frontKind) in
/-- A list may be erased in two parts, unless a continuation is torn apart. -/
theorem erase_append (h : frontKind us ≠ some .newline) :
    erase q (ts ++ us) = erase q ts ++ erase (q.after (ts.map (·.kind))) us := by
  induction ts generalizing q with
  | nil => rfl
  | cons t ts ih =>
    have hFiller : isFiller t (ts ++ us) = isFiller t ts := by
      rw [isFiller, isFiller, Descent.startsContinuation_cons, Descent.startsContinuation_cons]
      cases ts with
      | nil =>
        have hFront : (us.head?.map (·.kind) == some Kind.newline) = false :=
          beq_eq_false_iff_ne.2 h
        rw [List.nil_append, hFront]
        rfl
      | cons u ts => rfl
    rw [List.cons_append, erase, erase, hFiller, ih, List.map_cons, Quoting.after_cons]
    by_cases hErased : q = .outside ∧ isFiller t ts = true
    · rw [if_pos hErased, if_pos hErased]
    · rw [if_neg hErased, if_neg hErased, List.cons_append]

/-- Where tokens stand does not matter. -/
theorem erase_bare : erase q (ts.map Token.bare) = (erase q ts).map Token.bare := by
  induction ts generalizing q with
  | nil => rfl
  | cons t ts ih =>
    have hFiller : isFiller t.bare (ts.map Token.bare) = isFiller t ts := by
      rw [isFiller, isFiller, Grammar.startsContinuation_bare, Token.bare_kind]
    rw [List.map_cons, erase, erase, hFiller, ih, Token.bare_kind]
    split <;> rfl

theorem content_bare : content q (ts.map Token.bare) = (content q ts).map Token.bare := by
  induction ts generalizing q with
  | nil => rfl
  | cons t ts ih =>
    rw [List.map_cons, content, content, ih, Token.bare_kind]
    split <;> rfl

/-- The content of a list is all in its essence. -/
theorem content_erase : content q (erase q ts) = content q ts := by
  induction ts generalizing q with
  | nil => rfl
  | cons t ts ih =>
    rw [erase]
    by_cases hErased : q = .outside ∧ isFiller t ts = true
    · obtain ⟨rfl, hFiller⟩ := hErased
      rw [if_pos ⟨rfl, hFiller⟩, content, if_pos ⟨rfl, isFiller_kind hFiller⟩,
        isFiller_step hFiller, ih]
    · rw [if_neg hErased, content, content, ih]

end Erase

-- ---------------------------------------------------------------------------
-- The essence of phrases
-- ---------------------------------------------------------------------------

namespace Grammar

open Production (startsAssignment atWordEnd)

variable {limit : Int} {rule : Rule} {depth : Nat} {t : Token} {more ts rest : List Token}
  {ps : List Phrase}

/-- What is kept of phrases. -/
def essence (ps : List Phrase) : List Token := ps.flatMap fun p => erase .outside p.tokens

@[simp] theorem essence_nil : essence [] = [] := rfl

@[simp] theorem essence_cons (p : Phrase) (ps : List Phrase) :
    essence (p :: ps) = erase .outside p.tokens ++ essence ps := rfl

/-- A kind that is kept wherever it stands, and that opens no string. -/
def staysPut (k : Kind) : Bool :=
  !(k == .space || k.isSeparator || k == .backslash || k.isQuote)

theorem erase_staysPut (h : staysPut t.kind = true) :
    erase .outside (t :: more) = t :: erase .outside more := by
  simp only [staysPut, Bool.not_eq_true', Bool.or_eq_false_iff, beq_eq_false_iff_ne] at h
  obtain ⟨⟨⟨hSpace, hSeparator⟩, hBackslash⟩, hQuote⟩ := h
  exact erase_keep (isFiller_eq_false_iff.2
    ⟨hSpace, hSeparator, Descent.startsContinuation_of_ne hBackslash⟩) hQuote

/-- A token of a word is kept, also by itself. -/
theorem erase_literal (hOpen : atWordEnd t more = false) (hQuote : t.kind.isQuote = false) :
    erase .outside (t :: more) = erase .outside [t] ++ erase .outside more := by
  obtain ⟨hSpace, hContinuation, hSeparator, -⟩ := Descent.atWordEnd_eq_false.1 hOpen
  rw [erase_keep (isFiller_eq_false_iff.2 ⟨hSpace, hSeparator, hContinuation⟩) hQuote,
    erase_keep (isFiller_eq_false_iff.2 ⟨hSpace, hSeparator, rfl⟩) hQuote]
  rfl

/-- A name and the `=` behind it are kept. -/
theorem erase_assignment {name equals : Token} (h : startsAssignment name (equals :: ts) = true)
    (us : List Token) :
    erase .outside (name :: equals :: us) = name :: equals :: erase .outside us := by
  obtain ⟨hName, -, _, _, hMore, hEquals⟩ := Descent.startsAssignment_iff.1 h
  obtain ⟨rfl, -⟩ := List.cons.inj hMore
  rw [erase_staysPut (by rw [hName]; rfl), erase_staysPut (by rw [hEquals]; rfl)]

/-- A string is kept as it is. -/
theorem Quoted.erase {opener closer : Token} {parts : List Token}
    (hQuote : opener.kind.isQuote = true) (h : Quoted opener.kind ts parts closer rest)
    (us : List Token) :
    erase .outside (opener :: parts ++ [closer] ++ us) =
      opener :: parts ++ [closer] ++ ShellReader.erase .outside us := by
  have hKind : opener.kind ≠ .space ∧ opener.kind.isSeparator = false ∧
      opener.kind ≠ .backslash := by
    cases hKind : opener.kind <;> simp_all [Kind.isQuote, Kind.isSeparator]
  have hFiller : isFiller opener (parts ++ [closer] ++ us) = false :=
    isFiller_eq_false_iff.2 ⟨hKind.1, hKind.2.1, Descent.startsContinuation_of_ne hKind.2.2⟩
  rw [List.cons_append, List.cons_append, ShellReader.erase, hFiller, if_neg (by simp),
    (h.shielded hQuote).erase]
  rfl

theorem Tight.frontKind_ne (h : Tight ts) : frontKind ts ≠ some .newline := by
  obtain ⟨⟨t, hHead, hSolid⟩, -⟩ := h
  rw [frontKind, hHead]
  simpa using hSolid.2

/-- A blank or a semicolon: what the layout puts between phrases. -/
def Spacing (ts : List Token) : Prop := ∀ t ∈ ts, t.kind = .space ∨ t.kind = .semicolon

theorem Spacing.balanced {between : List Token} (h : Spacing between) : Balanced between := by
  induction between with
  | nil => exact balanced_nil
  | cons t between ih =>
    have hQuote : t.kind.isQuote = false := by
      rcases h t (by simp) with hKind | hKind <;> rw [hKind] <;> rfl
    exact (balanced_cons hQuote).2 (ih fun u hu => h u (List.mem_cons_of_mem _ hu))

theorem Spacing.erase {between : List Token} (h : Spacing between) (ts : List Token) :
    erase .outside (between ++ ts) = ShellReader.erase .outside ts := by
  induction between with
  | nil => rfl
  | cons t between ih =>
    have hFiller : isFiller t (between ++ ts) = true := by
      rcases h t (by simp) with hKind | hKind <;> simp [isFiller, hKind, Kind.isSeparator]
    rw [List.cons_append, erase_filler hFiller]
    exact ih fun u hu => h u (List.mem_cons_of_mem _ hu)

theorem Spacing.frontKind_ne {between : List Token} (h : Spacing between)
    (hts : frontKind ts ≠ some .newline) : frontKind (between ++ ts) ≠ some .newline := by
  cases between with
  | nil => exact hts
  | cons t between =>
    rcases h t (by simp) with hKind | hKind <;> simp [frontKind, hKind]

/-- What is kept of phrases in a row is what is kept of each. -/
theorem erase_row {first : List Token} (between : List Token) (others : List Phrase)
    (hFirst : Balanced first) (hBetween : Spacing between)
    (hOthers : ∀ p ∈ others, Balanced p.tokens ∧ Tight p.tokens) :
    erase .outside (first ++ others.flatMap fun p => between ++ p.tokens) =
      erase .outside first ++ essence others := by
  induction others generalizing first with
  | nil => simp
  | cons p others ih =>
    obtain ⟨hTokens, hTight⟩ := hOthers p (by simp)
    have hRest := ih (hFirst.append (hBetween.balanced.append hTokens))
      fun q hq => hOthers q (List.mem_cons_of_mem _ hq)
    have hFront := hBetween.frontKind_ne hTight.frontKind_ne
    rw [erase_append hFront, hFirst, hBetween.erase] at hRest
    simpa using hRest

-- ---------------------------------------------------------------------------
-- What is read and what is written
-- ---------------------------------------------------------------------------

/-- What is read has the essence of the phrases that are found. A sequence that closes has
read up to `tail`. -/
def Kept : Rule → List Token → List Phrase → List Token → Prop
  | .chain _ tokens, ts, ps, rest => Balanced tokens →
    erase .outside tokens ++ erase .outside ts = essence ps ++ erase .outside rest
  | .items nested, ts, ps, rest | .sequence nested, ts, ps, rest =>
    ∃ tail, Closes nested tail rest ∧ tail <:+ ts ∧
      erase .outside ts = essence ps ++ erase .outside tail
  | _, ts, ps, rest => erase .outside ts = essence ps ++ erase .outside rest

theorem Gap.erase {gap : List Token} (h : Gap rule gap) (ts : List Token) :
    erase .outside (gap ++ ts) = ShellReader.erase .outside ts := by
  cases h with
  | space _ hKind => exact erase_filler (by simp [isFiller, hKind])
  | continuation _ hBackslash hNewline =>
    refine (erase_filler ?_).trans (erase_filler ?_)
    · simp [isFiller, Token.startsContinuation, hBackslash, hNewline]
    · simp [isFiller, hNewline, Kind.isSeparator]
  | newline hKind => exact erase_filler (by simp [isFiller, hKind, Kind.isSeparator])
  | separator hKind => exact erase_filler (by simp [isFiller, hKind])

theorem Kept.skip {gap : List Token} (hGap : Gap rule gap) (h : Kept rule ts ps rest) :
    Kept rule (gap ++ ts) ps rest := by
  cases rule with
  | chain item tokens =>
    intro hTokens
    rw [hGap.erase]
    exact h hTokens
  | items nested | sequence nested =>
    obtain ⟨tail, hCloses, hSuffix, hErase⟩ := h
    exact ⟨tail, hCloses, hSuffix.trans (List.suffix_append _ _), (hGap.erase ts).trans hErase⟩
  | _ => exact (hGap.erase ts).trans h

/-- An operator is kept. -/
theorem erase_operator (hOperator : t.kind.isOperator = true) :
    erase .outside (t :: more) = t :: erase .outside more := by
  apply erase_staysPut
  rcases Descent.eq_of_isOperator hOperator with hKind | hKind | hKind <;> rw [hKind] <;> rfl

/-- What is kept of a command joined to an item. -/
theorem erase_link {tokens : List Token} {next : Phrase} (hTokens : Balanced tokens)
    (hOperator : t.kind.isOperator = true) :
    erase .outside (tokens ++ blank :: t :: blank :: next.tokens) =
      erase .outside tokens ++ t :: erase .outside next.tokens := by
  rw [erase_append (by simp [frontKind, blank]), hTokens, erase_filler rfl,
    erase_operator hOperator, erase_filler rfl]

/-- What a rule reads has the essence of what is written for its phrases. -/
theorem Reads.kept (h : Reads limit rule depth ts ps rest) : Kept rule ts ps rest := by
  induction h with
  | literal hOpen hQuote _ => simpa [Kept] using erase_literal hOpen hQuote
  | @string _ _ t closer more parts rest hQuote _ hQuoted =>
    have hRead := hQuoted.erase hQuote rest
    have hWritten := hQuoted.erase hQuote []
    rw [List.append_nil, ShellReader.erase, List.append_nil] at hWritten
    show erase .outside _ = essence [_] ++ _
    rw [essence_cons, hWritten, hQuoted.eq_append]
    simpa using hRead
  | @substitution _ _ dollar paren close inside rest root hDollar hParen _ hInside hClose ih =>
    obtain ⟨_, ⟨_, _, rfl, -, hTail⟩, -, hErase⟩ := ih
    have hStays : staysPut dollar.kind = true ∧ staysPut paren.kind = true ∧
        staysPut close.kind = true := by
      rw [hDollar, hParen, hClose]
      decide
    have hRoot := hInside.balanced trivial root (by simp)
    show erase .outside _ = essence [_] ++ _
    rw [← hTail, erase_staysPut hStays.2.2] at hErase
    rw [essence_cons, List.cons_append, List.cons_append, erase_staysPut hStays.1,
      erase_staysPut hStays.2.1, erase_staysPut hStays.1, erase_staysPut hStays.2.1, hErase,
      erase_append (by simp [frontKind, hClose]), hRoot, erase_staysPut hStays.2.2]
    simp [erase]
  | piecesNil => simp [Kept]
  | piecesCons _ _ ihFirst ihOthers =>
    simp only [Kept, essence_cons, essence_nil, List.append_nil] at ihFirst ihOthers ⊢
    rw [ihFirst, ihOthers, List.append_assoc]
  | @word _ _ _ _ _ first others _ hFirst hOthers ihFirst ihOthers =>
    simp only [Kept, essence_cons, essence_nil, List.append_nil] at ihFirst ihOthers ⊢
    have hRow := erase_row [] others (hFirst.balanced trivial first (by simp))
      (by simp [Spacing])
      fun p hp => ⟨hOthers.balanced trivial p hp, hOthers.tight trivial p hp⟩
    simp only [List.nil_append] at hRow
    rw [hRow, ihFirst, ihOthers, List.append_assoc]
  | assignmentEmpty hStart _ _ =>
    show erase .outside _ = essence [_] ++ _
    rw [essence_cons, erase_assignment hStart, erase_assignment hStart]
    rfl
  | assignment hStart _ _ ih =>
    simp only [Kept, essence_cons, essence_nil, List.append_nil] at ih ⊢
    rw [erase_assignment hStart, erase_assignment hStart, ih]
    rfl
  | argument _ _ ih => exact ih
  | skip hGap _ ih => exact ih.skip hGap
  | partsNil => simp [Kept]
  | partsCons _ _ ihFirst ihOthers =>
    simp only [Kept, essence_cons, essence_nil, List.append_nil] at ihFirst ihOthers ⊢
    rw [ihFirst, ihOthers, List.append_assoc]
  | @command _ _ _ _ first others _ hFirst hOthers ihFirst ihOthers =>
    simp only [Kept, essence_cons, essence_nil, List.append_nil] at ihFirst ihOthers ⊢
    have hRow := erase_row [blank] others (hFirst.balanced trivial first (by simp))
      (by simp [Spacing, blank])
      fun p hp => ⟨hOthers.balanced trivial p hp, hOthers.tight trivial p hp⟩
    simp only [List.singleton_append] at hRow
    rw [hRow, ihFirst, ihOthers, List.append_assoc]
  | operand _ ih => exact ih
  | chainStop =>
    intro _
    simp
  | @chainLink item tokens _ t more between _ next _ hOperator _ hNext _ ihNext ihRest =>
    intro hTokens
    have hLink : Balanced (tokens ++ blank :: t :: blank :: next.tokens) :=
      hTokens.link hOperator (hNext.balanced trivial next (by simp))
    have hWhole := ihRest hLink
    simp only [Kept, essence_cons, essence_nil, List.append_nil] at ihNext
    rw [erase_link hTokens hOperator] at hWhole
    rw [erase_operator hOperator, ihNext, ← hWhole]
    simp
  | @finish _ t more hEnd =>
    exact ⟨t :: more, ⟨t, more, rfl, hEnd, rfl⟩, List.suffix_refl _, rfl⟩
  | @close _ t more hClose =>
    exact ⟨t :: more, ⟨t, more, rfl, hClose, rfl⟩, List.suffix_refl _, rfl⟩
  | @item _ _ _ _ _ _ first _ _ hFirst hChain _ ihFirst ihChain ihOthers =>
    obtain ⟨tail, hCloses, hSuffix, hErase⟩ := ihOthers
    have hItem := ihChain (hFirst.balanced trivial first (by simp))
    refine ⟨tail, hCloses, (hSuffix.trans hChain.suffix).trans hFirst.suffix, ?_⟩
    simp only [Kept, essence_cons, essence_nil, List.append_nil] at ihFirst hItem ⊢
    rw [ihFirst, hItem, hErase, List.append_assoc]
  | @sequence _ _ _ _ first others _ hItems ih =>
    obtain ⟨tail, hCloses, hSuffix, hErase⟩ := ih
    have hBalanced := hItems.balanced trivial
    have hTight := hItems.tight trivial
    have hRow := erase_row [semicolon, blank] others (hBalanced first (by simp))
      (by simp [Spacing, semicolon, blank])
      fun p hp => ⟨hBalanced p (by simp [hp]), hTight p (by simp [hp])⟩
    refine ⟨tail, hCloses, hSuffix, ?_⟩
    simp only [List.cons_append, List.nil_append] at hRow
    rw [essence_cons, essence_nil, List.append_nil, hRow, hErase, essence_cons]

end Grammar

-- ---------------------------------------------------------------------------
-- Command lines
-- ---------------------------------------------------------------------------

/-- Lists of tokens that stand nowhere agree in kinds and texts. -/
theorem map_shape_congr {ts us : List Token} (h : ts.map Token.bare = us.map Token.bare) :
    ts.map shape = us.map shape := by
  have hShape : ∀ vs : List Token, vs.map shape = (vs.map Token.bare).map shape := by
    intro vs
    rw [List.map_map]
    rfl
  rw [hShape, h, ← hShape]

open Grammar in
/-- Without their layout, the tokens of a line that can be read are those of the source. -/
theorem erase_bare_source {line : Text} {limit : Int} {tree : Tree}
    (h : parse line limit = .ok tree) :
    (erase .outside (tokenize line)).map Token.bare =
      (erase .outside (tokenize tree.source)).map Token.bare := by
  obtain ⟨p, hReads, hTree⟩ := reads_of_parseTokens h
  have hSource : p.tree.source = tree.source := by rw [hTree, Tree.source_bare]
  have hTokens := tokenize_source hReads
  rw [hSource] at hTokens
  obtain ⟨tail, ⟨last, more, rfl, hEnd, rfl⟩, hSuffix, hErase⟩ := hReads.kept
  -- The sequence closes at the end of the line, which has no text.
  have hLast : last = ending := by
    obtain ⟨body, final, hLine, hFinal, -⟩ := tokenize_sound line
    obtain ⟨front, hFront⟩ := hSuffix
    rw [hLine, List.map_append, List.map_singleton] at hFront
    obtain ⟨-, hSame⟩ := List.append_inj' hFront rfl
    rw [(List.cons.inj hSame).1]
    exact (Token.bare_eq_iff (b := ending)).2
      ⟨congrArg Prod.fst hFinal, congrArg Prod.snd hFinal⟩
  have hBalanced := hReads.balanced trivial p (by simp)
  rw [← erase_bare, ← erase_bare, hErase, hTokens, hLast,
    erase_append (by simp [frontKind, ending]), hBalanced]
  simp

/-- **Only the layout changes.** A line and the source of its tree have the same tokens, in
kind and text, once the blanks and separators outside of strings and the backslashes of
continuations are taken away. In particular they have the same strings, and the same
tokens of all other kinds, in the same order and number. -/
theorem erase_tokenize_source {line : Text} {limit : Int} {tree : Tree}
    (h : parse line limit = .ok tree) :
    (erase .outside (tokenize line)).map shape =
        (erase .outside (tokenize tree.source)).map shape ∧
      (content .outside (tokenize line)).map shape =
        (content .outside (tokenize tree.source)).map shape := by
  have hBare := erase_bare_source h
  refine ⟨map_shape_congr hBare, map_shape_congr ?_⟩
  rw [← content_erase, ← content_bare, hBare, content_bare, content_erase]

/-- Blanks, separators and a continuation go, inside of a string they stay. -/
theorem erase_tokenize_source_string :
    ∃ tree, parse "f  'a;  b';;\n\\\n$( g )|\nh".toList 7 = .ok tree ∧
      tree.source = "f 'a;  b'; $(g) | h".toList ∧
      (erase .outside (tokenize "f  'a;  b';;\n\\\n$( g )|\nh".toList)).map shape =
        (erase .outside (tokenize "f 'a;  b'; $(g) | h".toList)).map shape := by
  have hSource : (parse "f  'a;  b';;\n\\\n$( g )|\nh".toList 7).map Tree.source =
      .ok "f 'a;  b'; $(g) | h".toList := by cbv
  obtain ⟨tree, hTree, hText⟩ := exists_of_map_source hSource
  have hErase := (erase_tokenize_source hTree).1
  rw [hText] at hErase
  exact ⟨tree, hTree, hText, hErase⟩

end ShellReader
