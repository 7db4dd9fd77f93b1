import ShellReader.Highlight
import ShellReader.Proofs.Offsets

/-!
# ShellReader — highlighting leaves the text as it is

A line is shown in pieces, and the pieces put together are the line: the blanks in front of it,
the tokens one by one, the blanks behind it. None of the pieces is empty, unless the line is.

Two things are behind this. The tokens stand back to back in the core of the line, so going by
their offsets there is nothing to fill in but the blanks at the two ends (`lineByOffsets_eq_line`).
And a display never answers with anything but the fragments of the line that it is asked for,
because that is all it ever remembers (`Display.Sound`).

## Results

* `line_cases` — the fragments of a line, for a line of blanks and for any other.
* `lineByOffsets_eq_line` — going by the offsets of the tokens finds the same fragments.
* `Display.Sound.askAll` — a display answers every question as if it were the first.
* `fragments_cover` — the fragments of a line are the line, and those of the lines of a document
  the document.
-/

namespace ShellReader

namespace Text

/-- A text is its core, with blanks in front of it and something behind it. -/
theorem exists_takeWhile_append_core (text : Text) :
    ∃ trail, text.takeWhile isOuterBlank ++ (text.core ++ trail) = text :=
  ⟨_, by rw [core, trim, trimRight_append_takeWhile, takeWhile_append_trimLeft]⟩

theorem lead_add_length_core_le (text : Text) : text.lead + text.core.length ≤ text.length := by
  obtain ⟨trail, hText⟩ := exists_takeWhile_append_core text
  have hLength := congrArg List.length hText
  rw [List.length_append, List.length_append] at hLength
  unfold lead
  omega

/-- A text is what is in front of its core, the core and what is behind it. -/
theorem take_append_core_append_drop (text : Text) :
    text.take text.lead ++ text.core ++ text.drop (text.lead + text.core.length) = text := by
  obtain ⟨trail, hText⟩ := exists_takeWhile_append_core text
  have hDrop : text.drop text.lead = text.core ++ trail := by
    rw [lead]
    nth_rewrite 2 [← hText]
    exact List.drop_left
  rw [← List.drop_drop, hDrop, List.drop_left, List.append_assoc, ← hDrop, List.take_append_drop]

theorem mem_of_mem_core {text : Text} {c : Char} (h : c ∈ text.core) : c ∈ text := by
  rw [← text.take_append_core_append_drop]
  exact List.mem_append_left _ (List.mem_append_right _ h)

/-- Only a text of blanks has nothing in its core. -/
theorem core_eq_nil_iff {text : Text} :
    text.core = [] ↔ ∀ c ∈ text, isOuterBlank c = true := by
  rw [core, trim, trimRight, List.reverse_eq_nil_iff, List.dropWhile_eq_nil_iff]
  simp only [List.mem_reverse]
  constructor
  · intro hRest c hc
    rw [← takeWhile_append_trimLeft isOuterBlank text] at hc
    rcases List.mem_append.1 hc with hc | hc
    · exact List.mem_takeWhile_imp hc
    · exact hRest c hc
  · exact fun hAll c hc => hAll c ((List.dropWhile_suffix _).mem hc)

end Text

namespace Highlight

open Token (spelling Contiguous)

variable {text : Text} {body : List Token} {last : Token} {start : Int}

/-- What fragments show. -/
def shownText (fragments : List Fragment) : Text := fragments.flatMap (·.text)

@[simp] theorem shownText_append (fs gs : List Fragment) :
    shownText (fs ++ gs) = shownText fs ++ shownText gs := by
  simp [shownText]

@[simp] theorem shownText_gap (text : Text) : shownText (gap text) = text := by
  cases text <;> simp [shownText, gap, Fragment.plain]

-- ---------------------------------------------------------------------------
-- Lines
-- ---------------------------------------------------------------------------

/-- Every token that has text, the end aside, has one fragment, which shows that text. -/
theorem map_text_paint (p : Painter) (before : Option Token.Kind) (ts : List Token) :
    (p.paint before ts).map (·.text) =
      (ts.filter fun t => t.kind ≠ .endOfInput ∧ t.text ≠ []).map (·.text) := by
  induction ts generalizing p before with
  | nil => rfl
  | cons t rest ih =>
    rw [Painter.paint]
    by_cases hSkip : t.kind = .endOfInput ∨ t.text = []
    · rw [if_pos hSkip, List.filter_cons_of_neg (by simpa [or_iff_not_imp_left] using hSkip)]
      exact ih ..
    · rw [if_neg hSkip, List.filter_cons_of_pos (by simpa using hSkip)]
      exact congrArg _ (ih ..)

/-- The tokens of a command line that have a fragment: all in front of its end. -/
theorem filter_tokenize {tokens : List Token} (hLast : last.kind = .endOfInput)
    (hText : ∀ t ∈ tokens, t.kind ≠ .endOfInput ∧ t.text ≠ []) :
    ((tokens ++ [last]).filter fun t => t.kind ≠ .endOfInput ∧ t.text ≠ []) = tokens ∧
      ((tokens ++ [last]).filter fun t => t.kind ≠ .endOfInput) = tokens := by
  constructor
  · rw [List.filter_append, List.filter_eq_self.2 (by simpa using hText)]
    simp [hLast]
  · rw [List.filter_append, List.filter_eq_self.2 (by simpa using fun t ht => (hText t ht).1)]
    simp [hLast]

/-- The fragments of a line: a line of blanks is one by itself, any other has those of its tokens
between what is in front of its core and what is behind it. -/
theorem line_cases (text : Text) :
    (text.core = [] ∧ line text = [.plain text]) ∨
      (text.core ≠ [] ∧ ∃ body,
        body.map (·.text) = ((tokenize text).filter (·.kind ≠ .endOfInput)).map (·.text) ∧
        shownText body = text.core ∧ (∀ f ∈ body, f.text ≠ []) ∧
        line text = gap (text.take text.lead) ++ body ++
          gap (text.drop (text.lead + text.core.length))) := by
  obtain ⟨tokens, hTokens, hSpelling, hText⟩ := tokenize_eq_append text
  obtain ⟨hShown, hFilter⟩ := filter_tokenize
    (show (⟨.endOfInput, [], text.lead + text.core.length⟩ : Token).kind = .endOfInput from rfl)
    hText
  have hMap : (Painter.paint {} none (tokenize text)).map (·.text) = tokens.map (·.text) := by
    rw [map_text_paint, hTokens, hShown]
  cases hBody : Painter.paint {} none (tokenize text) with
  | nil =>
    left
    rw [hBody, List.map_nil, eq_comm, List.map_eq_nil_iff] at hMap
    rw [hMap] at hSpelling
    exact ⟨hSpelling.symm, by rw [line, hBody]⟩
  | cons f body =>
    right
    rw [hBody] at hMap
    have hCore : shownText (f :: body) = text.core := by
      rw [shownText, List.flatMap_def, hMap, ← List.flatMap_def]
      exact hSpelling
    have hSome : ∀ g ∈ f :: body, g.text ≠ [] := by
      intro g hg
      obtain ⟨t, ht, hSame⟩ := List.mem_map.1 (hMap ▸ List.mem_map_of_mem hg)
      rw [← hSame]
      exact (hText t ht).2
    refine ⟨?_, f :: body, by rw [hMap, hTokens, hFilter], hCore, hSome, by rw [line, hBody]⟩
    intro hBlank
    rw [← hCore, shownText, List.flatMap_cons] at hBlank
    exact hSome f (List.mem_cons_self ..) (List.append_eq_nil_iff.1 hBlank).1

/-- A line is its fragments, put together. -/
theorem shownText_line (text : Text) : shownText (line text) = text := by
  rcases line_cases text with ⟨-, hLine⟩ | ⟨-, body, -, hBody, -, hLine⟩
  · rw [hLine]
    simp [shownText, Fragment.plain]
  · rw [hLine, shownText_append, shownText_append, shownText_gap, shownText_gap, hBody,
      Text.take_append_core_append_drop]

/-- None of the fragments of a line is empty, unless the line is. -/
theorem ne_nil_of_mem_line (hText : text ≠ []) {f : Fragment} (hf : f ∈ line text) :
    f.text ≠ [] := by
  have hGap : ∀ t : Text, f ∈ gap t → f.text ≠ [] := by
    intro t hf
    cases t with
    | nil => cases hf
    | cons c rest =>
      obtain rfl := List.mem_singleton.1 hf
      exact List.cons_ne_nil c rest
  rcases line_cases text with ⟨-, hLine⟩ | ⟨-, body, -, -, hBody, hLine⟩
  · rw [hLine] at hf
    obtain rfl := List.mem_singleton.1 hf
    exact hText
  · rw [hLine] at hf
    simp only [List.mem_append] at hf
    rcases hf with (hf | hf) | hf
    · exact hGap _ hf
    · exact hBody f hf
    · exact hGap _ hf

-- ---------------------------------------------------------------------------
-- Going by offsets
-- ---------------------------------------------------------------------------

theorem between_self (text : Text) (start : Int) : between text start start = [] := by
  simp [between]

/-- A stretch within a text is a gap. -/
theorem between_eq_gap {a b : Nat} (hLength : b ≤ text.length) :
    between text a b = gap ((text.drop a).take (b - a)) := by
  unfold between gap
  by_cases hLess : a < b
  · have hSome : (text.drop a).take (b - a) ≠ [] := by
      intro hNil
      have hCount := congrArg List.length hNil
      rw [List.length_take, List.length_drop, List.length_nil] at hCount
      omega
    have hNumber : ((b : Int) - a).toNat = b - a := by omega
    rw [if_pos (by omega), if_neg (by simpa using hSome), Int.toNat_natCast, hNumber]
  · have hNone : b - a = 0 := by omega
    rw [if_neg (by omega), hNone]
    rfl

/-- Where painting starts from shows only in what comes before the first token. -/
theorem paintFrom_cons {t : Token} (hKind : t.kind ≠ .endOfInput) (hSome : t.text ≠ [])
    (p : Painter) (start : Int) (before : Option Token.Kind) (rest : List Token) :
    p.paintFrom text start before (t :: rest) =
      between text start t.offset ++ p.paintFrom text t.offset before (t :: rest) := by
  rw [Painter.paintFrom, Painter.paintFrom, if_neg (by simp [hKind, hSome]),
    if_neg (by simp [hKind, hSome]), between_self, List.nil_append]

/-- From where the tokens begin nothing is left out between them, so their fragments are followed
by what there is behind the last of them. -/
theorem paintFrom_eq_paint (hPlaces : Contiguous start body)
    (hText : ∀ t ∈ body, t.kind ≠ .endOfInput ∧ t.text ≠ []) (hLast : last.kind = .endOfInput)
    (p : Painter) (before : Option Token.Kind) :
    p.paintFrom text start before (body ++ [last]) =
      p.paint before (body ++ [last]) ++
        between text (start + (spelling body).length) text.length := by
  induction body generalizing start p before with
  | nil => simp [Painter.paintFrom, Painter.paint, hLast]
  | cons t body ih =>
    obtain ⟨rfl, hRest⟩ := hPlaces
    obtain ⟨hKind, hSome⟩ := hText t (List.mem_cons_self ..)
    rw [List.cons_append, Painter.paintFrom, Painter.paint, if_neg (by simp [hKind, hSome]),
      if_neg (by simp [hKind, hSome]), between_self, List.nil_append,
      ih hRest fun u hu => hText u (List.mem_cons_of_mem _ hu)]
    simp [Int.add_assoc]

/-- Going by the offsets of the tokens finds the same fragments. -/
theorem lineByOffsets_eq_line (text : Text) : lineByOffsets text = line text := by
  obtain ⟨tokens, hTokens, hSpelling, hText⟩ := tokenize_eq_append text
  have hPlaces := tokenize_contiguous text
  generalize hEnd : (⟨.endOfInput, [], (text.lead : Int) + text.core.length⟩ : Token) = last
    at hTokens
  have hLast : last.kind = .endOfInput := by rw [← hEnd]
  rw [hTokens] at hPlaces
  unfold lineByOffsets line
  rw [hTokens]
  cases tokens with
  | nil =>
    -- No token is shown, and the whole of the line is behind them.
    rw [List.nil_append, Painter.paintFrom, if_pos (.inl hLast), Painter.paintFrom, Painter.paint,
      if_pos (.inl hLast), Painter.paint]
    cases text <;> simp [between]
  | cons t more =>
    obtain ⟨hKind, hSome⟩ := hText t (List.mem_cons_self ..)
    have hBody := (Token.contiguous_append.1 hPlaces).1
    have hFront : between text 0 text.lead = gap (text.take text.lead) := by
      have hWithin := text.lead_add_length_core_le
      have hGap := between_eq_gap (show text.lead ≤ text.length by omega) (a := 0)
      rwa [List.drop_zero, Nat.sub_zero] at hGap
    have hBack : between text ((text.lead : Int) + (spelling (t :: more)).length) text.length =
        gap (text.drop (text.lead + text.core.length)) := by
      rw [hSpelling, ← Int.natCast_add, between_eq_gap (Nat.le_refl _),
        List.take_of_length_le (by simp)]
    rw [List.cons_append, paintFrom_cons hKind hSome, hBody.1, hFront, ← List.cons_append,
      paintFrom_eq_paint hBody hText hLast, hBack, List.cons_append, Painter.paint,
      if_neg (by simp [hKind, hSome])]
    cases gap (text.take text.lead) <;> simp

-- ---------------------------------------------------------------------------
-- Documents
-- ---------------------------------------------------------------------------

namespace Display

variable {d : Display}

/-- What a display remembers of a number is what there is to find under it. -/
def Sound (d : Display) : Prop :=
  ∀ number fragments, d.known.lookup number = some fragments →
    lineAt d.lines number = .ok fragments

theorem sound_ofText (document : Text) : (ofText document).Sound := by
  intro number fragments hKnown
  cases hKnown

/-- One question is answered by the line of its number, and what is remembered after it is still
right. -/
theorem Sound.ask (h : d.Sound) (number : Int) :
    (d.ask number).1 = lineAt d.lines number ∧ (d.ask number).2.lines = d.lines ∧
      (d.ask number).2.Sound := by
  unfold Display.ask
  cases hKnown : d.known.lookup number with
  | some fragments => exact ⟨(h number fragments hKnown).symm, rfl, h⟩
  | none =>
    cases hLine : lineAt d.lines number with
    | error miss => exact ⟨rfl, rfl, h⟩
    | ok fragments =>
      refine ⟨rfl, rfl, fun other found hOther => ?_⟩
      show lineAt d.lines other = .ok found
      rw [List.lookup_cons] at hOther
      by_cases hSame : other = number
      · simp only [hSame, BEq.rfl] at hOther
        rw [hSame, hLine, Option.some.inj hOther]
      · simp only [beq_false_of_ne hSame] at hOther
        exact h other found hOther

/-- Any number of questions, in any order, are each answered by the line of their number. -/
theorem Sound.askAll (h : d.Sound) (asked : List Int) :
    d.askAll asked = asked.map (lineAt d.lines) := by
  induction asked generalizing d with
  | nil => rfl
  | cons number rest ih =>
    obtain ⟨hAnswer, hLines, hSound⟩ := h.ask number
    rw [Display.askAll, ih hSound, hAnswer, hLines, List.map_cons]

end Display

/-- A number that is not past the end names the line that is so far down. -/
theorem lineAt_eq_line {lines : List Text} {k : Nat} (h : k < lines.length) :
    lineAt lines k = .ok (line lines[k]) := by
  unfold lineAt
  rw [Index.resolve_natCast]
  show Except.ok _ = _
  rw [List.getElem?_eq_getElem h]
  rfl

/-- The answers for all lines from the first to the last. -/
theorem map_lineAt_range (text : Text) :
    ((List.range text.lines.length).map fun k : Nat => lineAt text.lines k) =
      (document text).map .ok := by
  refine List.ext_getElem (by simp [document]) fun k hk _ => ?_
  rw [List.length_map, List.length_range] at hk
  simp [document, lineAt_eq_line hk]

/-- **Highlighting leaves the text as it is.** The fragments of a line show the line: each token
but the end in one of them, in order, and the blanks around the tokens, if there are any, in one
without a style; a line of blanks is one such fragment. None is empty unless the line is. So the
fragments of the lines of a document show the document, and these are the answers that a display
gives for the lines, however often and in whatever order it is asked. -/
theorem fragments_cover :
    (∀ text : Text, shownText (line text) = text ∧ lineByOffsets text = line text ∧
      (text ≠ [] → ∀ f ∈ line text, f.text ≠ []) ∧
      ((∀ c ∈ text, Text.isOuterBlank c = true) ∧ line text = [.plain text] ∨
        (∃ c ∈ text, Text.isOuterBlank c = false) ∧ ∃ body, body.map (·.text) =
            ((tokenize text).filter (·.kind ≠ .endOfInput)).map (·.text) ∧
          line text = gap (text.take text.lead) ++ body ++
            gap (text.drop (text.lead + text.core.length)))) ∧
    ∀ text : Text,
      (∀ asked : List Int,
        (Display.ofText text).askAll asked = asked.map (lineAt text.lines)) ∧
      ((List.range text.lines.length).map fun k : Nat => lineAt text.lines k) =
        (document text).map .ok ∧
      List.intercalate ['\n'] ((document text).map shownText) = text := by
  refine ⟨fun text => ⟨shownText_line text, lineByOffsets_eq_line text,
    fun hText _ => ne_nil_of_mem_line hText, ?_⟩, fun text => ⟨?_, map_lineAt_range text, ?_⟩⟩
  · rcases line_cases text with ⟨hCore, hLine⟩ | ⟨hCore, body, hBody, -, -, hLine⟩
    · exact .inl ⟨Text.core_eq_nil_iff.1 hCore, hLine⟩
    · rw [ne_eq, Text.core_eq_nil_iff] at hCore
      exact .inr ⟨by simpa using hCore, body, hBody, hLine⟩
  · exact (Display.sound_ofText text).askAll
  · have hLines : (document text).map shownText = text.lines := by
      rw [document, List.map_map]
      exact (List.map_congr_left fun t _ => shownText_line t).trans (List.map_id _)
    rw [hLines, Text.intercalate_lines]

/-- A stray parenthesis, a newline and a string without an end; and a document whose second line
is asked for twice. -/
theorem fragments_cover_stray :
    (" )\n'a ".toList ≠ [] ∧ ∀ f ∈ line " )\n'a ".toList, f.text ≠ []) ∧
      (line " )\n'a ".toList).map (·.text) =
        [" ".toList, ")".toList, "\n".toList, "'".toList, "a".toList, " ".toList] ∧
      (Display.ofText "a\n )".toList).askAll [1, 0, 1] =
        [.ok [.plain [' '], ⟨"", [')']⟩], .ok [⟨"bold", ['a']⟩],
          .ok [.plain [' '], ⟨"", [')']⟩]] := by
  have hText : " )\n'a ".toList ≠ [] := by decide
  refine ⟨⟨hText, (fragments_cover.1 _).2.2.1 hText⟩, by decide, ?_⟩
  rw [(fragments_cover.2 _).1]
  decide

end Highlight

end ShellReader
