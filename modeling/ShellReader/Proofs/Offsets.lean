import Mathlib.Data.List.TakeWhile
import ShellReader.Proofs.Lexical

/-!
# ShellReader — where tokens stand

The tokens of a command line stand back to back: the first one where the blanks in
front of the line end, and each further one where the text of the one before it ends.
So the text of a token can be read off the line at the token's offset.

## Results

* `Scanner.scan_contiguous` — the tokens of a text stand back to back.
* `tokenize_contiguous` — so do those of a command line, behind its leading blanks.
* `tokenize_slice` — the line has the text of a token at the token's offset.
* `tokenize_in_place` — all of it together: the tokens divide up the core of the line where it
  stands, and one end closes them.
-/

namespace ShellReader

open Token (spelling)

-- ---------------------------------------------------------------------------
-- Back to back
-- ---------------------------------------------------------------------------

namespace Token

/-- The tokens stand one right behind the other, the first of them at `start`. -/
def Contiguous (start : Int) : List Token → Prop
  | [] => True
  | t :: rest => t.offset = start ∧ Contiguous (start + t.text.length) rest

theorem contiguous_append {start : Int} {ts us : List Token} :
    Contiguous start (ts ++ us) ↔
      Contiguous start ts ∧ Contiguous (start + (spelling ts).length) us := by
  induction ts generalizing start with
  | nil => simp [Contiguous]
  | cons t ts ih => simp [Contiguous, ih, and_assoc, Int.add_assoc]

theorem contiguous_singleton {start : Int} {t : Token} :
    Contiguous start [t] ↔ t.offset = start := by
  simp [Contiguous]

/-- The first token is at the start, and each further one where the text of the one before it
ends. -/
theorem contiguous_iff {start : Int} {ts : List Token} :
    Contiguous start ts ↔ (∀ t ∈ ts.head?, t.offset = start) ∧
      ts.IsChain fun t next => next.offset = t.offset + (t.text.length : Int) := by
  induction ts generalizing start with
  | nil => simp [Contiguous]
  | cons t ts ih =>
    rw [Contiguous, ih]
    constructor
    · rintro ⟨rfl, hHead, hChain⟩
      exact ⟨by simp, List.isChain_cons.2 ⟨hHead, hChain⟩⟩
    · rintro ⟨hStart, hChain⟩
      obtain rfl : t.offset = start := hStart t rfl
      exact ⟨rfl, List.isChain_cons.1 hChain⟩

/-- Moving every token by `n` moves the start by `n`. -/
theorem Contiguous.shift {start : Int} {ts : List Token} (h : Contiguous start ts) (n : Int) :
    Contiguous (n + start) (ts.map (·.shift n)) := by
  induction ts generalizing start with
  | nil => trivial
  | cons t ts ih =>
    obtain ⟨rfl, hRest⟩ := h
    refine ⟨rfl, ?_⟩
    rw [shift_text, Int.add_assoc]
    exact ih hRest

end Token

open Token (Contiguous contiguous_append contiguous_singleton)

-- ---------------------------------------------------------------------------
-- Scanning
-- ---------------------------------------------------------------------------

namespace Scanner

variable {s : Scanner} {found : List Token} {text : Text}

/-- One more character keeps the tokens, with the one in the making, back to back. -/
theorem contiguous_feed (h : Sound s found text) (hFound : Contiguous 0 (found ++ s.flush))
    (c : Char) :
    Contiguous 0 (found ++ (s.feed text.length c).2 ++ (s.feed text.length c).1.flush) := by
  cases hc : s.mode.continues c with
  | true =>
    -- The token in the making gets longer and stays where it is.
    obtain ⟨k, k', hLonger⟩ := feed_continues (text.length : Int) hc
    rw [hLonger.flush, contiguous_append, contiguous_singleton] at hFound
    rw [List.append_assoc, hLonger.feed, contiguous_append, contiguous_singleton]
    exact hFound
  | false =>
    rw [feed_restarts h.settled hc]
    show Contiguous 0 (found ++ (s.flush ++ (s.idle.begin text.length c).2) ++
      (s.idle.begin text.length c).1.flush)
    rw [← List.append_assoc, List.append_assoc (found ++ s.flush), contiguous_append]
    refine ⟨hFound, ?_⟩
    rw [h.spelled, Int.zero_add]
    cases hKind : punctuation? c with
    | some k =>
      rw [begin_punctuation hKind]
      exact ⟨rfl, trivial⟩
    | none =>
      obtain ⟨hNone, hFlush, -⟩ := begin_pending s.idle (text.length : Int) hKind
      rw [hNone, hFlush]
      exact ⟨rfl, trivial⟩

/-- A whole text keeps them back to back. -/
theorem contiguous_feedAll (h : Sound s found text) (hFound : Contiguous 0 (found ++ s.flush))
    (rest : Text) :
    Contiguous 0
      (found ++ (s.feedAll text.length rest).2 ++ (s.feedAll text.length rest).1.flush) := by
  induction rest generalizing s found text with
  | nil => simpa [feedAll] using hFound
  | cons c rest ih =>
    have hRest := ih (h.feed text.length c) (contiguous_feed h hFound c)
    have hPos : ((text ++ [c]).length : Int) = text.length + 1 := by simp
    rw [hPos] at hRest
    simpa [feedAll] using hRest

/-- The tokens of a text stand back to back. -/
theorem scan_contiguous (text : Text) : Contiguous 0 (scan text) := by
  have hStart : Sound {} [] [] := ⟨fun _ => rfl, Token.wellFormed_nil, rfl, by simp⟩
  have hEnd := (hStart.feedAll 0 text).spelled
  have hFound := contiguous_feedAll hStart trivial text
  show Contiguous 0 (_ ++ (_ ++ [_]))
  rw [← List.append_assoc, contiguous_append, contiguous_singleton]
  refine ⟨hFound, ?_⟩
  rw [List.nil_append] at hEnd
  rw [hEnd]
  simp

end Scanner

-- ---------------------------------------------------------------------------
-- Command lines
-- ---------------------------------------------------------------------------

/-- The tokens of a command line stand back to back, behind its leading blanks. -/
theorem tokenize_contiguous (line : Text) : Contiguous line.lead (tokenize line) := by
  have hShift := (Scanner.scan_contiguous line.core).shift line.lead
  rwa [Int.add_zero] at hShift

/-- A command line is its tokens, between the blanks around it. -/
theorem exists_eq_spelling_tokenize (line : Text) :
    ∃ trail, line = line.takeWhile Text.isOuterBlank ++ spelling (tokenize line) ++ trail := by
  obtain ⟨body, last, hTokens, hLast, -, hSpelling⟩ := tokenize_sound line
  have hText : last.text = [] := congrArg Prod.snd hLast
  refine ⟨((line.trimLeft Text.isOuterBlank).reverse.takeWhile Text.isOuterBlank).reverse, ?_⟩
  rw [hTokens, Token.spelling_append, Token.spelling_cons, hText, hSpelling]
  simp only [Token.spelling_nil, List.append_nil, List.append_assoc]
  rw [Text.core, Text.trim, Text.trimRight_append_takeWhile, Text.takeWhile_append_trimLeft]

/-- The line has the text of a token at the token's offset. -/
theorem tokenize_slice {line : Text} {t : Token} (h : t ∈ tokenize line) :
    0 ≤ t.offset ∧ (line.drop t.offset.toNat).take t.text.length = t.text := by
  obtain ⟨before, after, hSplit⟩ := List.append_of_mem h
  obtain ⟨trail, hLine⟩ := exists_eq_spelling_tokenize line
  have hPlaces := tokenize_contiguous line
  rw [hSplit, contiguous_append] at hPlaces
  have hOffset : t.offset = ((line.lead + (spelling before).length : Nat) : Int) := by
    rw [hPlaces.2.1, Int.natCast_add]
  rw [hSplit] at hLine
  refine ⟨by omega, ?_⟩
  rw [hOffset, Int.toNat_natCast]
  -- In front of the token there are the leading blanks and the tokens before it.
  have hFront : line = (line.takeWhile Text.isOuterBlank ++ spelling before) ++
      (t.text ++ (spelling after ++ trail)) := by
    simpa using hLine
  have hLength : line.lead + (spelling before).length =
      (line.takeWhile Text.isOuterBlank ++ spelling before).length := by
    rw [List.length_append, Text.lead]
  generalize line.takeWhile Text.isOuterBlank ++ spelling before = front at hFront hLength
  rw [hLength, hFront, List.drop_left, List.take_left]

/-- The tokens of a command line have text and spell the core of the line. Behind the core stands
the one end. -/
theorem tokenize_eq_append (line : Text) :
    ∃ body, tokenize line = body ++
        [⟨.endOfInput, [], (line.lead : Int) + line.core.length⟩] ∧
      spelling body = line.core ∧ ∀ t ∈ body, t.kind ≠ .endOfInput ∧ t.text ≠ [] := by
  obtain ⟨body, last, hTokens, hLast, ⟨hFits, -⟩, hSpelling⟩ := tokenize_sound line
  have hPlaces := tokenize_contiguous line
  rw [hTokens, contiguous_append, contiguous_singleton, hSpelling] at hPlaces
  have hEnd : last = ⟨.endOfInput, [], (line.lead : Int) + line.core.length⟩ := by
    obtain ⟨kind, text, offset⟩ := last
    obtain ⟨rfl, rfl⟩ := Prod.mk.inj hLast
    rw [show offset = _ from hPlaces.2]
  refine ⟨body, by rw [hTokens, hEnd], hSpelling, fun t ht => ?_⟩
  refine ⟨fun hKind => ?_, Token.ne_nil_of_fits (hFits t ht)⟩
  -- No text fits the end.
  have hNone := hFits t ht
  rw [hKind] at hNone
  cases hNone

/-- A line of blanks is all lead. -/
theorem Text.lead_eq_length {line : Text} (h : ∀ c ∈ line, isOuterBlank c = true) :
    line.lead = line.length := by
  rw [lead, List.takeWhile_eq_self_iff.2 h]

/-- **Tokens stand in place.** The tokens of a command line are non-empty pieces of its core, one
right behind the other from where the leading blanks are over, and the line has each text at the
token's offset. One end, without text, closes them where the core is over. -/
theorem tokenize_in_place (line : Text) :
    (∃ body, tokenize line = body ++
        [⟨.endOfInput, [], (line.lead : Int) + line.core.length⟩] ∧
      spelling body = line.core ∧ ∀ t ∈ body, t.kind ≠ .endOfInput ∧ t.text ≠ []) ∧
    (tokenize line).head?.map (·.offset) = some (line.lead : Int) ∧
    ((tokenize line).IsChain fun t next => next.offset = t.offset + (t.text.length : Int)) ∧
    (∀ t ∈ tokenize line, 0 ≤ t.offset ∧
      (line.drop t.offset.toNat).take t.text.length = t.text) ∧
    ((∀ c ∈ line, Text.isOuterBlank c = true) → line.lead = line.length) := by
  obtain ⟨hStart, hChain⟩ := Token.contiguous_iff.1 (tokenize_contiguous line)
  refine ⟨tokenize_eq_append line, ?_, hChain, fun t => tokenize_slice, Text.lead_eq_length⟩
  obtain ⟨body, hTokens, -⟩ := tokenize_eq_append line
  rw [hTokens] at hStart ⊢
  cases body with
  | nil => exact congrArg some (hStart _ rfl)
  | cons t body => exact congrArg some (hStart t rfl)

/-- Operators that the next character lets go and one that the end of the text does, and a line
of blanks. -/
theorem tokenize_in_place_operators :
    (tokenize " \na||b&&&c| \n".toList).map (·.offset) = [2, 3, 5, 6, 8, 9, 10, 11] ∧
      (tokenize " \na||b&&&c| \n".toList).head?.map (·.offset) =
        some (Text.lead " \na||b&&&c| \n".toList : Int) ∧
      (∀ c ∈ " \n ".toList, Text.isOuterBlank c = true) ∧ Text.lead " \n ".toList = 3 := by
  have hBlank : ∀ c ∈ " \n ".toList, Text.isOuterBlank c = true := by simp [Text.isOuterBlank]
  refine ⟨by decide, (tokenize_in_place " \na||b&&&c| \n".toList).2.1, hBlank, ?_⟩
  exact (tokenize_in_place " \n ".toList).2.2.2.2 hBlank

end ShellReader
