import Mathlib.Data.List.Chain
import ShellReader.Token.Scanner

/-!
# ShellReader — the lexical grammar

Which token lists are written down in which text. A list is *well formed* when
the text of every token fits its kind and no two neighbours would run together:
words and numbers do not touch, a `|` is not followed by another, nor a `&`.

Such a list can be told from its text alone. The scanner, fed the text of one
more token, completes the token it has in the making, because what comes next
does not continue it, and is then in the middle of the new one.

## Results

* `Scanner.feed_wellFormed` — one more character keeps the tokens, with the one in the
  making, well formed and spelled like the text.
* `Scanner.feedAll_spelling` — the characters of a token that may follow complete the
  token in the making and leave the new one in its place.
* `tokenize_lexical` — the tokens of a line are well formed and spell it, and the
  text of a well-formed list has the tokens of the list.
-/

namespace ShellReader

-- ---------------------------------------------------------------------------
-- Well-formed token lists
-- ---------------------------------------------------------------------------

namespace Token

/-- The text of a kind that is always written in the same way. -/
def Kind.spelling? : Kind → Option Text
  | space            => some [' ']
  | equals           => some ['=']
  | singleQuote      => some ['\x27']
  | backtick         => some ['\x60']
  | doubleQuote      => some ['\x22']
  | newline          => some ['\n']
  | semicolon        => some [';']
  | backslash        => some ['\x5c']
  | dollar           => some ['$']
  | leftParenthesis  => some ['(']
  | rightParenthesis => some [')']
  | slash            => some ['/']
  | pipe             => some ['|']
  | andIf            => some ['&', '&']
  | orIf             => some ['|', '|']
  | ampersand        => some ['&']
  | word             => none
  | numberedWord     => none
  | number           => none
  | endOfInput       => none

/-- The three kinds of words. -/
def Kind.isWord : Kind → Bool
  | word | numberedWord | number => true
  | _ => false

/-- Whether a text holds nothing that ends a word. -/
def isPlain (text : Text) : Bool := text.all fun c => !Scanner.endsWord c

/-- Whether a text can be that of a token of the given kind. Nothing is written for the
end. -/
def fits : Kind → Text → Bool
  | .number, text => !text.isEmpty && text.all Text.isAsciiDigit
  | .numberedWord, text =>
    text.head?.any Text.isAsciiDigit && text.any (fun c => !Text.isAsciiDigit c) && isPlain text
  | .word, text => text.head?.any (fun c => !Text.isAsciiDigit c) && isPlain text
  | kind, text => kind.spelling? == some text

/-- Whether a token of kind `b` may directly follow one of kind `a`. -/
def mayFollow (a b : Kind) : Bool :=
  !(a.isWord && b.isWord) && !(a == .pipe && (b == .pipe || b == .orIf)) &&
    !(a == .ampersand && (b == .ampersand || b == .andIf))

/-- Every text fits its kind, and no two neighbours run together. -/
def WellFormed (ts : List Token) : Prop :=
  (∀ t ∈ ts, fits t.kind t.text = true) ∧ ts.IsChain fun a b => mayFollow a.kind b.kind = true

instance (ts : List Token) : Decidable (WellFormed ts) :=
  inferInstanceAs (Decidable (_ ∧ _))

/-- What tokens are written as, one after the other. -/
def spelling (ts : List Token) : Text := ts.flatMap (·.text)

/-- Kind and text of a token, wherever it stands. -/
def shape (t : Token) : Kind × Text := (t.kind, t.text)

@[simp] theorem spelling_nil : spelling [] = [] := rfl

@[simp] theorem spelling_cons (t : Token) (ts : List Token) :
    spelling (t :: ts) = t.text ++ spelling ts := rfl

@[simp] theorem spelling_append (ts us : List Token) :
    spelling (ts ++ us) = spelling ts ++ spelling us := by
  simp [spelling]

/-- Kinds and texts alone make a list well formed. -/
theorem WellFormed.congr {ts us : List Token} (h : WellFormed ts)
    (hShape : ts.map shape = us.map shape) : WellFormed us := by
  have hIff : ∀ vs : List Token, WellFormed vs ↔
      (∀ p ∈ vs.map shape, fits p.1 p.2 = true) ∧
        (vs.map shape).IsChain fun a b => mayFollow a.1 b.1 = true := by
    intro vs
    rw [List.isChain_map, List.forall_mem_map]
    rfl
  rw [hIff, ← hShape, ← hIff]
  exact h

theorem spelling_congr {ts us : List Token} (hShape : ts.map shape = us.map shape) :
    spelling ts = spelling us := by
  have hEq : ∀ vs : List Token, spelling vs = (vs.map shape).flatMap (·.2) := by
    intro vs
    rw [List.flatMap_map]
    rfl
  rw [hEq, hShape, ← hEq]

theorem wellFormed_nil : WellFormed [] := ⟨by simp, .nil⟩

/-- One more token, which may follow the last. -/
theorem WellFormed.concat {ts : List Token} {t : Token} (h : WellFormed ts)
    (hFits : fits t.kind t.text = true)
    (hFollow : ∀ a ∈ ts.getLast?, mayFollow a.kind t.kind = true) : WellFormed (ts ++ [t]) := by
  refine ⟨?_, h.2.append (.singleton t) ?_⟩
  · intro a ha
    rcases List.mem_append.1 ha with ha | ha
    · exact h.1 a ha
    · rw [List.mem_singleton.1 ha]
      exact hFits
  · intro a ha b hb
    obtain rfl : t = b := by simpa using hb
    exact hFollow a ha

/-- Another last token, which may follow whatever the old one may follow. -/
theorem WellFormed.replace {ts : List Token} {t u : Token} (h : WellFormed (ts ++ [t]))
    (hFits : fits u.kind u.text = true)
    (hFollow : ∀ k, mayFollow k t.kind = true → mayFollow k u.kind = true) :
    WellFormed (ts ++ [u]) := by
  obtain ⟨hLeft, -, hJoint⟩ := List.isChain_append.1 h.2
  refine WellFormed.concat ⟨fun a ha => h.1 a (List.mem_append_left _ ha), hLeft⟩ hFits ?_
  intro a ha
  exact hFollow a.kind (hJoint a ha t (by simp))

-- ---------------------------------------------------------------------------
-- Characters and kinds
-- ---------------------------------------------------------------------------

/-- One entry of a table: it is the one that is found, or the search goes on. -/
theorem ite_eq_some {α : Type} {p : Prop} [Decidable p] {a b : α} {o : Option α}
    (h : (if p then some a else o) = some b) : (p ∧ a = b) ∨ o = some b := by
  by_cases hp : p
  · rw [if_pos hp] at h
    exact .inl ⟨hp, Option.some.inj h⟩
  · rw [if_neg hp] at h
    exact .inr h

/-- A punctuation character is the text of its kind, which is no word and no operator,
and it is no digit. -/
theorem of_punctuation? {c : Char} {k : Kind} (h : Scanner.punctuation? c = some k) :
    k.spelling? = some [c] ∧ k.isWord = false ∧ k ≠ .pipe ∧ k ≠ .ampersand ∧
      Text.isAsciiDigit c = false := by
  rw [Scanner.punctuation?] at h
  iterate 12
    obtain ⟨rfl, rfl⟩ | h := ite_eq_some h
    · decide
  cases h

/-- A digit does not end a word. -/
theorem endsWord_of_isAsciiDigit {c : Char} (h : Text.isAsciiDigit c = true) :
    Scanner.endsWord c = false := by
  simp only [Scanner.endsWord, Scanner.isOperatorChar, Bool.or_eq_false_iff]
  refine ⟨?_, ?_, ?_⟩
  · cases hKind : Scanner.punctuation? c with
    | none => rfl
    | some k =>
      have hDigit := (of_punctuation? hKind).2.2.2.2
      rw [hDigit] at h
      exact absurd h Bool.false_ne_true
  · rw [beq_eq_false_iff_ne]
    rintro rfl
    exact absurd h (by decide)
  · rw [beq_eq_false_iff_ne]
    rintro rfl
    exact absurd h (by decide)

/-- Anything may follow a kind that is no word and no single operator. -/
theorem mayFollow_of_not {a b : Kind} (hWord : a.isWord = false) (hPipe : a ≠ .pipe)
    (hAmpersand : a ≠ .ampersand) : mayFollow a b = true := by
  simp [mayFollow, hWord, hPipe, hAmpersand]

/-- No word may follow a word. -/
theorem mayFollow_words {a b : Kind} (ha : a.isWord = true) (hb : b.isWord = true) :
    mayFollow a b = false := by
  simp [mayFollow, ha, hb]

/-- A kind that is no word and no operator may follow anything. -/
theorem mayFollow_punctuation {c : Char} {a b : Kind} (h : Scanner.punctuation? c = some b) :
    mayFollow a b = true := by
  have hOther := of_punctuation? h
  have hDouble : b ≠ .orIf ∧ b ≠ .andIf := by
    constructor <;> rintro rfl <;> simp [Kind.spelling?] at hOther
  simp [mayFollow, hOther, hDouble]

/-- A text that holds nothing but digits is plain. -/
theorem isPlain_of_digits {text : Text} (h : text.all Text.isAsciiDigit = true) :
    isPlain text = true := by
  rw [List.all_eq_true] at h
  rw [isPlain, List.all_eq_true]
  intro c hc
  rw [endsWord_of_isAsciiDigit (h c hc)]
  rfl

theorem isPlain_concat {text : Text} {c : Char} (h : isPlain text = true)
    (hc : Scanner.endsWord c = false) : isPlain (text ++ [c]) = true := by
  simp_all [isPlain]

/-- A kind that is always written in the same way fits that text and no other. -/
theorem fits_iff_of_spelling? {k : Kind} {fixed text : Text} (h : k.spelling? = some fixed) :
    fits k text = true ↔ text = fixed := by
  have hFits : fits k text = (k.spelling? == some text) := by
    cases k <;> first | rfl | cases h
  rw [hFits, h, beq_iff_eq, Option.some.injEq, eq_comm]

/-- Every token has a text. -/
theorem ne_nil_of_fits {k : Kind} {text : Text} (h : fits k text = true) : text ≠ [] := by
  rintro rfl
  cases k <;> cases h

/-- What is not always written in the same way is a word, and its text is plain. -/
theorem isPlain_of_fits {k : Kind} {text : Text} (h : fits k text = true)
    (hSpelling : k.spelling? = none) : k.isWord = true ∧ isPlain text = true := by
  cases k with
  | number =>
    rw [fits, Bool.and_eq_true] at h
    exact ⟨rfl, isPlain_of_digits h.2⟩
  | numberedWord =>
    rw [fits, Bool.and_eq_true] at h
    exact ⟨rfl, h.2⟩
  | word =>
    rw [fits, Bool.and_eq_true] at h
    exact ⟨rfl, h.2⟩
  | endOfInput => cases h
  | _ => cases hSpelling

/-- A word stays one with one more plain character. -/
theorem fits_word_concat {text : Text} {c : Char} (h : fits .word text = true)
    (hc : Scanner.endsWord c = false) : fits .word (text ++ [c]) = true := by
  cases text with
  | nil => simp [fits] at h
  | cons d rest =>
    simp only [fits, Bool.and_eq_true] at h ⊢
    exact ⟨h.1, isPlain_concat h.2 hc⟩

theorem fits_numberedWord_concat {text : Text} {c : Char} (h : fits .numberedWord text = true)
    (hc : Scanner.endsWord c = false) : fits .numberedWord (text ++ [c]) = true := by
  cases text with
  | nil => simp [fits] at h
  | cons d rest =>
    simp only [fits, Bool.and_eq_true] at h ⊢
    refine ⟨⟨h.1.1, ?_⟩, isPlain_concat h.2 hc⟩
    rw [List.any_append, h.1.2]
    rfl

/-- A number stays one with one more digit, and is a word from the first other character
on. -/
theorem fits_number_concat {text : Text} {c : Char} (h : fits .number text = true)
    (hc : Scanner.endsWord c = false) :
    fits (if Text.isAsciiDigit c then .number else .numberedWord) (text ++ [c]) = true := by
  cases text with
  | nil => simp [fits] at h
  | cons d rest =>
    have hDigits : (d :: rest).all Text.isAsciiDigit = true := by simpa [fits] using h
    by_cases hDigit : Text.isAsciiDigit c = true
    · simp_all [fits]
    · have hPlain := isPlain_of_digits hDigits
      simp_all [fits, isPlain]

end Token

namespace Scanner

open Token (fits mayFollow isPlain spelling shape WellFormed)

variable {s : Scanner} {pos : Int} {c : Char}

-- ---------------------------------------------------------------------------
-- One character
-- ---------------------------------------------------------------------------

/-- Whether a character goes on with the token in the making. -/
def Mode.continues : Mode → Char → Bool
  | .idle, _ => false
  | .pipe, c => c == '|'
  | .ampersand, c => c == '&'
  | .word, c | .numberedWord, c | .number, c => !endsWord c

/-- No text is left over when no token is in the making. -/
def Settled (s : Scanner) : Prop := s.mode = .idle → s.word = []

theorem settled_idle (s : Scanner) : Settled s.idle := fun _ => rfl

/-- The kind of the token that a character begins, if it is not one by itself. -/
def kindOfFirst (c : Char) : Token.Kind :=
  if c = '|' then .pipe
  else if c = '&' then .ampersand
  else if Text.isAsciiDigit c then .number
  else .word

/-- What does not go on with the token in the making completes it. -/
theorem feed_restarts (h : Settled s) (hc : s.mode.continues c = false) :
    s.feed pos c = s.restart pos c := by
  cases hMode : s.mode with
  | idle =>
    have hIdle : s.idle = s := by
      rw [idle, ← hMode, ← h hMode]
    simp [feed, restart, flush, Mode.pending?, hMode, hIdle]
  | _ =>
    rw [hMode] at hc
    simp_all [feed, Mode.continues]

/-- A character makes the token in the making longer, and perhaps complete: its kind was `k`
and is `k'`. -/
structure Prolongs (s : Scanner) (pos : Int) (c : Char) (k k' : Token.Kind) : Prop where
  flush   : s.flush = [⟨k, s.word, s.start⟩]
  feed    : (s.feed pos c).2 ++ (s.feed pos c).1.flush = [⟨k', s.word ++ [c], s.start⟩]
  follows : ∀ a, mayFollow a k = true → mayFollow a k' = true
  fits    : fits k s.word = true → fits k' (s.word ++ [c]) = true
  settled : Settled (s.feed pos c).1
  apart   : (s.feed pos c).1.mode = .idle → ∀ b, mayFollow k' b = true

/-- The token stays in the making, perhaps as another kind of word. -/
theorem prolongs_word {k k' : Token.Kind} {mode : Mode} (hKind : s.mode.pending? = some k)
    (hFeed : s.feed pos c = ({ s with mode := mode, word := s.word ++ [c] }, []))
    (hKind' : mode.pending? = some k')
    (hFollows : ∀ a, mayFollow a k = true → mayFollow a k' = true)
    (hFits : fits k s.word = true → fits k' (s.word ++ [c]) = true) : Prolongs s pos c k k' where
  flush := by rw [Scanner.flush, hKind]
  feed := by rw [hFeed, Scanner.flush, hKind', List.nil_append]
  follows := hFollows
  fits := hFits
  settled := by
    rw [hFeed]
    rintro rfl
    cases hKind'
  apart := by
    rw [hFeed]
    rintro rfl
    cases hKind'

/-- The token is an operator of two characters, and complete. -/
theorem prolongs_double {k k' : Token.Kind} {fixed : Text} (hKind : s.mode.pending? = some k)
    (hFeed : s.feed pos c = s.double k' c) (hSpelling : k.spelling? = some fixed)
    (hSpelling' : k'.spelling? = some (fixed ++ [c]))
    (hFollows : ∀ a, mayFollow a k = true → mayFollow a k' = true)
    (hApart : ∀ b, mayFollow k' b = true) : Prolongs s pos c k k' where
  flush := by rw [Scanner.flush, hKind]
  feed := by
    rw [hFeed]
    rfl
  follows := hFollows
  fits hFits := by
    rw [(Token.fits_iff_of_spelling? hSpelling).1 hFits]
    exact (Token.fits_iff_of_spelling? hSpelling').2 rfl
  settled := by
    rw [hFeed]
    exact settled_idle s
  apart _ := hApart

/-- What goes on with the token in the making makes it longer. -/
theorem feed_continues (pos : Int) (hc : s.mode.continues c = true) :
    ∃ k k', Prolongs s pos c k k' := by
  cases hMode : s.mode with
  | idle =>
    rw [hMode] at hc
    cases hc
  | word =>
    have hPlain : endsWord c = false := by simpa [hMode, Mode.continues] using hc
    have hFeed : s.feed pos c = ({ s with mode := .word, word := s.word ++ [c] }, []) := by
      simp [feed, hMode, hPlain]
    exact ⟨_, _, prolongs_word (by rw [hMode]; rfl) hFeed rfl (fun _ h => h)
      fun hFits => Token.fits_word_concat hFits hPlain⟩
  | numberedWord =>
    have hPlain : endsWord c = false := by simpa [hMode, Mode.continues] using hc
    have hFeed : s.feed pos c =
        ({ s with mode := .numberedWord, word := s.word ++ [c] }, []) := by
      simp [feed, hMode, hPlain]
    exact ⟨_, _, prolongs_word (by rw [hMode]; rfl) hFeed rfl (fun _ h => h)
      fun hFits => Token.fits_numberedWord_concat hFits hPlain⟩
  | number =>
    have hPlain : endsWord c = false := by simpa [hMode, Mode.continues] using hc
    have hFeed : s.feed pos c = ({ s with
        mode := if Text.isAsciiDigit c then .number else .numberedWord
        word := s.word ++ [c] }, []) := by
      simp [feed, hMode, hPlain]
    refine ⟨.number, if Text.isAsciiDigit c then .number else .numberedWord,
      prolongs_word (by rw [hMode]; rfl) hFeed ?_ ?_ ?_⟩
    · split <;> rfl
    · intro a ha
      split
      · exact ha
      · simpa [mayFollow, Token.Kind.isWord] using ha
    · exact fun hFits => Token.fits_number_concat hFits hPlain
  | pipe =>
    obtain rfl : c = '|' := by simpa [hMode, Mode.continues] using hc
    have hFeed : s.feed pos '|' = s.double .orIf '|' := by simp [feed, hMode]
    refine ⟨_, _, prolongs_double (by rw [hMode]; rfl) hFeed rfl rfl ?_ ?_⟩
    · intro a ha
      cases a <;> simp_all [mayFollow, Token.Kind.isWord]
    · exact fun b => Token.mayFollow_of_not rfl (by decide) (by decide)
  | ampersand =>
    obtain rfl : c = '&' := by simpa [hMode, Mode.continues] using hc
    have hFeed : s.feed pos '&' = s.double .andIf '&' := by simp [feed, hMode]
    refine ⟨_, _, prolongs_double (by rw [hMode]; rfl) hFeed rfl rfl ?_ ?_⟩
    · intro a ha
      cases a <;> simp_all [mayFollow, Token.Kind.isWord]
    · exact fun b => Token.mayFollow_of_not rfl (by decide) (by decide)

theorem flush_of_idle (h : s.mode = .idle) : s.flush = [] := by
  rw [flush, h]
  rfl

theorem flush_idle (s : Scanner) : s.idle.flush = [] := rfl

theorem flush_of_not_idle (h : s.mode ≠ .idle) :
    ∃ k, s.mode.pending? = some k ∧ s.flush = [⟨k, s.word, s.start⟩] := by
  cases hMode : s.mode with
  | idle => exact absurd hMode h
  | _ => exact ⟨_, rfl, by rw [flush, hMode]; rfl⟩

/-- A punctuation character is a token at once. -/
theorem begin_punctuation {k : Token.Kind} (h : punctuation? c = some k) :
    s.begin pos c = (s, [⟨k, [c], pos⟩]) := by
  rw [begin, h]

/-- Any other character is the start of a token. -/
theorem begin_pending (s : Scanner) (pos : Int) (h : punctuation? c = none) :
    (s.begin pos c).2 = [] ∧ (s.begin pos c).1.flush = [⟨kindOfFirst c, [c], pos⟩] ∧
      (s.begin pos c).1.mode ≠ .idle := by
  rw [begin, h]
  simp only [flush, kindOfFirst]
  split_ifs <;> simp [Mode.pending?]

/-- A single character fits the kind of the token it begins. -/
theorem fits_kindOfFirst (h : punctuation? c = none) : fits (kindOfFirst c) [c] = true := by
  rw [kindOfFirst]
  by_cases hPipe : c = '|'
  · rw [if_pos hPipe, hPipe]
    rfl
  by_cases hAmpersand : c = '&'
  · rw [if_neg hPipe, if_pos hAmpersand, hAmpersand]
    rfl
  rw [if_neg hPipe, if_neg hAmpersand]
  have hPlain : endsWord c = false := by simp [endsWord, isOperatorChar, h, hPipe, hAmpersand]
  by_cases hDigit : Text.isAsciiDigit c = true
  · simp [fits, hDigit]
  · simp [fits, hDigit, isPlain, hPlain]

/-- What does not go on with the token in the making may follow it. -/
theorem mayFollow_kindOfFirst {k : Token.Kind} (hPending : s.mode.pending? = some k)
    (hc : s.mode.continues c = false) (h : punctuation? c = none) :
    mayFollow k (kindOfFirst c) = true := by
  have hWord : endsWord c = true → c = '|' ∨ c = '&' := by
    simp [endsWord, isOperatorChar, h]
  cases hMode : s.mode with
  | idle => simp [hMode, Mode.pending?] at hPending
  | pipe =>
    have hPipe : c ≠ '|' := by simpa [hMode, Mode.continues] using hc
    obtain rfl : Token.Kind.pipe = k := by simpa [hMode, Mode.pending?] using hPending
    rw [kindOfFirst, if_neg hPipe]
    split_ifs <;> rfl
  | ampersand =>
    have hAmpersand : c ≠ '&' := by simpa [hMode, Mode.continues] using hc
    obtain rfl : Token.Kind.ampersand = k := by simpa [hMode, Mode.pending?] using hPending
    rw [kindOfFirst, if_neg hAmpersand]
    split_ifs <;> rfl
  | word | numberedWord | number =>
    -- Only an operator ends a word here, and an operator may follow one.
    obtain rfl := Option.some.inj ((congrArg Mode.pending? hMode).symm.trans hPending)
    rcases hWord (by simpa [hMode, Mode.continues] using hc) with rfl | rfl <;> rfl

-- ---------------------------------------------------------------------------
-- Every text has well-formed tokens
-- ---------------------------------------------------------------------------

/-- The tokens found in a text, together with the one in the making, are well formed and
spell the text. Where none is in the making, anything may follow. -/
structure Sound (s : Scanner) (found : List Token) (text : Text) : Prop where
  settled    : Settled s
  wellFormed : WellFormed (found ++ s.flush)
  spelled    : spelling (found ++ s.flush) = text
  apart      : s.mode = .idle → ∀ t ∈ found.getLast?, ∀ k, mayFollow t.kind k = true

/-- One more character keeps the tokens well formed. -/
theorem Sound.feed {found : List Token} {text : Text} (h : Sound s found text) (pos : Int)
    (c : Char) : Sound (s.feed pos c).1 (found ++ (s.feed pos c).2) (text ++ [c]) := by
  cases hc : s.mode.continues c with
  | true =>
    obtain ⟨k, k', hLonger⟩ := feed_continues pos hc
    have hWell := h.wellFormed
    have hSpelled := h.spelled
    rw [hLonger.flush] at hWell hSpelled
    refine ⟨hLonger.settled, ?_, ?_, ?_⟩
    · rw [List.append_assoc, hLonger.feed]
      exact hWell.replace (hLonger.fits (hWell.1 ⟨k, s.word, s.start⟩ (by simp))) hLonger.follows
    · rw [List.append_assoc, hLonger.feed]
      simp only [Token.spelling_append, Token.spelling_cons, Token.spelling_nil,
        List.append_nil] at hSpelled ⊢
      rw [← hSpelled, List.append_assoc]
    · intro hIdle t ht b
      have hFeed := hLonger.feed
      rw [flush_of_idle hIdle, List.append_nil] at hFeed
      rw [hFeed, List.getLast?_concat] at ht
      obtain rfl : _ = t := by simpa using ht
      exact hLonger.apart hIdle b
  | false =>
    rw [feed_restarts h.settled hc]
    show Sound (s.idle.begin pos c).1 (found ++ (s.flush ++ (s.idle.begin pos c).2)) _
    rw [← List.append_assoc]
    cases hKind : punctuation? c with
    | some k =>
      obtain ⟨hSpelling, hWord, hPipe, hAmpersand, -⟩ := Token.of_punctuation? hKind
      rw [begin_punctuation hKind]
      refine ⟨settled_idle s, ?_, ?_, ?_⟩
      · rw [flush_idle, List.append_nil]
        exact h.wellFormed.concat ((Token.fits_iff_of_spelling? hSpelling).2 rfl)
          fun a _ => Token.mayFollow_punctuation hKind
      · rw [flush_idle, List.append_nil, Token.spelling_append, h.spelled]
        rfl
      · intro _ t ht b
        rw [List.getLast?_concat] at ht
        obtain rfl : _ = t := by simpa using ht
        exact Token.mayFollow_of_not hWord hPipe hAmpersand
    | none =>
      obtain ⟨hFound, hFlush, hMode⟩ := begin_pending s.idle pos hKind
      refine ⟨fun hIdle => absurd hIdle hMode, ?_, ?_, fun hIdle => absurd hIdle hMode⟩
      · rw [hFound, hFlush, List.append_nil]
        apply h.wellFormed.concat (fits_kindOfFirst hKind)
        intro a ha
        by_cases hIdle : s.mode = .idle
        · rw [flush_of_idle hIdle, List.append_nil] at ha
          exact h.apart hIdle a ha _
        · obtain ⟨k, hPending, hLast⟩ := flush_of_not_idle hIdle
          rw [hLast, List.getLast?_concat] at ha
          obtain rfl : _ = a := by simpa using ha
          exact mayFollow_kindOfFirst hPending hc hKind
      · rw [hFound, hFlush, List.append_nil, Token.spelling_append, h.spelled]
        rfl

/-- A whole text keeps the tokens well formed. -/
theorem Sound.feedAll {found : List Token} {text : Text} (h : Sound s found text) (pos : Int)
    (rest : Text) :
    Sound (s.feedAll pos rest).1 (found ++ (s.feedAll pos rest).2) (text ++ rest) := by
  induction rest generalizing s found text pos with
  | nil => simpa [Scanner.feedAll] using h
  | cons c rest ih =>
    have hRest := ih (h.feed pos c) (pos + 1)
    simpa [Scanner.feedAll] using hRest

/-- The tokens of a text are well formed and spell it, and one end closes them. -/
theorem scan_sound (text : Text) :
    ∃ body, scan text = body ++ [⟨.endOfInput, [], text.length⟩] ∧ WellFormed body ∧
      spelling body = text := by
  have hStart : Sound {} [] [] :=
    ⟨fun _ => rfl, Token.wellFormed_nil, rfl, by simp⟩
  have hEnd := hStart.feedAll 0 text
  exact ⟨_, (List.append_assoc ..).symm, hEnd.wellFormed, hEnd.spelled⟩

-- ---------------------------------------------------------------------------
-- A well-formed list is what its text is scanned to
-- ---------------------------------------------------------------------------

/-- A plain character begins a word or a number. -/
theorem begin_plain (h : endsWord c = false) :
    s.begin pos c = (⟨if Text.isAsciiDigit c then .number else .word, [c], pos⟩, []) := by
  simp only [endsWord, isOperatorChar, Bool.or_eq_false_iff, beq_eq_false_iff_ne,
    Option.isSome_eq_false_iff, Option.isNone_iff_eq_none] at h
  rw [begin, h.1]
  simp only [h.2.1, h.2.2, if_false]

/-- A word takes plain characters in. -/
theorem feedAll_word {rest : Text} (hMode : s.mode = .word ∨ s.mode = .numberedWord)
    (h : isPlain rest = true) :
    s.feedAll pos rest = ({ s with word := s.word ++ rest }, []) := by
  induction rest generalizing s pos with
  | nil => simp [feedAll]
  | cons c rest ih =>
    have hPlain : endsWord c = false ∧ isPlain rest = true := by simpa [isPlain] using h
    have hFeed : s.feed pos c = ({ s with word := s.word ++ [c] }, []) := by
      rcases hMode with hMode | hMode <;> simp [feed, hMode, hPlain.1]
    rw [feedAll, hFeed]
    simp only [ih (s := { s with word := s.word ++ [c] }) hMode hPlain.2]
    simp

/-- A number takes plain characters in, and stays one while they are digits. -/
theorem feedAll_number {rest : Text} (hMode : s.mode = .number) (h : isPlain rest = true) :
    s.feedAll pos rest =
      ({ s with
          mode := if rest.all Text.isAsciiDigit then .number else .numberedWord,
          word := s.word ++ rest }, []) := by
  induction rest generalizing s pos with
  | nil => simp [feedAll, ← hMode]
  | cons c rest ih =>
    have hPlain : endsWord c = false ∧ isPlain rest = true := by simpa [isPlain] using h
    rw [feedAll]
    by_cases hDigit : Text.isAsciiDigit c = true
    · have hFeed : s.feed pos c = ({ s with word := s.word ++ [c] }, []) := by
        simp [feed, hMode, hPlain.1, hDigit]
      rw [hFeed]
      simp only [ih (s := { s with word := s.word ++ [c] }) hMode hPlain.2]
      simp [hDigit]
    · have hFeed : s.feed pos c =
          ({ s with mode := .numberedWord, word := s.word ++ [c] }, []) := by
        simp [feed, hMode, hPlain.1, hDigit]
      rw [hFeed]
      simp only [feedAll_word (s := { s with mode := .numberedWord, word := s.word ++ [c] })
        (.inr rfl) hPlain.2]
      simp [hDigit]

/-- From no token in the making, plain text leads to a word in the making. -/
theorem feedAll_idle_plain {rest : Text} (h : isPlain (c :: rest) = true) (s : Scanner)
    (pos : Int) :
    s.idle.feedAll pos (c :: rest) =
      (⟨if Text.isAsciiDigit c then
          if rest.all Text.isAsciiDigit then .number else .numberedWord
        else .word, c :: rest, pos⟩, []) := by
  have hPlain : endsWord c = false ∧ isPlain rest = true := by simpa [isPlain] using h
  have hFeed : s.idle.feed pos c =
      (⟨if Text.isAsciiDigit c then .number else .word, [c], pos⟩, []) := begin_plain hPlain.1
  rw [feedAll, hFeed]
  by_cases hDigit : Text.isAsciiDigit c = true
  · simp only [hDigit, if_true, feedAll_number (s := ⟨.number, [c], pos⟩) rfl hPlain.2]
    rfl
  · simp only [hDigit, Bool.false_eq_true, if_false,
      feedAll_word (s := ⟨.word, [c], pos⟩) (.inl rfl) hPlain.2]
    rfl

/-- From no token in the making, the text of a token leads to that token. -/
theorem feedAll_idle {t : Token} (h : fits t.kind t.text = true) (s : Scanner) (pos : Int) :
    Settled (s.idle.feedAll pos t.text).1 ∧
      ((s.idle.feedAll pos t.text).2 ++ (s.idle.feedAll pos t.text).1.flush).map shape =
        [shape t] := by
  obtain ⟨kind, text, offset⟩ := t
  cases hSpelling : kind.spelling? with
  | some fixed =>
    obtain rfl := (Token.fits_iff_of_spelling? hSpelling).1 h
    cases kind <;> cases hSpelling <;> refine ⟨?_, rfl⟩ <;>
      first | exact fun _ => rfl | exact fun hIdle => nomatch hIdle
  | none =>
    cases text with
    | nil => exact absurd rfl (Token.ne_nil_of_fits h)
    | cons c rest =>
      cases kind with
      | number =>
        have hDigits : Text.isAsciiDigit c = true ∧ rest.all Text.isAsciiDigit = true := by
          simpa [fits] using h
        have hPlain : isPlain (c :: rest) = true := Token.isPlain_of_digits (by simpa using hDigits)
        rw [feedAll_idle_plain hPlain, hDigits.1, hDigits.2]
        exact ⟨(fun hIdle => nomatch hIdle), rfl⟩
      | numberedWord =>
        simp only [fits, List.head?_cons, Option.any_some, Bool.and_eq_true] at h
        obtain ⟨⟨hDigit, hOther⟩, hPlain⟩ := h
        have hRest : rest.all Text.isAsciiDigit = false := by
          simpa [hDigit] using hOther
        rw [feedAll_idle_plain hPlain, hDigit, hRest]
        exact ⟨(fun hIdle => nomatch hIdle), rfl⟩
      | word =>
        simp only [fits, List.head?_cons, Option.any_some, Bool.and_eq_true] at h
        obtain ⟨hDigit, hPlain⟩ := h
        rw [feedAll_idle_plain hPlain, show Text.isAsciiDigit c = false by simpa using hDigit]
        exact ⟨(fun hIdle => nomatch hIdle), rfl⟩
      | endOfInput => cases h
      | _ => cases hSpelling

/-- A word starts with a plain character; any other token does not, and only an operator
starts with the character of one. -/
theorem first_of_fits {k : Token.Kind} {rest : Text} (h : fits k (c :: rest) = true) :
    (k.isWord = true ∧ endsWord c = false) ∨
      (k.isWord = false ∧ endsWord c = true ∧ (c = '|' → k = .pipe ∨ k = .orIf) ∧
        (c = '&' → k = .ampersand ∨ k = .andIf)) := by
  cases hSpelling : k.spelling? with
  | some fixed =>
    obtain rfl := (Token.fits_iff_of_spelling? hSpelling).1 h
    cases k <;> cases hSpelling <;> exact .inr (by decide)
  | none =>
    obtain ⟨hWord, hPlain⟩ := Token.isPlain_of_fits h hSpelling
    simp only [isPlain, List.all_cons, Bool.and_eq_true, Bool.not_eq_true'] at hPlain
    exact .inl ⟨hWord, hPlain.1⟩

/-- What may follow the token in the making does not go on with it. -/
theorem continues_eq_false {t : Token} {rest : Text} (hFits : fits t.kind (c :: rest) = true)
    (hFollow : ∀ a ∈ s.flush, mayFollow a.kind t.kind = true) :
    s.mode.continues c = false := by
  by_cases hIdle : s.mode = .idle
  · rw [hIdle]
    rfl
  obtain ⟨k, hPending, hFlush⟩ := flush_of_not_idle hIdle
  have hNext : mayFollow k t.kind = true := hFollow ⟨k, s.word, s.start⟩ (by simp [hFlush])
  have hFirst := first_of_fits hFits
  cases hMode : s.mode with
  | idle => exact absurd hMode hIdle
  | pipe =>
    obtain rfl := Option.some.inj ((congrArg Mode.pending? hMode).symm.trans hPending)
    simp only [Mode.continues, beq_eq_false_iff_ne]
    rintro rfl
    rcases hFirst with ⟨-, hPlain⟩ | ⟨-, -, hPipe, -⟩
    · exact absurd hPlain (by decide)
    · rcases hPipe rfl with hKind | hKind <;> rw [hKind] at hNext <;> cases hNext
  | ampersand =>
    obtain rfl := Option.some.inj ((congrArg Mode.pending? hMode).symm.trans hPending)
    simp only [Mode.continues, beq_eq_false_iff_ne]
    rintro rfl
    rcases hFirst with ⟨-, hPlain⟩ | ⟨-, -, -, hAmpersand⟩
    · exact absurd hPlain (by decide)
    · rcases hAmpersand rfl with hKind | hKind <;> rw [hKind] at hNext <;> cases hNext
  | word | numberedWord | number =>
    obtain rfl := Option.some.inj ((congrArg Mode.pending? hMode).symm.trans hPending)
    rcases hFirst with ⟨hWord, -⟩ | ⟨-, hEnds, -⟩
    · rw [Token.mayFollow_words rfl hWord] at hNext
      cases hNext
    · simp [Mode.continues, hEnds]

/-- The text of a token that may follow completes the token in the making. -/
theorem feedAll_token {t : Token} (h : Settled s) (hFits : fits t.kind t.text = true)
    (hFollow : ∀ a ∈ s.flush, mayFollow a.kind t.kind = true) (pos : Int) :
    s.feedAll pos t.text =
      ((s.idle.feedAll pos t.text).1, s.flush ++ (s.idle.feedAll pos t.text).2) := by
  cases hText : t.text with
  | nil => exact absurd hText (Token.ne_nil_of_fits hFits)
  | cons c rest =>
    rw [hText] at hFits
    have hIdle : s.idle.feed pos c = s.idle.begin pos c := rfl
    rw [feedAll, feedAll, feed_restarts h (continues_eq_false hFits hFollow), hIdle, restart]
    simp

theorem feedAll_append (s : Scanner) (pos : Int) (text rest : Text) :
    s.feedAll pos (text ++ rest) =
      (((s.feedAll pos text).1.feedAll (pos + text.length) rest).1,
        (s.feedAll pos text).2 ++ ((s.feedAll pos text).1.feedAll (pos + text.length) rest).2) := by
  induction text generalizing s pos with
  | nil => simp [feedAll]
  | cons c text ih =>
    have hPos : pos + 1 + (text.length : Int) = pos + ((c :: text).length : Int) := by
      rw [List.length_cons]
      omega
    simp only [List.cons_append, feedAll, ih, hPos, List.append_assoc]

/-- The text of a well-formed list, whose first token may follow the one in the making,
leads to the tokens of the list. -/
theorem feedAll_spelling {ts : List Token} (h : Settled s) (hWell : WellFormed ts)
    (hFollow : ∀ a ∈ s.flush, ∀ t ∈ ts.head?, mayFollow a.kind t.kind = true) (pos : Int) :
    ((s.feedAll pos (spelling ts)).2 ++ (s.feedAll pos (spelling ts)).1.flush).map shape =
      (s.flush ++ ts).map shape := by
  induction ts generalizing s pos with
  | nil => simp [feedAll]
  | cons t ts ih =>
    obtain ⟨hFits, hChain⟩ := hWell
    obtain ⟨hSettled, hShape⟩ := feedAll_idle (hFits t (by simp)) s pos
    have hToken := feedAll_token h (hFits t (by simp))
      (fun a ha => hFollow a ha t (by simp)) pos
    have hRest := ih hSettled ⟨fun a ha => hFits a (List.mem_cons_of_mem t ha), hChain.tail⟩
      (by
        intro a ha b hb
        have hSame : shape a = shape t := by
          have hMem : shape a ∈ [shape t] :=
            hShape ▸ List.mem_map_of_mem (List.mem_append_right _ ha)
          simpa using hMem
        rw [show a.kind = t.kind from congrArg Prod.fst hSame]
        exact hChain.rel_head? hb)
      (pos + t.text.length)
    rw [Token.spelling_cons, feedAll_append, hToken]
    simp only [List.map_append, List.append_assoc] at hShape hRest ⊢
    rw [hRest, ← List.append_assoc _ _ (ts.map shape), hShape]
    rfl

/-- The tokens of the text of a well-formed list are those of the list, and the end. -/
theorem scan_spelling {ts : List Token} (h : WellFormed ts) :
    (scan (spelling ts)).map shape = ts.map shape ++ [(.endOfInput, [])] := by
  have hFound := feedAll_spelling (s := {}) (fun _ => rfl) h (by simp [flush, Mode.pending?]) 0
  rw [scan]
  simp only [finish]
  rw [← List.append_assoc, List.map_append, hFound]
  rfl

end Scanner

-- ---------------------------------------------------------------------------
-- Command lines
-- ---------------------------------------------------------------------------

/-- A text without blanks at its ends is its own core. -/
theorem Text.core_eq_self {text : Text} (hHead : ∀ c ∈ text.head?, isOuterBlank c = false)
    (hLast : ∀ c ∈ text.getLast?, isOuterBlank c = false) : text.core = text := by
  have hTrim : ∀ t : Text, (∀ c ∈ t.head?, isOuterBlank c = false) →
      t.dropWhile isOuterBlank = t := by
    intro t ht
    cases t with
    | nil => rfl
    | cons c rest => simp [ht c rfl]
  rw [core, trim, trimLeft, hTrim text hHead, trimRight, hTrim text.reverse (by simpa using hLast),
    List.reverse_reverse]

open Token (WellFormed spelling shape)

/-- The tokens of a command line, wherever they stand. -/
theorem tokenize_shape (line : Text) :
    (tokenize line).map shape = (Scanner.scan line.core).map shape := by
  simp [tokenize, shape]

/-- The tokens of a command line are well formed and spell it, and one end closes them. -/
theorem tokenize_sound (line : Text) :
    ∃ body last, tokenize line = body ++ [last] ∧ last.shape = (.endOfInput, []) ∧
      WellFormed body ∧ spelling body = line.core := by
  obtain ⟨body, hScan, hWell, hSpelling⟩ := Scanner.scan_sound line.core
  have hShape : (body.map (·.shift line.lead)).map shape = body.map shape := by
    simp [shape]
  let last : Token := ⟨.endOfInput, [], line.core.length⟩
  refine ⟨body.map (·.shift line.lead), last.shift line.lead, ?_, rfl,
    hWell.congr hShape.symm, ?_⟩
  · rw [tokenize, hScan, List.map_append, List.map_singleton]
  · rw [Token.spelling_congr hShape, hSpelling]

/-- The text of a well-formed list is scanned to that list, if it has no blank at either
end. -/
theorem tokenize_spelling {body : List Token} (h : WellFormed body)
    (hHead : ∀ c ∈ (spelling body).head?, Text.isOuterBlank c = false)
    (hLast : ∀ c ∈ (spelling body).getLast?, Text.isOuterBlank c = false) :
    (tokenize (spelling body)).map shape = body.map shape ++ [(.endOfInput, [])] := by
  rw [tokenize_shape, Text.core_eq_self hHead hLast, Scanner.scan_spelling h]

/-- **The lexical grammar.** The tokens of every command line are well formed, spell its
core and are closed by one end; and every well-formed list whose text has no blank at
either end is what that text is scanned to. -/
theorem tokenize_lexical :
    (∀ line : Text, ∃ body last, tokenize line = body ++ [last] ∧
      last.shape = (.endOfInput, []) ∧ WellFormed body ∧ spelling body = line.core) ∧
    ∀ body : List Token, WellFormed body →
      (∀ c ∈ (spelling body).head?, Text.isOuterBlank c = false) →
      (∀ c ∈ (spelling body).getLast?, Text.isOuterBlank c = false) →
      (tokenize (spelling body)).map shape = body.map shape ++ [(.endOfInput, [])] :=
  ⟨tokenize_sound, fun _ hWell hHead hLast => tokenize_spelling hWell hHead hLast⟩

/-- Operators in a row: three times the same character is the doubled one first. -/
theorem tokenize_lexical_operators :
    (tokenize "7a|||&&&-'".toList).map shape =
      [(.numberedWord, ['7', 'a']), (.orIf, ['|', '|']), (.pipe, ['|']),
        (.andIf, ['&', '&']), (.ampersand, ['&']), (.word, ['-']),
        (.singleQuote, ['\x27']), (.endOfInput, [])] :=
  tokenize_lexical.2
    [⟨.numberedWord, ['7', 'a'], 0⟩, ⟨.orIf, ['|', '|'], 0⟩, ⟨.pipe, ['|'], 0⟩,
      ⟨.andIf, ['&', '&'], 0⟩, ⟨.ampersand, ['&'], 0⟩, ⟨.word, ['-'], 0⟩,
      ⟨.singleQuote, ['\x27'], 0⟩]
    (by decide) (by rintro c ⟨⟩; rfl) (by rintro c ⟨⟩; rfl)

end ShellReader
