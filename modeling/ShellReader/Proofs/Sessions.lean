import ShellReader.Proofs.Lexical
import ShellReader.Token.Session

/-!
# ShellReader — sessions driven in any order

A scanning session takes its moves in any order and number: a character at any position, also
behind an end; an end in the middle of a word; the whole text twice. The scanner's mode and the
text of the token in the making stay in step all the same, and no character that was fed is lost:
what has been found, and what is in the making, spells them in order.

That the two are in step is what makes it safe to look the kind of a completed token up in a table,
the kind of a word by the mode and that of an operator by its text. `feed?` and `finish?` do so,
and have no answer where there is no such entry. No sequence of moves gets them there, and their
answers are those of `feed` and `finish`.

## Results

* `Scanner.Fitting.feed` — one character keeps mode and text in step and loses nothing.
* `Scanner.Fitting.feed?_eq`, `Scanner.Fitting.finish?_eq` — every look-up finds its entry.
* `Scanner.Session.Sound.make` — one move keeps a session sound.
* `Scanner.Session.drive_sound` — so does every sequence of moves.
-/

namespace ShellReader.Scanner

open Token (fits spelling)

variable {s : Scanner} {pos : Int} {c : Char}

-- ---------------------------------------------------------------------------
-- Mode and text in step
-- ---------------------------------------------------------------------------

/-- The mode of a scanner is that of the text of the token in the making. -/
structure InStep (s : Scanner) : Prop where
  idle         : s.mode = .idle ↔ s.word = []
  pipe         : s.mode = .pipe → s.word = ['|']
  ampersand    : s.mode = .ampersand → s.word = ['&']
  number       : s.mode = .number → s.word ≠ [] ∧ ∀ c ∈ s.word, Text.isAsciiDigit c = true
  numberedWord : s.mode = .numberedWord →
    (∃ c ∈ s.word.head?, Text.isAsciiDigit c = true) ∧ ∃ c ∈ s.word, Text.isAsciiDigit c = false
  word         : s.mode = .word → ∃ c ∈ s.word.head?, Text.isAsciiDigit c = false
  plain        : s.mode = .word ∨ s.mode = .numberedWord ∨ s.mode = .number →
    ∀ c ∈ s.word, endsWord c = false

/-- No text is left over, and the text of the token in the making fits its kind. -/
structure Fitting (s : Scanner) : Prop where
  settled : Settled s
  fits    : ∀ t ∈ s.flush, fits t.kind t.text = true

/-- The token in the making has the text that the scanner holds. -/
theorem spelling_flush (h : Settled s) : spelling s.flush = s.word := by
  by_cases hIdle : s.mode = .idle
  · rw [flush_of_idle hIdle, h hIdle]
    rfl
  · obtain ⟨k, -, hFlush⟩ := flush_of_not_idle hIdle
    rw [hFlush]
    exact List.append_nil _

theorem fitting_idle (s : Scanner) : Fitting s.idle :=
  ⟨settled_idle s, fun _ ht => nomatch ht⟩

theorem Fitting.word_fits (h : Fitting s) {k : Token.Kind} (hk : s.mode.pending? = some k) :
    Token.fits k s.word = true := by
  refine h.fits ⟨k, s.word, s.start⟩ ?_
  rw [flush, hk]
  exact List.mem_singleton_self _

/-- One character keeps mode and text in step, and no character is lost. -/
theorem Fitting.feed (h : Fitting s) (pos : Int) (c : Char) :
    Fitting (s.feed pos c).1 ∧
      spelling (s.feed pos c).2 ++ (s.feed pos c).1.word = s.word ++ [c] := by
  cases hc : s.mode.continues c with
  | true =>
    obtain ⟨k, k', hLonger⟩ := feed_continues pos hc
    refine ⟨⟨hLonger.settled, fun t ht => ?_⟩, ?_⟩
    · have hMem := List.mem_append_right (s.feed pos c).2 ht
      rw [hLonger.feed, List.mem_singleton] at hMem
      rw [hMem]
      exact hLonger.fits (h.fits ⟨k, s.word, s.start⟩ (by simp [hLonger.flush]))
    · rw [← spelling_flush hLonger.settled, ← Token.spelling_append, hLonger.feed]
      exact List.append_nil _
  | false =>
    rw [feed_restarts h.settled hc]
    show Fitting (s.idle.begin pos c).1 ∧
      spelling (s.flush ++ (s.idle.begin pos c).2) ++ (s.idle.begin pos c).1.word = s.word ++ [c]
    rw [Token.spelling_append, spelling_flush h.settled, List.append_assoc]
    cases hKind : punctuation? c with
    | some k =>
      rw [begin_punctuation hKind]
      exact ⟨fitting_idle s, rfl⟩
    | none =>
      obtain ⟨hFound, hFlush, hMode⟩ := begin_pending s.idle pos hKind
      have hSettled : Settled (s.idle.begin pos c).1 := fun hIdle => absurd hIdle hMode
      refine ⟨⟨hSettled, fun t ht => ?_⟩, ?_⟩
      · rw [hFlush, List.mem_singleton] at ht
        rw [ht]
        exact fits_kindOfFirst hKind
      · rw [hFound, ← spelling_flush hSettled, hFlush]
        rfl

theorem Fitting.feedAll (h : Fitting s) (pos : Int) (text : Text) :
    Fitting (s.feedAll pos text).1 ∧
      spelling (s.feedAll pos text).2 ++ (s.feedAll pos text).1.word = s.word ++ text := by
  induction text generalizing s pos with
  | nil => exact ⟨h, (List.append_nil _).symm⟩
  | cons c text ih =>
    obtain ⟨hNext, hSpelled⟩ := h.feed pos c
    obtain ⟨hLast, hRest⟩ := ih hNext (pos + 1)
    refine ⟨hLast, ?_⟩
    show spelling ((s.feed pos c).2 ++ ((s.feed pos c).1.feedAll (pos + 1) text).2) ++
      ((s.feed pos c).1.feedAll (pos + 1) text).1.word = s.word ++ c :: text
    rw [Token.spelling_append, List.append_assoc, hRest, ← List.append_assoc, hSpelled,
      List.append_assoc]
    rfl

/-- What fits is in step. -/
theorem Fitting.inStep (h : Fitting s) : InStep s where
  idle := by
    refine ⟨h.settled, fun hWord => ?_⟩
    by_contra hMode
    obtain ⟨k, hPending, -⟩ := flush_of_not_idle hMode
    exact Token.ne_nil_of_fits (h.word_fits hPending) hWord
  pipe hMode := (Token.fits_iff_of_spelling? rfl).1 (h.word_fits (congrArg Mode.pending? hMode))
  ampersand hMode :=
    (Token.fits_iff_of_spelling? rfl).1 (h.word_fits (congrArg Mode.pending? hMode))
  number hMode := by
    simpa [Token.fits] using h.word_fits (congrArg Mode.pending? hMode)
  numberedWord hMode := by
    have hFits := h.word_fits (congrArg Mode.pending? hMode)
    simp only [Token.fits, Bool.and_eq_true, Option.any_eq_true, List.any_eq_true] at hFits
    simpa using hFits.1
  word hMode := by
    have hFits := h.word_fits (congrArg Mode.pending? hMode)
    simp only [Token.fits, Bool.and_eq_true, Option.any_eq_true] at hFits
    simpa using hFits.1
  plain hMode := by
    have hPlain : Token.isPlain s.word = true := by
      rcases hMode with hMode | hMode | hMode <;>
        exact (Token.isPlain_of_fits (h.word_fits (congrArg Mode.pending? hMode)) rfl).2
    simpa [Token.isPlain] using hPlain

-- ---------------------------------------------------------------------------
-- Kinds that are looked up
-- ---------------------------------------------------------------------------

/-- The kind of a word, by the mode. -/
def wordKind? : Mode → Option Token.Kind
  | .word         => some .word
  | .numberedWord => some .numberedWord
  | .number       => some .number
  | .idle | .pipe | .ampersand => none

/-- The kinds of an operator by itself and doubled, by its text. -/
def operatorKinds? : Text → Option (Token.Kind × Token.Kind)
  | ['|'] => some (.pipe, .orIf)
  | ['&'] => some (.ampersand, .andIf)
  | _     => none

/-- Completes the token in the making as one of the given kind, then reads the character
afresh. -/
def restartAs (s : Scanner) (kind : Token.Kind) (pos : Int) (c : Char) : Scanner × List Token :=
  let (next, found) := s.idle.begin pos c
  (next, ⟨kind, s.word, s.start⟩ :: found)

/-- `feed` with every kind of a completed token looked up. -/
def feed? (s : Scanner) (pos : Int) (c : Char) : Option (Scanner × List Token) :=
  match s.mode with
  | .idle => some (s.feed pos c)
  | .word | .numberedWord | .number =>
    if endsWord c then (wordKind? s.mode).map fun kind => s.restartAs kind pos c
    else some (s.feed pos c)
  | .pipe | .ampersand =>
    (operatorKinds? s.word).map fun (single, doubled) =>
      if s.word = [c] then s.double doubled c else s.restartAs single pos c

/-- `finish` with the kind of the last token looked up: by the mode, or else by the text. -/
def finish? (s : Scanner) (pos : Int) : Option (List Token) :=
  match s.mode with
  | .idle => some (s.finish pos)
  | mode =>
    ((wordKind? mode).or ((operatorKinds? s.word).map (·.1))).map fun kind =>
      [⟨kind, s.word, s.start⟩, ⟨.endOfInput, [], pos⟩]

/-- `feedAll` with every kind of a completed token looked up. -/
def feedAll? (s : Scanner) (pos : Int) : Text → Option (Scanner × List Token)
  | [] => some (s, [])
  | c :: rest => do
    let (next, found) ← s.feed? pos c
    let (last, more) ← next.feedAll? (pos + 1) rest
    return (last, found ++ more)

/-- Where the kind that is looked up is the pending one, the token is completed as ever. -/
theorem restartAs_eq {kind : Token.Kind} (h : s.mode.pending? = some kind) (pos : Int)
    (c : Char) : s.restartAs kind pos c = s.restart pos c := by
  rw [restartAs, restart, flush, h]
  rfl

/-- Every look-up of `feed?` finds its entry. -/
theorem Fitting.feed?_eq (h : Fitting s) (pos : Int) (c : Char) :
    s.feed? pos c = some (s.feed pos c) := by
  cases hMode : s.mode with
  | idle => rw [feed?, hMode]
  | word | numberedWord | number =>
    simp only [feed?, Scanner.feed, hMode, wordKind?, Option.map_some,
      restartAs_eq (congrArg Mode.pending? hMode)]
    split <;> rfl
  | pipe =>
    simp only [feed?, Scanner.feed, hMode, h.inStep.pipe hMode, operatorKinds?, Option.map_some,
      restartAs_eq (congrArg Mode.pending? hMode), List.cons.injEq, and_true, eq_comm]
  | ampersand =>
    simp only [feed?, Scanner.feed, hMode, h.inStep.ampersand hMode, operatorKinds?,
      Option.map_some, restartAs_eq (congrArg Mode.pending? hMode), List.cons.injEq, and_true,
      eq_comm]

/-- So does that of `finish?`. -/
theorem Fitting.finish?_eq (h : Fitting s) (pos : Int) : s.finish? pos = some (s.finish pos) := by
  cases hMode : s.mode with
  | idle => rw [finish?, hMode]
  | word | numberedWord | number =>
    simp [finish?, finish, flush, hMode, wordKind?, Mode.pending?]
  | pipe =>
    simp [finish?, finish, flush, hMode, wordKind?, operatorKinds?, Mode.pending?,
      h.inStep.pipe hMode]
  | ampersand =>
    simp [finish?, finish, flush, hMode, wordKind?, operatorKinds?, Mode.pending?,
      h.inStep.ampersand hMode]

theorem Fitting.feedAll?_eq (h : Fitting s) (pos : Int) (text : Text) :
    s.feedAll? pos text = some (s.feedAll pos text) := by
  induction text generalizing s pos with
  | nil => rfl
  | cons c text ih =>
    rw [feedAll?, h.feed?_eq]
    show ((s.feed pos c).1.feedAll? (pos + 1) text >>= fun r =>
      some (r.1, (s.feed pos c).2 ++ r.2)) = _
    rw [ih (h.feed pos c).1]
    rfl

-- ---------------------------------------------------------------------------
-- Sessions
-- ---------------------------------------------------------------------------

namespace Session

/-- What a session can be asked to do. -/
inductive Move where
  /-- Reads a character at a position, whatever was read before. -/
  | feed (pos : Int) (c : Char)
  /-- Ends the text. -/
  | finish
  /-- Reads the session's own text from its first character and ends it. -/
  | scanAll
deriving DecidableEq

/-- The characters that a move feeds, `text` being the session's own. -/
def Move.fed (text : Text) : Move → Text
  | .feed _ c => [c]
  | .finish   => []
  | .scanAll  => text

/-- The session after a move. -/
def make (s : Session) : Move → Session
  | .feed pos c => s.feed pos c
  | .finish     => s.finish
  | .scanAll    => s.scanAll

/-- `Session.finish` with every kind of a completed token looked up. -/
def finish? (s : Session) : Option Session :=
  (s.scanner.finish? s.text.length).map fun found => { s with scanner := s.scanner.idle }.keep found

/-- `Session.make` with every kind of a completed token looked up. -/
def make? (s : Session) : Move → Option Session
  | .feed pos c =>
    (s.scanner.feed? pos c).map fun (next, found) =>
      { s with pos := pos, scanner := next }.keep found
  | .finish => s.finish?
  | .scanAll =>
    (s.scanner.feedAll? 0 s.text).bind fun (next, found) =>
      let last : Int := if s.text.isEmpty then s.pos else s.text.length - 1
      ({ s with pos := last, scanner := next }.keep found).finish?

/-- A session on `text` that has been fed `fed`: its scanner is in step, and what was fed is what
the tokens and the token in the making spell. -/
structure Sound (text fed : Text) (s : Session) : Prop where
  text    : s.text = text
  fitting : Fitting s.scanner
  spelled : spelling s.tokens ++ s.scanner.word = fed

variable {text fed : Text} {s : Session}

theorem sound_fresh (line : Text) : Sound line.core [] (fresh line) :=
  ⟨rfl, fitting_idle {}, rfl⟩

/-- Tokens that are kept are spelled behind the others. -/
theorem spelling_keep (s : Session) (found : List Token) :
    spelling (s.keep found).tokens = spelling s.tokens ++ spelling found := by
  simp [keep, spelling, List.flatMap_map]

/-- Reading a text from the scanner's place keeps a session sound. -/
theorem Sound.read (h : Sound text fed s) {next : Scanner} {found : List Token} {more : Text}
    (hNext : Fitting next) (hMore : spelling found ++ next.word = s.scanner.word ++ more)
    (pos : Int) : Sound text (fed ++ more) ({ s with pos := pos, scanner := next }.keep found) := by
  refine ⟨h.text, hNext, ?_⟩
  rw [spelling_keep, List.append_assoc]
  show spelling s.tokens ++ (spelling found ++ next.word) = fed ++ more
  rw [hMore, ← h.spelled, List.append_assoc]

theorem Sound.finish (h : Sound text fed s) : Sound text fed s.finish := by
  refine ⟨h.text, fitting_idle _, ?_⟩
  rw [Session.finish, spelling_keep, Scanner.finish, Token.spelling_append,
    spelling_flush h.fitting.settled]
  simpa [Scanner.idle, keep] using h.spelled

theorem Sound.finish?_eq (h : Sound text fed s) : s.finish? = some s.finish := by
  rw [finish?, h.fitting.finish?_eq]
  rfl

/-- One move keeps a session sound, and every look-up on the way finds its entry. -/
theorem Sound.make (h : Sound text fed s) (move : Move) :
    s.make? move = some (s.make move) ∧ Sound text (fed ++ move.fed text) (s.make move) := by
  cases move with
  | feed pos c =>
    obtain ⟨hNext, hMore⟩ := h.fitting.feed pos c
    refine ⟨?_, h.read hNext hMore pos⟩
    rw [make?, h.fitting.feed?_eq]
    rfl
  | finish =>
    refine ⟨h.finish?_eq, ?_⟩
    rw [Move.fed, List.append_nil]
    exact h.finish
  | scanAll =>
    obtain ⟨hNext, hMore⟩ := h.fitting.feedAll 0 s.text
    have hRead := h.read hNext hMore (if s.text.isEmpty then s.pos else s.text.length - 1)
    obtain rfl := h.text
    refine ⟨?_, hRead.finish⟩
    rw [make?, h.fitting.feedAll?_eq]
    exact hRead.finish?_eq

/-- The session after some moves. -/
def drive (s : Session) (moves : List Move) : Session := moves.foldl make s

/-- `drive` with every kind of a completed token looked up. -/
def drive? (s : Session) (moves : List Move) : Option Session := moves.foldlM make? s

theorem Sound.drive (h : Sound text fed s) (moves : List Move) :
    s.drive? moves = some (s.drive moves) ∧
      Sound text (fed ++ moves.flatMap (Move.fed text)) (s.drive moves) := by
  induction moves generalizing s fed with
  | nil => exact ⟨rfl, by simpa [Session.drive] using h⟩
  | cons move moves ih =>
    obtain ⟨hMake, hNext⟩ := h.make move
    obtain ⟨hDrive, hLast⟩ := ih hNext
    refine ⟨?_, ?_⟩
    · rw [drive?, List.foldlM_cons, hMake]
      exact hDrive
    · rw [List.append_assoc, ← List.flatMap_cons] at hLast
      exact hLast

/-- **Sessions stay in step**, whatever the command line and whatever the moves, in any order and
number: every look-up of the kind of a completed token finds its entry; the mode of the scanner is
that of the text it holds; and the tokens that have been found, with that text behind them, spell
the characters that have been fed. -/
theorem drive_sound (line : Text) (moves : List Move) :
    (fresh line).drive? moves = some ((fresh line).drive moves) ∧
      InStep ((fresh line).drive moves).scanner ∧
      spelling ((fresh line).drive moves).tokens ++ ((fresh line).drive moves).scanner.word =
        moves.flatMap (Move.fed line.core) := by
  obtain ⟨hDrive, hSound⟩ := (sound_fresh line).drive moves
  exact ⟨hDrive, hSound.fitting.inStep, hSound.spelled⟩

end Session

end ShellReader.Scanner
