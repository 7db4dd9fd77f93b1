import ShellReader.Token.Scanner

/-!
# ShellReader — scanning sessions

A session drives one scanner over one command line and keeps what it has found.
Its steps may come in any order and number: a character at any position, the
end of the text, or the whole text from wherever the scanner happens to be.
Nothing is reset between steps.

## Results

* `Session.scanAll_fresh` — scanning the whole text in a fresh session finds exactly
  `tokenize` of the command line.
-/

namespace ShellReader.Scanner

/-- A scanner at work on one command line. -/
structure Session where
  /-- The command line without the blanks around it. -/
  text    : Text
  /-- The number of blanks in front of the command line. -/
  base    : Nat
  /-- The position of the latest character, counted in `text`. -/
  pos     : Int
  scanner : Scanner
  /-- The tokens found so far, in order. -/
  tokens  : List Token

namespace Session

/-- A session that has read nothing yet. -/
def fresh (line : Text) : Session :=
  ⟨line.core, line.lead, 0, {}, []⟩

/-- Keeps newly found tokens, at their offsets in the command line. -/
def keep (s : Session) (found : List Token) : Session :=
  { s with tokens := s.tokens ++ found.map (·.shift s.base) }

/-- Reads the character `c` at position `pos`. -/
def feed (s : Session) (pos : Int) (c : Char) : Session :=
  let (next, found) := s.scanner.feed pos c
  { s with pos := pos, scanner := next }.keep found

/-- Ends the text. -/
def finish (s : Session) : Session :=
  { s with scanner := s.scanner.idle }.keep (s.scanner.finish s.text.length)

/-- Reads the whole text from its first character and ends it. -/
def scanAll (s : Session) : Session :=
  let (next, found) := s.scanner.feedAll 0 s.text
  let last : Int := if s.text.isEmpty then s.pos else s.text.length - 1
  ({ s with pos := last, scanner := next }.keep found).finish

/-- A fresh session that scans its whole text finds the tokens of the command line. -/
theorem scanAll_fresh (line : Text) : (fresh line).scanAll.tokens = tokenize line := by
  simp [scanAll, fresh, keep, finish, tokenize, scan]

end Session

end ShellReader.Scanner
