import ShellReader.Text.Basic

/-!
# ShellReader — blanks

Three notions of blank are in use. A command line drops the spaces and newlines
around it (`isOuterBlank`). A setting's number may stand between characters of
Unicode's White_Space property (`isWhiteSpace`), and a setting's flag may have
the four ASCII information separators around it as well (`isFlagBlank`).
-/

namespace ShellReader.Text

/-- A space or a newline: what a command line loses at its two ends. -/
def isOuterBlank (c : Char) : Bool :=
  c == ' ' || c == '\n'

/-- The code points with Unicode's White_Space property. -/
def whiteSpaces : List Nat :=
  [0x09, 0x0A, 0x0B, 0x0C, 0x0D, 0x20, 0x85, 0xA0, 0x1680,
   0x2000, 0x2001, 0x2002, 0x2003, 0x2004, 0x2005, 0x2006, 0x2007, 0x2008,
   0x2009, 0x200A, 0x2028, 0x2029, 0x202F, 0x205F, 0x3000]

/-- Whether the character has Unicode's White_Space property. -/
def isWhiteSpace (c : Char) : Bool :=
  whiteSpaces.contains c.toNat

/-- White space, or one of the information separators U+001C to U+001F. -/
def isFlagBlank (c : Char) : Bool :=
  isWhiteSpace c || (0x1C ≤ c.toNat && c.toNat ≤ 0x1F)

/-- Every outer blank is white space. -/
theorem isWhiteSpace_of_isOuterBlank {c : Char} (h : isOuterBlank c = true) :
    isWhiteSpace c = true := by
  simp only [isOuterBlank, Bool.or_eq_true, beq_iff_eq] at h
  rcases h with rfl | rfl <;> decide

end ShellReader.Text
