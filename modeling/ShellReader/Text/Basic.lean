/-!
# ShellReader — text

Everything the library reads and writes is a list of characters, so that one
character is one unit of length and of offset. This module holds the few
operations on text that every other module shares: trimming, indentation and
the decimal form of a number.

## Results

* `Text.takeWhile_append_trimLeft`, `Text.trimRight_append_takeWhile` — trimming takes
  away a run at one end and keeps the rest as it is.
-/

namespace ShellReader

/-- A text: its characters in order. -/
abbrev Text := List Char

namespace Text

-- ---------------------------------------------------------------------------
-- Trimming
-- ---------------------------------------------------------------------------

/-- The text without its leading characters of class `p`. -/
def trimLeft (p : Char → Bool) (t : Text) : Text :=
  t.dropWhile p

/-- The text without its trailing characters of class `p`. -/
def trimRight (p : Char → Bool) (t : Text) : Text :=
  (t.reverse.dropWhile p).reverse

/-- The text without the characters of class `p` at its two ends. -/
def trim (p : Char → Bool) (t : Text) : Text :=
  trimRight p (trimLeft p t)

@[simp] theorem trim_nil (p : Char → Bool) : trim p [] = [] := rfl

/-- What trimming on the left takes away is a run of the class at the start. -/
theorem takeWhile_append_trimLeft (p : Char → Bool) (t : Text) :
    t.takeWhile p ++ trimLeft p t = t :=
  List.takeWhile_append_dropWhile

/-- What trimming on the right takes away is a run of the class at the end. -/
theorem trimRight_append_takeWhile (p : Char → Bool) (t : Text) :
    trimRight p t ++ (t.reverse.takeWhile p).reverse = t := by
  rw [trimRight, ← List.reverse_append, List.takeWhile_append_dropWhile,
    List.reverse_reverse]

-- ---------------------------------------------------------------------------
-- Layout
-- ---------------------------------------------------------------------------

/-- Two blanks for each of `depth` levels. -/
def indent (depth : Nat) : Text :=
  List.replicate (2 * depth) ' '

/-- `unit` written `n` times. -/
def repeated (n : Nat) (unit : Text) : Text :=
  (List.replicate n unit).flatten

-- ---------------------------------------------------------------------------
-- Numbers
-- ---------------------------------------------------------------------------

/-- The decimal digits of a natural number, without leading zeros. -/
def ofNat (n : Nat) : Text :=
  Nat.toDigits 10 n

/-- The decimal form of an integer, a minus sign in front of a negative one. -/
def ofInt (n : Int) : Text :=
  if n < 0 then '-' :: ofNat n.natAbs else ofNat n.natAbs

end Text

end ShellReader
