import Mathlib.Algebra.Group.Nat.Defs
import ShellReader.Text.Quoted

/-!
# ShellReader — quoted text read back

A quoted form shows which text it is of, whatever characters the text has, and it shows where it
ends: what stands behind it is never taken for a part of it. Both come from reading one character
at a time. `Text.unescape` takes the first character of what stands between the marks, an escape
being one character, and gives it back with what is left. No escape starts with the mark in use, so
the first mark that is met where a character could start is the closing one.

## Results

* `Text.hexValue_hex` — hexadecimal digits give the number back, as far as there are digits.
* `Text.unescape_escaped` — a character is read back from the way it stands between two marks.
* `Text.quoted_append_inj` — two texts that start with quoted forms and are equal start with the
  same one.
-/

namespace ShellReader.Text

variable {mark c d : Char} {t u rest rest' : Text} {n : Nat}

-- ---------------------------------------------------------------------------
-- Hexadecimal digits
-- ---------------------------------------------------------------------------

/-- The value of a lower-case hexadecimal digit. -/
def hexDigitValue (c : Char) : Nat :=
  if c.toNat < 0x3A then c.toNat - 0x30 else c.toNat - 0x57

/-- The number that hexadecimal digits stand for. -/
def hexValue (t : Text) : Nat :=
  t.foldl (fun n c => 16 * n + hexDigitValue c) 0

theorem hexDigitValue_hexDigit (h : n < 16) : hexDigitValue (hexDigit n) = n := by
  revert n
  decide

/-- As many digits are written as are asked for. -/
@[simp] theorem length_hex (width n : Nat) : (hex width n).length = width := by
  induction width generalizing n with
  | zero => rfl
  | succ width ih => rw [hex, List.length_append, ih, List.length_singleton]

theorem hexValue_concat (t : Text) (c : Char) :
    hexValue (t ++ [c]) = 16 * hexValue t + hexDigitValue c := by
  rw [hexValue, List.foldl_append]
  rfl

/-- The digits give the number back, as far as there are digits. -/
theorem hexValue_hex (width n : Nat) : hexValue (hex width n) = n % 16 ^ width := by
  induction width generalizing n with
  | zero =>
    rw [Nat.pow_zero, Nat.mod_one]
    rfl
  | succ width ih =>
    rw [hex, hexValue_concat, ih, hexDigitValue_hexDigit (Nat.mod_lt n (by omega)),
      Nat.pow_succ', Nat.mod_mul, Nat.add_comm]

-- ---------------------------------------------------------------------------
-- One character
-- ---------------------------------------------------------------------------

/-- The character of so many hexadecimal digits, and what is left behind them. -/
def readHex (width : Nat) (t : Text) : Char × Text :=
  (Char.ofNat (hexValue (t.take width)), t.drop width)

/-- The first character of what stands between two marks, and what is left behind it. -/
def unescape : Text → Option (Char × Text)
  | [] => none
  | '\x5c' :: 't' :: rest => some ('\t', rest)
  | '\x5c' :: 'n' :: rest => some ('\n', rest)
  | '\x5c' :: 'r' :: rest => some ('\r', rest)
  | '\x5c' :: 'x' :: rest => some (readHex 2 rest)
  | '\x5c' :: 'u' :: rest => some (readHex 4 rest)
  | '\x5c' :: 'U' :: rest => some (readHex 8 rest)
  | '\x5c' :: c :: rest => some (c, rest)
  | c :: rest => some (c, rest)

/-- Enough digits give a character back. -/
theorem readHex_hex {width : Nat} (h : c.toNat < 16 ^ width) (rest : Text) :
    readHex width (hex width c.toNat ++ rest) = (c, rest) := by
  rw [readHex, List.take_left' (length_hex ..), List.drop_left' (length_hex ..), hexValue_hex,
    Nat.mod_eq_of_lt h, Char.ofNat_toNat]

theorem unescape_codePoint (c : Char) (rest : Text) :
    unescape (codePoint c.toNat ++ rest) = some (c, rest) := by
  have hLast : c.toNat < 0x110000 := by
    have hValid : c.toNat.isValidChar := c.valid
    unfold Nat.isValidChar at hValid
    omega
  unfold codePoint
  split
  · exact congrArg some (readHex_hex (by omega) rest)
  · split
    · exact congrArg some (readHex_hex (by omega) rest)
    · exact congrArg some (readHex_hex (by omega) rest)

/-- What is no backslash stands for itself. -/
theorem unescape_cons (h : c ≠ '\x5c') (rest : Text) : unescape (c :: rest) = some (c, rest) := by
  unfold unescape
  split <;> simp_all

/-- The two marks that a text may be quoted in. -/
theorem quotationMark_eq (t : Text) :
    quotationMark t = singleMark ∨ quotationMark t = doubleMark := by
  unfold quotationMark
  split
  · exact .inr rfl
  · exact .inl rfl

/-- A character is read back from the way it stands between two marks. -/
theorem unescape_escaped (hMark : mark = singleMark ∨ mark = doubleMark) (c : Char) (rest : Text) :
    unescape (escaped mark c ++ rest) = some (c, rest) := by
  unfold escaped
  split
  · rename_i hPlain
    rw [Bool.or_eq_true, beq_iff_eq, beq_iff_eq] at hPlain
    rcases hPlain with rfl | rfl
    · rfl
    · rcases hMark with rfl | rfl <;> rfl
  rename_i hOther
  rw [Bool.or_eq_true, beq_iff_eq, beq_iff_eq, not_or] at hOther
  split
  · simp_all [unescape]
  split
  · simp_all [unescape]
  split
  · simp_all [unescape]
  split
  · exact unescape_cons hOther.1 rest
  · exact unescape_codePoint c rest

/-- The way a character stands between two marks does not start with the mark. -/
theorem escaped_ne_mark (hMark : mark = singleMark ∨ mark = doubleMark) (c : Char) :
    escaped mark c ++ rest ≠ mark :: rest' := by
  have hBackslash : '\x5c' ≠ mark := by
    rcases hMark with rfl | rfl <;> decide
  have hEscape (u : Text) : '\x5c' :: u ≠ mark :: rest' := fun h => hBackslash (List.cons.inj h).1
  unfold escaped codePoint
  split
  · exact hEscape _
  rename_i hOther
  rw [Bool.or_eq_true, beq_iff_eq, beq_iff_eq, not_or] at hOther
  repeat' split
  all_goals first | exact hEscape _ | exact fun h => hOther.2 (List.cons.inj h).1

-- ---------------------------------------------------------------------------
-- Whole texts
-- ---------------------------------------------------------------------------

/-- What stands between two marks is read back up to the closing one. -/
theorem flatMap_escaped_inj (hMark : mark = singleMark ∨ mark = doubleMark)
    (h : t.flatMap (escaped mark) ++ mark :: rest = u.flatMap (escaped mark) ++ mark :: rest') :
    t = u ∧ rest = rest' := by
  induction t generalizing u with
  | nil =>
    cases u with
    | nil => exact ⟨rfl, (List.cons.inj h).2⟩
    | cons d u =>
      rw [List.flatMap_cons, List.append_assoc] at h
      exact absurd h.symm (escaped_ne_mark hMark d)
  | cons c t ih =>
    cases u with
    | nil =>
      rw [List.flatMap_cons, List.append_assoc] at h
      exact absurd h (escaped_ne_mark hMark c)
    | cons d u =>
      rw [List.flatMap_cons, List.append_assoc, List.flatMap_cons, List.append_assoc] at h
      have hFirst := congrArg unescape h
      rw [unescape_escaped hMark, unescape_escaped hMark] at hFirst
      obtain ⟨rfl, hRest⟩ := Prod.mk.inj (Option.some.inj hFirst)
      obtain ⟨rfl, hBehind⟩ := ih hRest
      exact ⟨rfl, hBehind⟩

/-- A quoted form shows which text it is of and where it ends. -/
theorem quoted_append_inj (h : t.quoted ++ rest = u.quoted ++ rest') : t = u ∧ rest = rest' := by
  simp only [quoted, List.cons_append, List.append_assoc, List.nil_append] at h
  obtain ⟨hMark, hInside⟩ := List.cons.inj h
  rw [← hMark] at hInside
  exact flatMap_escaped_inj (quotationMark_eq t) hInside

example : unescape "\\u2028'".toList = some ('\u2028', ['\x27']) := by decide +kernel

end ShellReader.Text
