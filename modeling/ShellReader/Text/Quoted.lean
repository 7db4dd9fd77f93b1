import ShellReader.Text.Printable

/-!
# ShellReader — quoted text

How a text is shown inside a dump or a log line: between quotation marks, with
the characters that would be unreadable there written as escapes. Single marks
are the rule; a text that holds a single mark and no double one is shown in
double marks instead, so an escaped mark is needed only when both occur.

* A backslash and the mark in use are preceded by a backslash.
* Tab, newline and carriage return are `\t`, `\n` and `\r`.
* Any other character without a printed form is given by its code point in
  lower-case hexadecimal: two digits after `\x`, four after `\u`, eight after `\U`.
* Everything else stands for itself.
-/

namespace ShellReader.Text

/-- The single quotation mark. -/
def singleMark : Char := '\x27'

/-- The double quotation mark. -/
def doubleMark : Char := '\x22'

/-- The mark around the quoted form: double only when that saves an escape. -/
def quotationMark (t : Text) : Char :=
  if t.contains singleMark && !t.contains doubleMark then doubleMark else singleMark

/-- The lower-case hexadecimal digit of a value below sixteen. -/
def hexDigit (n : Nat) : Char :=
  if n < 10 then Char.ofNat (0x30 + n) else Char.ofNat (0x57 + n)

/-- The last `width` hexadecimal digits of `n`, zeros in front. -/
def hex : (width : Nat) → (n : Nat) → Text
  | 0, _ => []
  | width + 1, n => hex width (n / 16) ++ [hexDigit (n % 16)]

/-- A code point as an escape of the shortest of the three widths that holds it. -/
def codePoint (n : Nat) : Text :=
  if n ≤ 0xFF then '\x5c' :: 'x' :: hex 2 n
  else if n ≤ 0xFFFF then '\x5c' :: 'u' :: hex 4 n
  else '\x5c' :: 'U' :: hex 8 n

/-- One character as it stands between two `mark`s. -/
def escaped (mark c : Char) : Text :=
  if c == '\x5c' || c == mark then ['\x5c', c]
  else if c == '\t' then ['\x5c', 't']
  else if c == '\n' then ['\x5c', 'n']
  else if c == '\r' then ['\x5c', 'r']
  else if isPrintable c then [c]
  else codePoint c.toNat

/-- The quoted form of a text. -/
def quoted (t : Text) : Text :=
  let mark := quotationMark t
  mark :: t.flatMap (escaped mark) ++ [mark]

end ShellReader.Text
