import ShellReader.Text.Blank
import ShellReader.Text.DecimalDigit

/-!
# ShellReader — written integers

An integer may be written with white space around it, a sign, decimal digits of
any script and single underscores between the digits. A numeral of more than
4300 digits, leading zeros included, is not read.
-/

namespace ShellReader.Text

/-- The greatest number of digits that a numeral may have. -/
def maxDigits : Nat := 4300

/-- The values of the digits of a numeral, with single underscores between them. -/
def digits? : Text → Option (List Nat)
  | [] => none
  | [c] => (digitValue? c).map ([·])
  | c :: '_' :: rest => do return (← digitValue? c) :: (← digits? rest)
  | c :: rest => do return (← digitValue? c) :: (← digits? rest)

/-- The number that a numeral without a sign stands for. -/
def readNat? (t : Text) : Option Nat := do
  let digits ← digits? t
  if digits.length ≤ maxDigits then
    return digits.foldl (fun n digit => 10 * n + digit) 0
  else none

/-- The integer that a text stands for. -/
def readInt? (t : Text) : Option Int :=
  match t.trim isWhiteSpace with
  | '-' :: rest => (readNat? rest).map fun n => -(n : Int)
  | '+' :: rest => (readNat? rest).map fun n => (n : Int)
  | rest => (readNat? rest).map fun n => (n : Int)

end ShellReader.Text
