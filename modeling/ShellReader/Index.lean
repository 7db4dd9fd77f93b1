/-!
# ShellReader — signed indices

A place in a list may be given by a signed number, of which the negative ones
count from the end of the list. A number past the end names no place, which is
for the caller to judge. A number that reaches back before the start is a miss,
and one that does not even fit a signed word of 64 bits is a miss of its own.

## Results

* `Index.resolve_eq_ok_iff` — which numbers name a place, and which one.
* `Index.resolve_natCast` — a number that is not negative names itself.
-/

namespace ShellReader.Index

/-- Why a number is no index. -/
inductive Miss where
  /-- It reaches back before the start of the list. -/
  | outOfRange
  /-- It does not fit a signed word. -/
  | unrepresentable
deriving DecidableEq

/-- What is said about a miss. -/
def Miss.message : Miss → String
  | outOfRange => "list index out of range"
  | unrepresentable => "cannot fit 'int' into an index-sized integer"

/-- The least number that fits a signed word of 64 bits. -/
def least : Int := -Int.pow 2 63

/-- The place, counted from the start, that a number names in a list of the given length. -/
def resolve (length : Nat) (i : Int) : Except Miss Nat :=
  if 0 ≤ i then .ok i.toNat
  else if i < least then .error .unrepresentable
  else if i + length < 0 then .error .outOfRange
  else .ok (i + length).toNat

/-- A number that is not negative names itself; a negative one that fits a word and
does not reach back too far names a place from the end. -/
theorem resolve_eq_ok_iff {length : Nat} {i : Int} {n : Nat} :
    resolve length i = .ok n ↔
      i = n ∨ (i < 0 ∧ least ≤ i ∧ i + length = n) := by
  unfold resolve
  split
  · simp only [Except.ok.injEq]
    omega
  · split
    · simp only [reduceCtorEq, false_iff]
      omega
    · split
      · simp only [reduceCtorEq, false_iff]
        omega
      · simp only [Except.ok.injEq]
        omega

@[simp] theorem resolve_natCast (length n : Nat) : resolve length n = .ok n :=
  resolve_eq_ok_iff.2 (.inl rfl)

end ShellReader.Index
