import ShellReader.Fault
import ShellReader.Index

/-!
# ShellReader — the token cursor

A cursor is a place in a token list: the tokens before it, latest first, and the
tokens still to come. Moving it forward shifts tokens from one side to the other,
so the list as a whole never changes.

## Results

* `Cursor.tokens_advance` — moving forward keeps the token list.
* `Cursor.pos_advance` — moving forward by `n` adds `n` to the position, up to the end.
-/

namespace ShellReader

/-- A place in a token list. -/
structure Cursor where
  /-- The tokens before the cursor, latest first. -/
  done : List Token
  /-- The tokens from the cursor on. -/
  rest : List Token
deriving DecidableEq

namespace Cursor

/-- The cursor at the start of a list. -/
def start (tokens : List Token) : Cursor := ⟨[], tokens⟩

/-- The number of tokens before the cursor. -/
def pos (c : Cursor) : Nat := c.done.length

/-- The latest token before the cursor. -/
def last? (c : Cursor) : Option Token := c.done.head?

/-- The whole list. -/
def tokens (c : Cursor) : List Token := c.done.reverse ++ c.rest

/-- The fault of reading on when no token is left. -/
def missingEnd (c : Cursor) : Fault := ⟨.missingEnd, c.last?⟩

/-- The token at the cursor. -/
def current (c : Cursor) : Except Fault Token :=
  match c.rest with
  | t :: _ => .ok t
  | [] => .error c.missingEnd

/-- The cursor `n` tokens further on, or at the end of a shorter list. -/
def advance : Cursor → Nat → Cursor
  | c, 0 => c
  | ⟨done, []⟩, _ + 1 => ⟨done, []⟩
  | ⟨done, t :: rest⟩, n + 1 => advance ⟨t :: done, rest⟩ n

/-- Whether a line continuation stands at the cursor. -/
def atContinuation (c : Cursor) : Bool := Token.startsContinuation c.rest

/-- Moving forward keeps the token list. -/
@[simp] theorem tokens_advance (c : Cursor) (n : Nat) : (c.advance n).tokens = c.tokens := by
  fun_induction advance c n with
  | case1 => rfl
  | case2 => rfl
  | case3 done t rest n ih => simpa [tokens] using ih

/-- What is left after moving forward. -/
@[simp] theorem rest_advance (c : Cursor) (n : Nat) : (c.advance n).rest = c.rest.drop n := by
  fun_induction advance c n with
  | case1 => simp
  | case2 => simp
  | case3 done t rest n ih => simpa using ih

/-- Moving forward by `n` adds `n` to the position, up to the end of the list. -/
theorem pos_advance (c : Cursor) (n : Nat) :
    (c.advance n).pos = c.pos + min n c.rest.length := by
  fun_induction advance c n with
  | case1 => simp
  | case2 => simp
  | case3 done t rest n ih => simp [pos] at ih ⊢; omega

-- ---------------------------------------------------------------------------
-- Looking around
-- ---------------------------------------------------------------------------

/-- The tokens from the cursor up to `n` further on. A stop before the start of
the list counts from its end; a stop before the cursor gives nothing. -/
def peek (c : Cursor) (n : Int) : List Token :=
  let stop := (Index.resolve c.tokens.length (c.pos + n)).toOption.getD 0
  (c.tokens.take stop).drop c.pos

/-- The kind of the token `n` further on, nothing past the end of the list. A place
before its start counts from its end, and may miss it. -/
def peekKind (c : Cursor) (n : Int) : Except Index.Miss (Option Token.Kind) := do
  let place ← Index.resolve c.tokens.length (c.pos + n)
  return (c.tokens[place]?).map (·.kind)

/-- The leading tokens up to the first place where `stop` holds of what is left. -/
def takeUntil (stop : List Token → Bool) : List Token → List Token
  | [] => []
  | t :: rest => if stop (t :: rest) then [] else t :: takeUntil stop rest

theorem takeUntil_length_le (stop : List Token → Bool) (ts : List Token) :
    (takeUntil stop ts).length ≤ ts.length := by
  induction ts with
  | nil => simp [takeUntil]
  | cons t rest ih =>
    rw [takeUntil]
    split
    · simp
    · simpa using ih

end Cursor

end ShellReader
