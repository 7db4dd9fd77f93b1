import ShellReader.Text.Basic

/-!
# ShellReader — lines

Text that comes from outside ends its lines in a newline, a carriage return or
both; `unifyNewlines` gives all three the same form. `lines` cuts a text at its
newlines, as `pieces` does at any mark.

## Results

* `Text.not_mem_unifyNewlines` — no carriage return is left.
* `Text.intercalate_pieces` — joining the pieces of a text gives the text back.
* `Text.intercalate_lines` — the same for lines and newlines.
-/

namespace ShellReader.Text

/-- Writes every line end, `\r\n` or `\r` or `\n`, as one newline. -/
def unifyNewlines : Text → Text
  | [] => []
  | '\r' :: '\n' :: rest => '\n' :: unifyNewlines rest
  | '\r' :: rest => '\n' :: unifyNewlines rest
  | c :: rest => c :: unifyNewlines rest

/-- No carriage return is left. -/
theorem not_mem_unifyNewlines (t : Text) : '\r' ∉ unifyNewlines t := by
  fun_induction unifyNewlines t with
  | case1 => exact List.not_mem_nil
  | case2 rest ih => simpa using ih
  | case3 rest _ ih => simpa using ih
  | case4 c rest _ hOther ih => simpa using ⟨fun h => hOther h.symm, ih⟩

/-- A text without carriage returns stays as it is. -/
theorem unifyNewlines_eq_self {t : Text} (h : '\r' ∉ t) : unifyNewlines t = t := by
  fun_induction unifyNewlines t with
  | case1 => rfl
  | case2 => exact absurd (List.mem_cons_self ..) h
  | case3 => exact absurd (List.mem_cons_self ..) h
  | case4 c rest _ _ ih => rw [ih fun hRest => h (List.mem_cons_of_mem c hRest)]

/-- The pieces of a text between the characters `mark`, first and last included:
always at least one. -/
def pieces (mark : Char) : Text → List Text
  | [] => [[]]
  | c :: rest =>
    if c == mark then [] :: pieces mark rest
    else match pieces mark rest with
      | [] => [[c]]
      | first :: others => (c :: first) :: others

/-- The lines of a text: its pieces between newlines. -/
def lines (t : Text) : List Text :=
  pieces '\n' t

theorem pieces_ne_nil (mark : Char) (t : Text) : pieces mark t ≠ [] := by
  cases t with
  | nil => simp [pieces]
  | cons c rest =>
    rw [pieces]
    split
    · simp
    · split <;> simp

/-- Joining the pieces with the mark between them gives the text back. -/
theorem intercalate_pieces (mark : Char) (t : Text) :
    List.intercalate [mark] (pieces mark t) = t := by
  induction t with
  | nil => rfl
  | cons c rest ih =>
    obtain ⟨first, others, hRest⟩ := List.exists_cons_of_ne_nil (pieces_ne_nil mark rest)
    rw [hRest] at ih
    rw [pieces]
    split
    · -- The piece that ends here is empty, and the others are those of the rest.
      rename_i hMark
      have hc : c = mark := by simpa using hMark
      rw [hRest, hc]
      simpa [List.intercalate, List.intersperse] using ih
    · rw [hRest]
      cases others <;> simp_all [List.intercalate, List.intersperse]

/-- Joining the lines of a text with newlines gives the text back. -/
theorem intercalate_lines (t : Text) : List.intercalate ['\n'] (lines t) = t :=
  intercalate_pieces '\n' t

end ShellReader.Text
