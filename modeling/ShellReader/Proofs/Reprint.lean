import ShellReader.Program
import ShellReader.Proofs.Coverage
import ShellReader.Proofs.RoundTrip
import ShellReader.Proofs.Shifting

/-!
# ShellReader — printing what was printed

What the program prints for its standard input is a command line and a newline. Given that as its
standard input, under the same environment, it prints it again.

The newline is a blank behind the command line and changes nothing. More is to be said about
carriage returns: within a line they belong to words, but in the standard input they end lines. So
a command line that had one would be read differently the second time. But there are none in what
was read, all line ends being newlines by then, and the layout adds only blanks and semicolons.

## Results

* `mem_source_of_parse` — what the characters of a tree's source are.
* `parse_source_append` — the source of a tree with blanks behind it is read as before.
* `Program.run_dash_iff` — when the program can print its standard input, and what it prints.
* `Program.run_reprint` — it prints the same again.
-/

namespace ShellReader

variable {line back : Text} {limit : Int} {tree : Tree} {c : Char}

-- ---------------------------------------------------------------------------
-- The source of a tree
-- ---------------------------------------------------------------------------

/-- The tokens of a line have no characters but those of the line. -/
theorem mem_of_mem_tokenize {t : Token} (ht : t ∈ tokenize line) (hc : c ∈ t.text) : c ∈ line := by
  obtain ⟨body, hTokens, hSpelling, -⟩ := tokenize_eq_append line
  rw [hTokens] at ht
  rcases List.mem_append.1 ht with hBody | hEnd
  · apply Text.mem_of_mem_core
    rw [← hSpelling]
    exact List.mem_flatMap.2 ⟨t, hBody, hc⟩
  · rw [List.mem_singleton.1 hEnd] at hc
    cases hc

namespace Grammar

variable {p : Phrase}

/-- What is written for a line has no characters but those of the line and those that are written
between its tokens. -/
theorem mem_of_mem_written
    (h : Reads limit (.sequence false) 0 ((tokenize line).map Token.bare) [p] [])
    (hc : c ∈ p.tree.source) : c ∈ line ∨ c = ' ' ∨ c = ';' := by
  have hTokens : ∀ q ∈ [p], ∀ t ∈ q.tokens, ∀ c ∈ t.text, c ∈ line ∨ c = ' ' ∨ c = ';' := by
    refine h.tokens (P := fun t => ∀ c ∈ t.text, c ∈ line ∨ c = ' ' ∨ c = ';') ?_ ?_ ?_ trivial
    · intro t ht _ c hc
      obtain ⟨u, hu, rfl⟩ := List.mem_map.1 ht
      exact .inl (mem_of_mem_tokenize hu hc)
    · simp [blank]
    · simp [semicolon]
  rw [← (written_source h).2.1] at hc
  obtain ⟨t, ht, hc⟩ := List.mem_flatMap.1 hc
  exact hTokens p (List.mem_singleton_self p) t ht c hc

/-- Something is written for a line. -/
theorem exists_mem_written
    (h : Reads limit (.sequence false) 0 ((tokenize line).map Token.bare) [p] []) :
    ∃ c ∈ p.tree.source, Text.isOuterBlank c = false := by
  obtain ⟨hFits, hSpelled, hFront, -⟩ := written_source h
  obtain ⟨⟨t, hHead, -⟩, -⟩ := h.tight trivial p (List.mem_singleton_self p)
  obtain ⟨us, hTokens⟩ := List.head?_eq_some_iff.1 hHead
  have hText : t.text ≠ [] := Token.ne_nil_of_fits (hFits t (by simp [hTokens])).1
  have hSome : p.tree.source ≠ [] := by
    rw [← hSpelled, hTokens, Token.spelling_cons]
    simp [hText]
  obtain ⟨c, rest, hSource⟩ := List.exists_cons_of_ne_nil hSome
  exact ⟨c, by simp [hSource], hFront c (by simp [hSource])⟩

/-- Blanks behind what is written for a line leave its tokens as they are. -/
theorem tokenize_source_append (hBack : ∀ c ∈ back, Text.isOuterBlank c = true)
    (h : Reads limit (.sequence false) 0 ((tokenize line).map Token.bare) [p] []) :
    (tokenize (p.tree.source ++ back)).map Token.bare = p.tokens ++ [ending] := by
  have hFront : ∀ c ∈ ([] : Text), Text.isOuterBlank c = true := by simp
  have hTokens := tokenize_outer_blanks hFront hBack (exists_mem_written h)
  rw [List.nil_append] at hTokens
  rw [hTokens, List.map_map, ← tokenize_source h]
  rfl

end Grammar

/-- What ends the tokens of a line. -/
theorem getLast?_tokenize (line : Text) :
    (tokenize line).getLast?.map (·.kind) = some .endOfInput := by
  obtain ⟨body, hTokens, -⟩ := tokenize_eq_append line
  rw [hTokens, List.getLast?_concat]
  rfl

open Grammar in
/-- The source of a tree with blanks behind it has a tree with the same source. -/
theorem parse_source_append (hBack : ∀ c ∈ back, Text.isOuterBlank c = true)
    (h : parse line limit = .ok tree) :
    ∃ again, parse (tree.source ++ back) limit = .ok again ∧ again.source = tree.source := by
  obtain ⟨p, hReads, hTree⟩ := reads_of_parseTokens h
  have hSource : p.tree.source = tree.source := by rw [hTree, Tree.source_bare]
  have hTokens := tokenize_source_append hBack hReads
  have hAgain : Reads limit (.sequence false) 0 (p.tokens ++ [ending]) [p] [] := by
    simpa using hReads.again [ending] [] ⟨_, [], rfl, rfl, rfl⟩
  rw [← hTokens] at hAgain
  obtain ⟨again, hParse, hBare⟩ := parseTokens_of_reads hAgain (getLast?_tokenize _)
  rw [hSource] at hParse
  exact ⟨again, hParse, by rw [← Tree.source_bare again, hBare, hSource]⟩

/-- The source of a tree has no characters but those of the line and those of the layout. -/
theorem mem_source_of_parse (h : parse line limit = .ok tree) (hc : c ∈ tree.source) :
    c ∈ line ∨ c = ' ' ∨ c = ';' := by
  obtain ⟨p, hReads, hTree⟩ := Grammar.reads_of_parseTokens h
  rw [← Tree.source_bare tree, ← hTree] at hc
  exact Grammar.mem_of_mem_written hReads hc

/-- There is more than blanks to the source of a tree. -/
theorem core_source_append_ne_nil (h : parse line limit = .ok tree) (back : Text) :
    (tree.source ++ back).core ≠ [] := by
  obtain ⟨p, hReads, hTree⟩ := Grammar.reads_of_parseTokens h
  obtain ⟨c, hc, hBlank⟩ := Grammar.exists_mem_written hReads
  rw [hTree, Tree.source_bare] at hc
  intro hCore
  have hAll := Text.core_eq_nil_iff.1 hCore c (List.mem_append_left back hc)
  rw [hBlank] at hAll
  cases hAll

-- ---------------------------------------------------------------------------
-- The program
-- ---------------------------------------------------------------------------

namespace Program

variable {s : Setting} {out : Text}

/-- A dash is an operand, and the only one. -/
theorem readArguments_dash (debug : Bool) :
    readArguments { debug := debug } [['-']] =
      .ok { debug := debug, operand? := some ['-'] } := rfl

/-- The program can print its standard input if there is more than blanks in it and it has a tree
under the limit of the environment. What is printed is the source of the tree. -/
theorem run_dash_iff :
    (run s [['-']]).ending = .status 0 ∧ (run s [['-']]).out = out ↔
      s.input.unifyNewlines.core ≠ [] ∧
        ∃ tree, parse s.input.unifyNewlines (s.env.limit Environment.defaultLimit) = .ok tree ∧
          out = tree.source ++ ['\n'] := by
  have hRead : readSource s (some ['-']) = readInput s.input := rfl
  rw [run, readArguments_dash]
  dsimp only
  rw [hRead, readInput]
  by_cases hCore : s.input.unifyNewlines.core = []
  · simp [hCore]
  · rw [if_neg (by simpa using hCore)]
    simp only [printSource, render]
    cases parse s.input.unifyNewlines (s.env.limit Environment.defaultLimit) with
    | error why => simp [Except.map]
    | ok tree =>
      constructor
      · rintro ⟨-, rfl⟩
        exact ⟨hCore, tree, rfl, rfl⟩
      · rintro ⟨-, _, hTree, rfl⟩
        cases hTree
        exact ⟨rfl, rfl⟩

/-- **What is printed is printed again.** Where the program can print its standard input, it can
print what it has printed, under the same environment, and prints just that. -/
theorem run_reprint (s : Setting) (h : (run s [['-']]).ending = .status 0) :
    (run { s with input := (run s [['-']]).out } [['-']]).ending = .status 0 ∧
      (run { s with input := (run s [['-']]).out } [['-']]).out = (run s [['-']]).out := by
  obtain ⟨-, tree, hTree, hOut⟩ := run_dash_iff.1 ⟨h, rfl⟩
  rw [run_dash_iff, hOut]
  have hReturn : '\r' ∉ tree.source ++ ['\n'] := by
    have hSource : '\r' ∉ tree.source := by
      intro hMem
      rcases mem_source_of_parse hTree hMem with hLine | hBlank | hSemicolon
      · exact Text.not_mem_unifyNewlines s.input hLine
      · cases hBlank
      · cases hSemicolon
    simp [hSource]
  have hBack : ∀ c ∈ ['\n'], Text.isOuterBlank c = true := by simp [Text.isOuterBlank]
  obtain ⟨again, hAgain, hSource⟩ := parse_source_append hBack hTree
  rw [Text.unifyNewlines_eq_self hReturn]
  exact ⟨core_source_append_ne_nil hTree _, again, hAgain, by rw [hSource]⟩

/-- Three kinds of line end: one between two commands, one in a continuation, one behind all. -/
theorem run_reprint_line_ends :
    ∃ s : Setting, s.input = "a\r\n;b |\\\n c\r".toList ∧
      (run s [['-']]).ending = .status 0 ∧ (run s [['-']]).out = "a; b | c\n".toList ∧
      (run { s with input := "a; b | c\n".toList } [['-']]).ending = .status 0 ∧
      (run { s with input := "a; b | c\n".toList } [['-']]).out = "a; b | c\n".toList := by
  have hUnified : Text.unifyNewlines "a\r\n;b |\\\n c\r".toList =
      "a\n;b |\\\n c\n".toList := by decide
  have hSource : (parse "a\n;b |\\\n c\n".toList 100).map Tree.source =
      .ok "a; b | c".toList := by cbv
  obtain ⟨tree, hTree, hOut⟩ := exists_of_map_source hSource
  let s : Setting := { input := "a\r\n;b |\\\n c\r".toList }
  have hPrinted : (run s [['-']]).ending = .status 0 ∧
      (run s [['-']]).out = "a; b | c\n".toList := by
    rw [run_dash_iff, show s.input.unifyNewlines = _ from hUnified]
    exact ⟨by decide, tree, hTree, by rw [hOut]; rfl⟩
  obtain ⟨hEnding, hOut⟩ := hPrinted
  have hAgain := run_reprint s hEnding
  rw [hOut] at hAgain
  exact ⟨s, rfl, hEnding, hOut, hAgain⟩

end Program

end ShellReader
