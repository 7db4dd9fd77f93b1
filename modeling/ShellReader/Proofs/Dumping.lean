import ShellReader.Program
import ShellReader.Proofs.Escaping
import ShellReader.Proofs.Lexical

/-!
# ShellReader — what dumps tell

Two dumps show no more than they should and no less. The dump of a command line's tokens, one to a
line, tells the command line but for the blanks around it. The pretty form of a tree tells the tree
but for what it does not show: the kinds and offsets of tokens, and quotes.

Both are read from left to right. A name of a kind goes on up to a character that no name has, and
a quoted text shows where it ends. How deep a line of a pretty tree stands is told by the blanks in
front of it, since no name starts with one, and a tree is over where a line is not deeper than its
own.

## Results

* `Token.dump_append_inj` — the dump of a token tells its kind and text and where it ends.
* `Token.dumps_eq_iff` — so does the dump of a list, one token to a line.
* `Tree.prettyAt_append_inj` — the lines of a tree tell what they show and where they end.
* `Tree.pretty_eq_iff`, `Program.render_tokens_eq_iff` — what the two dumps tell.
-/

namespace ShellReader

variable {rest rest' : Text}

/-- Of two names with something behind them, neither of which has a character of the class that
stands behind both. -/
theorem Text.append_cons_inj {p : Char → Bool} {name name' : Text} {c d : Char}
    (hName : ∀ a ∈ name, p a = false) (hName' : ∀ a ∈ name', p a = false) (hc : p c = true)
    (hd : p d = true) (h : name ++ c :: rest = name' ++ d :: rest') :
    name = name' ∧ c = d ∧ rest = rest' := by
  induction name generalizing name' with
  | nil =>
    cases name' with
    | nil => exact ⟨rfl, List.cons.inj h⟩
    | cons b name' =>
      obtain rfl : c = b := (List.cons.inj h).1
      rw [hName' c (List.mem_cons_self ..)] at hc
      cases hc
  | cons a name ih =>
    cases name' with
    | nil =>
      obtain rfl : a = d := (List.cons.inj h).1
      rw [hName a (List.mem_cons_self ..)] at hd
      cases hd
    | cons b name' =>
      obtain ⟨rfl, hTail⟩ := List.cons.inj h
      obtain ⟨rfl, hBehind⟩ := ih (fun a ha => hName a (List.mem_cons_of_mem _ ha))
        (fun a ha => hName' a (List.mem_cons_of_mem _ ha)) hTail
      exact ⟨rfl, hBehind⟩

-- ---------------------------------------------------------------------------
-- Tokens
-- ---------------------------------------------------------------------------

namespace Token

/-- A kind is found by its name. -/
theorem Kind.ofName?_name (k : Kind) : Kind.ofName? k.name = some k := by
  cases k <;> decide +kernel

theorem Kind.name_injective {a b : Kind} (h : a.name = b.name) : a = b := by
  have hFound := congrArg Kind.ofName? h
  rwa [ofName?_name, ofName?_name, Option.some.injEq] at hFound

/-- No name of a kind has a comma. -/
theorem Kind.name_no_comma (k : Kind) : ∀ c ∈ k.name.toList, (c == ',') = false := by
  have hAll : (k.name.toList.all fun c => !(c == ',')) = true := by
    cases k <;> decide +kernel
  simpa only [List.all_eq_true, Bool.not_eq_true'] using hAll

theorem dump_append (t : Token) (rest : Text) :
    t.dump ++ rest = 'T' :: 'o' :: 'k' :: '(' ::
      (t.kind.name.toList ++ ',' :: ' ' :: (t.text.quoted ++ ')' :: rest)) := by
  unfold dump
  rw [List.append_assoc, List.append_assoc, List.append_assoc, List.append_assoc]
  rfl

/-- The dump of a token tells its kind and text, and where it ends. -/
theorem dump_append_inj {a b : Token} (h : a.dump ++ rest = b.dump ++ rest') :
    a.shape = b.shape ∧ rest = rest' := by
  simp only [dump_append, List.cons.injEq, true_and] at h
  obtain ⟨hKind, -, hText⟩ :=
    Text.append_cons_inj a.kind.name_no_comma b.kind.name_no_comma rfl rfl h
  obtain ⟨hText, hRest⟩ := Text.quoted_append_inj (List.cons.inj hText).2
  exact ⟨Prod.ext (Kind.name_injective (String.toList_inj.1 hKind)) hText, (List.cons.inj hRest).2⟩

theorem dump_ne_nil (t : Token) : t.dump ≠ [] := by
  rw [← List.append_nil t.dump, dump_append]
  exact List.cons_ne_nil _ _

/-- The dump of a list of tokens, one to a line. -/
def dumps (ts : List Token) : Text := List.intercalate ['\n'] (ts.map dump)

theorem dumps_cons (t : Token) (ts : List Token) :
    dumps (t :: ts) = t.dump ++ ts.flatMap fun u => '\n' :: u.dump := by
  unfold dumps
  induction ts generalizing t with
  | nil => simp
  | cons u ts ih =>
    rw [List.map_cons, List.map_cons, List.intercalate_cons_cons, ← List.map_cons, ih]
    simp

/-- Tokens that each stand on a line of their own are told by these lines, but for offsets. -/
theorem lines_inj {ts us : List Token}
    (h : (ts.flatMap fun t => '\n' :: t.dump) = us.flatMap fun u => '\n' :: u.dump) :
    ts.map shape = us.map shape := by
  induction ts generalizing us with
  | nil =>
    cases us with
    | nil => rfl
    | cons u us => cases h
  | cons t ts ih =>
    cases us with
    | nil => cases h
    | cons u us =>
      obtain ⟨hShape, hBehind⟩ := dump_append_inj (List.cons.inj h).2
      rw [List.map_cons, List.map_cons, hShape, ih hBehind]

/-- The dump of a list, one token to a line, tells the list but for offsets. -/
theorem dumps_eq_iff {ts us : List Token} : dumps ts = dumps us ↔ ts.map shape = us.map shape := by
  constructor
  · intro h
    cases ts with
    | nil =>
      cases us with
      | nil => rfl
      | cons u us =>
        rw [dumps_cons] at h
        exact absurd (List.append_eq_nil_iff.1 h.symm).1 u.dump_ne_nil
    | cons t ts =>
      cases us with
      | nil =>
        rw [dumps_cons] at h
        exact absurd (List.append_eq_nil_iff.1 h).1 t.dump_ne_nil
      | cons u us =>
        rw [dumps_cons, dumps_cons] at h
        obtain ⟨hShape, hBehind⟩ := dump_append_inj h
        rw [List.map_cons, List.map_cons, hShape, lines_inj hBehind]
  · intro h
    have hDump (vs : List Token) :
        vs.map dump = (vs.map shape).map fun s => dump ⟨s.1, s.2, 0⟩ := by
      rw [List.map_map]
      rfl
    rw [dumps, dumps, hDump ts, hDump us, h]

end Token

/-- The tokens of a command line spell its core. -/
theorem spelling_tokenize (line : Text) : Token.spelling (tokenize line) = line.core := by
  obtain ⟨body, last, hTokens, hLast, -, hSpelling⟩ := tokenize_sound line
  have hText : last.text = [] := congrArg Prod.snd hLast
  rw [hTokens, Token.spelling_append, hSpelling, Token.spelling_cons, hText]
  simp

/-- **The token dump is lossless.** Two command lines have the same dump of their tokens exactly if
they are the same but for the blanks around them. -/
theorem Program.render_tokens_eq_iff (line line' : Text) (limit limit' : Int) :
    render line limit .tokens = render line' limit' .tokens ↔ line.core = line'.core := by
  have hRender (line : Text) (limit : Int) :
      render line limit .tokens = .ok (Token.dumps (tokenize line)) := rfl
  rw [hRender, hRender, Except.ok.injEq, Token.dumps_eq_iff]
  constructor
  · intro h
    rw [← spelling_tokenize, ← spelling_tokenize]
    exact Token.spelling_congr h
  · intro h
    rw [tokenize_shape, tokenize_shape, h]

-- ---------------------------------------------------------------------------
-- Trees
-- ---------------------------------------------------------------------------

namespace Tree

variable {depth : Nat}

mutual

/-- Whether two trees look alike: they agree in kind, and in text or in their children one by one.
Kinds and offsets of tokens and quotes do not count. -/
def looksLike : Tree → Tree → Bool
  | leaf k t _, leaf k' t' _ => k == k' && t.text == t'.text
  | node k first rest _, node k' first' rest' _ =>
    k == k' && first.looksLike first' && lookAlike rest rest'
  | _, _ => false

/-- Whether the trees of two lists look alike, one by one. -/
def lookAlike : List Tree → List Tree → Bool
  | [], [] => true
  | a :: as, b :: bs => a.looksLike b && lookAlike as bs
  | _, _ => false

end

mutual

/-- Trees that look alike have the same pretty form. -/
theorem prettyAt_congr (unit : Text) (depth : Nat) : (a b : Tree) → a.looksLike b = true →
    a.prettyAt unit depth = b.prettyAt unit depth
  | leaf k t q, leaf k' t' q', h => by
    simp only [looksLike, Bool.and_eq_true, beq_iff_eq] at h
    rw [prettyAt, prettyAt, h.1, h.2]
  | node k first rest q, node k' first' rest' q', h => by
    simp only [looksLike, Bool.and_eq_true, beq_iff_eq] at h
    rw [prettyAt, prettyAt, h.1.1, prettyAt_congr unit (depth + 1) first first' h.1.2,
      prettyAllAt_congr unit (depth + 1) rest rest' h.2]

theorem prettyAllAt_congr (unit : Text) (depth : Nat) : (ts us : List Tree) →
    lookAlike ts us = true → prettyAllAt unit depth ts = prettyAllAt unit depth us
  | [], [], _ => rfl
  | t :: ts, u :: us, h => by
    simp only [lookAlike, Bool.and_eq_true] at h
    rw [prettyAllAt, prettyAllAt, prettyAt_congr unit depth t u h.1,
      prettyAllAt_congr unit depth ts us h.2]

end

/-- The two characters that may stand behind the name of a kind. -/
def endsName (c : Char) : Bool := c == '\t' || c == '\n'

/-- The name of a kind goes on up to the character behind it. -/
theorem Kind.name_append_inj {k k' : Kind} {c d : Char} (hc : endsName c = true)
    (hd : endsName d = true) (h : k.name.toList ++ c :: rest = k'.name.toList ++ d :: rest') :
    k = k' ∧ c = d ∧ rest = rest' := by
  have hAll (k : Kind) : (k.name.toList.all fun a => !endsName a) = true := by
    cases k <;> decide +kernel
  have hName (k : Kind) : ∀ a ∈ k.name.toList, endsName a = false := by
    simpa only [List.all_eq_true, Bool.not_eq_true'] using hAll k
  obtain ⟨hKind, hBehind⟩ := Text.append_cons_inj (hName k) (hName k') hc hd h
  exact ⟨Kind.name_injective (String.toList_inj.1 hKind), hBehind⟩

theorem prettyAt_leaf (unit : Text) (kind : Kind) (token : Token) (quote : Option Text) :
    (leaf kind token quote).prettyAt unit depth ++ rest = Text.repeated depth unit ++
      (kind.name.toList ++ '\t' :: (token.text.quoted ++ '\n' :: rest)) := by
  simp [prettyAt]

theorem prettyAt_node (unit : Text) (kind : Kind) (first : Tree) (others : List Tree)
    (quote : Option Text) :
    (node kind first others quote).prettyAt unit depth ++ rest = Text.repeated depth unit ++
      (kind.name.toList ++ '\n' :: (first.prettyAt unit (depth + 1) ++
        (prettyAllAt unit (depth + 1) others ++ rest))) := by
  simp [prettyAt]

/-- No line that is more than `depth` levels in starts the text. -/
def Outside (depth : Nat) (t : Text) : Prop :=
  ¬ Text.repeated (depth + 1) prettyUnit <+: t

theorem repeated_succ (n : Nat) (unit : Text) :
    Text.repeated (n + 1) unit = Text.repeated n unit ++ unit := by
  rw [Text.repeated, List.replicate_succ', List.flatten_append, List.flatten_singleton]
  rfl

theorem Outside.deeper {t : Text} (h : Outside depth t) : Outside (depth + 1) t := by
  intro hPrefix
  rw [repeated_succ] at hPrefix
  exact h ((List.prefix_append ..).trans hPrefix)

/-- A tree's own line is `depth` levels in and no further: a name does not start with a blank. -/
theorem exists_prettyAt (depth : Nat) (t : Tree) (rest : Text) :
    ∃ c tail, t.prettyAt prettyUnit depth ++ rest =
      Text.repeated depth prettyUnit ++ c :: tail ∧ c ≠ ' ' := by
  have hName (k : Kind) : ∃ c tail, k.name.toList = c :: tail ∧ c ≠ ' ' := by
    cases k <;> exact ⟨_, _, rfl, by decide⟩
  cases t with
  | leaf kind =>
    obtain ⟨c, tail, hFirst, hBlank⟩ := hName kind
    rw [prettyAt_leaf, hFirst]
    exact ⟨c, _, rfl, hBlank⟩
  | node kind =>
    obtain ⟨c, tail, hFirst, hBlank⟩ := hName kind
    rw [prettyAt_node, hFirst]
    exact ⟨c, _, rfl, hBlank⟩

theorem outside_prettyAt (t : Tree) : Outside depth (t.prettyAt prettyUnit depth ++ rest) := by
  obtain ⟨c, tail, hLine, hBlank⟩ := exists_prettyAt depth t rest
  rw [Outside, hLine, repeated_succ, List.prefix_append_right_inj, prettyUnit,
    List.cons_prefix_cons]
  exact fun h => hBlank h.1.symm

/-- Where a tree is over, no line is deeper than its own. -/
theorem outside_prettyAllAt (h : Outside depth rest) (ts : List Tree) :
    Outside (depth + 1) (prettyAllAt prettyUnit (depth + 1) ts ++ rest) := by
  cases ts with
  | nil => exact h.deeper
  | cons t ts =>
    rw [prettyAllAt, List.append_assoc]
    exact outside_prettyAt t

/-- A list of children is over where a line is not deeper than the parent's. -/
theorem prettyAllAt_append_ne (h : Outside depth rest) (t : Tree) (ts : List Tree) :
    prettyAllAt prettyUnit (depth + 1) (t :: ts) ++ rest' ≠ rest := by
  rintro rfl
  rw [prettyAllAt, List.append_assoc] at h
  obtain ⟨c, tail, hLine, -⟩ := exists_prettyAt (depth + 1) t _
  rw [hLine] at h
  exact h (List.prefix_append ..)

mutual

/-- The lines of a tree tell what they show, and where they end. -/
theorem prettyAt_append_inj {rest rest' : Text} {depth : Nat} (hRest : Outside depth rest)
    (hRest' : Outside depth rest') : (a b : Tree) →
    a.prettyAt prettyUnit depth ++ rest = b.prettyAt prettyUnit depth ++ rest' →
    a.looksLike b = true ∧ rest = rest'
  | leaf k t q, leaf k' t' q', h => by
    rw [prettyAt_leaf, prettyAt_leaf] at h
    obtain ⟨hKind, -, hText⟩ := Kind.name_append_inj rfl rfl (List.append_cancel_left h)
    obtain ⟨hText, hBehind⟩ := Text.quoted_append_inj hText
    simp [looksLike, hKind, hText, (List.cons.inj hBehind).2]
  | node k first others q, node k' first' others' q', h => by
    rw [prettyAt_node, prettyAt_node] at h
    obtain ⟨hKind, -, hLines⟩ := Kind.name_append_inj rfl rfl (List.append_cancel_left h)
    obtain ⟨hFirst, hBehind⟩ := prettyAt_append_inj (outside_prettyAllAt hRest others)
      (outside_prettyAllAt hRest' others') first first' hLines
    obtain ⟨hOthers, hEnd⟩ := prettyAllAt_append_inj hRest hRest' others others' hBehind
    simp [looksLike, hKind, hFirst, hOthers, hEnd]
  | leaf k t q, node k' first' others' q', h => by
    rw [prettyAt_leaf, prettyAt_node] at h
    obtain ⟨-, hEnd, -⟩ := Kind.name_append_inj rfl rfl (List.append_cancel_left h)
    cases hEnd
  | node k first others q, leaf k' t' q', h => by
    rw [prettyAt_leaf, prettyAt_node] at h
    obtain ⟨-, hEnd, -⟩ := Kind.name_append_inj rfl rfl (List.append_cancel_left h)
    cases hEnd

/-- So do the lines of several trees at one depth. -/
theorem prettyAllAt_append_inj {rest rest' : Text} {depth : Nat} (hRest : Outside depth rest)
    (hRest' : Outside depth rest') : (ts us : List Tree) →
    prettyAllAt prettyUnit (depth + 1) ts ++ rest =
      prettyAllAt prettyUnit (depth + 1) us ++ rest' →
    lookAlike ts us = true ∧ rest = rest'
  | [], [], h => ⟨rfl, h⟩
  | [], u :: us, h => absurd h.symm (prettyAllAt_append_ne hRest u us)
  | t :: ts, [], h => absurd h (prettyAllAt_append_ne hRest' t ts)
  | t :: ts, u :: us, h => by
    rw [prettyAllAt, prettyAllAt, List.append_assoc, List.append_assoc] at h
    obtain ⟨hFirst, hBehind⟩ := prettyAt_append_inj (outside_prettyAllAt hRest ts)
      (outside_prettyAllAt hRest' us) t u h
    obtain ⟨hOthers, hEnd⟩ := prettyAllAt_append_inj hRest hRest' ts us hBehind
    simp [lookAlike, hFirst, hOthers, hEnd]

end

/-- **The pretty form is faithful.** Two trees have the same pretty form exactly if they look
alike: they are of the same kinds and have the same texts and as many children everywhere. -/
theorem pretty_eq_iff (a b : Tree) :
    a.pretty prettyUnit = b.pretty prettyUnit ↔ a.looksLike b = true := by
  have hEnd : Outside 0 [] := by
    rw [Outside, List.prefix_nil]
    decide
  constructor
  · intro h
    refine (prettyAt_append_inj hEnd hEnd a b ?_).1
    rw [List.append_nil, List.append_nil]
    exact h
  · exact prettyAt_congr prettyUnit 0 a b

end Tree

end ShellReader
