import ShellReader.Proofs.Grammar
import ShellReader.Proofs.Lexical

/-!
# ShellReader — the canonical layout

A phrase that the grammar finds comes with the tokens that are written for it: its
own tokens, without the blanks and separators it was read with, and with those of
the canonical layout. This module says what these tokens are good for.

## Results

* `Reads.closed` — what holds of single tokens and strings, and is handed on from
  phrases to the phrases made of them, holds of every phrase.
* `Reads.spelled` — the tokens of a phrase spell the source of its tree.
* `Reads.joined` — they do not run together where the tokens that were read do not.
* `Reads.tight` — they have no blank at either end.
-/

namespace ShellReader.Grammar

open Production (startsAssignment atWordEnd startsEscape binary)
open Descent (Context Reading Item wordTree stringTree startsSubstitution)
open Token (fits mayFollow spelling)

variable {limit : Int} {rule : Rule} {depth : Nat} {ts rest : List Token} {ps : List Phrase}

-- ---------------------------------------------------------------------------
-- What is read
-- ---------------------------------------------------------------------------

/-- Three of the rules skip tokens. -/
theorem Gap.rule_eq {gap : List Token} (h : Gap rule gap) :
    rule = .parts ∨ rule = .operand ∨ ∃ nested, rule = .items nested := by
  cases h with
  | space hRule => exact hRule
  | continuation hRule => exact hRule
  | newline => exact .inr (.inl rfl)
  | separator => exact .inr (.inr ⟨_, rfl⟩)

/-- A string is its parts, and the quote behind them. -/
theorem Quoted.eq_append {opener : Token.Kind} {parts : List Token} {closer : Token}
    (h : Quoted opener ts parts closer rest) : ts = parts ++ closer :: rest := by
  induction h with
  | close => rfl
  | escape _ _ _ _ _ ih => simp [ih]
  | plain _ _ _ _ ih => simp [ih]

theorem Quoted.closer_kind {opener : Token.Kind} {parts : List Token} {closer : Token}
    (h : Quoted opener ts parts closer rest) : closer.kind = opener := by
  induction h with
  | close _ hClose => exact hClose
  | escape _ _ _ _ _ ih => exact ih
  | plain _ _ _ _ ih => exact ih

/-- The end is no part of a string. -/
theorem Quoted.ne_end {opener : Token.Kind} {parts : List Token} {closer : Token}
    (h : Quoted opener ts parts closer rest) :
    ∀ t ∈ parts ++ [closer], t.kind ≠ .endOfInput := by
  induction h with
  | close hEnd _ => simpa using hEnd
  | @escape t u _ more _ _ hEnd _ _ hEscape _ ih =>
    have hNext : u.kind ≠ .endOfInput := by
      rintro hKind
      simp [startsEscape, hKind] at hEscape
    intro v hv
    rcases List.mem_cons.1 hv with rfl | hv
    · exact hEnd
    · rcases List.mem_cons.1 hv with rfl | hv
      · exact hNext
      · exact ih v hv
  | plain hEnd _ _ _ ih =>
    intro t ht
    rcases List.mem_cons.1 ht with rfl | ht
    · exact hEnd
    · exact ih t ht

/-- What is left is an end of what there was. -/
theorem Reads.suffix (h : Reads limit rule depth ts ps rest) : rest <:+ ts := by
  induction h with
  | literal => exact List.suffix_cons _ _
  | @string _ _ t closer _ parts rest _ _ hQuoted =>
    rw [hQuoted.eq_append]
    exact ((List.suffix_cons closer rest).trans (List.suffix_append parts _)).trans
      (List.suffix_cons t _)
  | @substitution _ _ dollar paren close inside rest _ _ _ _ _ _ ih =>
    exact ((List.suffix_cons close rest).trans ih).trans
      ((List.suffix_cons paren inside).trans (List.suffix_cons dollar _))
  | piecesNil => exact List.suffix_refl _
  | piecesCons _ _ ihFirst ihOthers => exact ihOthers.trans ihFirst
  | word _ _ _ ihFirst ihOthers => exact ihOthers.trans ihFirst
  | assignmentEmpty => exact (List.suffix_cons _ _).trans (List.suffix_cons _ _)
  | assignment _ _ _ ih => exact (ih.trans (List.suffix_cons _ _)).trans (List.suffix_cons _ _)
  | argument _ _ ih => exact ih
  | skip _ _ ih => exact ih.trans (List.suffix_append _ _)
  | partsNil => exact List.suffix_refl _
  | partsCons _ _ ihFirst ihOthers => exact ihOthers.trans ihFirst
  | command _ _ _ ihFirst ihOthers => exact ihOthers.trans ihFirst
  | operand _ ih => exact ih
  | chainStop => exact List.suffix_refl _
  | chainLink _ _ _ _ ihNext ihRest => exact (ihRest.trans ihNext).trans (List.suffix_cons _ _)
  | finish => exact List.suffix_cons _ _
  | close => exact List.suffix_refl _
  | item _ _ _ ihFirst ihChain ihOthers => exact (ihOthers.trans ihChain).trans ihFirst
  | sequence _ _ ih => exact ih

-- ---------------------------------------------------------------------------
-- What holds of every phrase
-- ---------------------------------------------------------------------------

/-- What stands before the latest pipeline is joined to it by `&&` or `||`. -/
def Proper (item : Item) : Prop :=
  ∀ kind left, item.left = some (kind, left) → kind = .andIf ∨ kind = .orIf

theorem proper_single (tree : Tree) : Proper (.single tree) := by
  rintro kind left ⟨⟩

theorem Proper.join {item : Item} {operator : Token.Kind} {command : Tree} (h : Proper item)
    (hOperator : operator.isOperator = true) : Proper (item.join operator command) := by
  intro kind left hLeft
  rw [Item.join] at hLeft
  by_cases hPipe : operator = .pipe
  · rw [if_pos hPipe] at hLeft
    exact h kind left hLeft
  · rw [if_neg hPipe] at hLeft
    obtain ⟨rfl, -⟩ := Prod.mk.inj (Option.some.inj hLeft)
    rcases Descent.eq_of_isOperator hOperator with rfl | rfl | rfl
    · exact absurd rfl hPipe
    · exact .inl rfl
    · exact .inr rfl

/-- `Q` is handed on from phrases to the phrases made of them, given `P` of the tokens
that are read. -/
structure Closed (P : Token → Prop) (Q : Phrase → Prop) : Prop where
  literal : ∀ (role : WordRole) (t : Token) (more : List Token), P t →
    atWordEnd t more = false → t.kind.isQuote = false → Q ⟨.leaf role.partKind t none, [t]⟩
  string : ∀ (t closer : Token) (more parts rest : List Token), P t → P closer →
    (∀ u ∈ parts, P u) → t.kind.isQuote = true → Quoted t.kind more parts closer rest →
    Q ⟨(stringTree t parts).bare, t :: parts ++ [closer]⟩
  substitution : ∀ (dollar paren close : Token) (root : Phrase), P dollar → P paren →
    P close → dollar.kind = .dollar → paren.kind = .leftParenthesis →
    close.kind = .rightParenthesis → Q root →
    Q ⟨.node .substitution root.tree [] none, dollar :: paren :: root.tokens ++ [close]⟩
  word : ∀ (role : WordRole) (first : Phrase) (others : List Phrase), Q first →
    (∀ p ∈ others, Q p) → Q ⟨wordTree role first.tree (others.map (·.tree)),
      first.tokens ++ others.flatMap (·.tokens)⟩
  assignmentEmpty : ∀ name equals : Token, P name → P equals → name.kind = .word →
    equals.kind = .equals →
    Q ⟨.node .assignment (.leaf .lhs name none) [] none, [name, equals]⟩
  assignment : ∀ (name equals : Token) (value : Phrase), P name → P equals →
    name.kind = .word → equals.kind = .equals → Q value →
    Q ⟨.node .assignment (.leaf .lhs name none) [value.tree] none,
      name :: equals :: value.tokens⟩
  command : ∀ (first : Phrase) (others : List Phrase), Q first → (∀ p ∈ others, Q p) →
    Q ⟨.node .command first.tree (others.map (·.tree)) none,
      first.tokens ++ others.flatMap fun p => blank :: p.tokens⟩
  join : ∀ (item : Item) (tokens : List Token) (t : Token) (next : Phrase), P t →
    t.kind.isOperator = true → Proper item → Q ⟨item.tree, tokens⟩ → Q next →
    Q ⟨(item.join t.kind next.tree).tree, tokens ++ blank :: t :: blank :: next.tokens⟩
  sequence : ∀ (first : Phrase) (others : List Phrase), Q first → (∀ p ∈ others, Q p) →
    Q ⟨.node .root first.tree (others.map (·.tree)) none,
      first.tokens ++ others.flatMap fun p => semicolon :: blank :: p.tokens⟩

/-- An item in the making is a phrase, too. -/
def Rule.Item (Q : Phrase → Prop) : Rule → Prop
  | .chain item tokens => Proper item ∧ Q ⟨item.tree, tokens⟩
  | _ => True

/-- A token that does not end a word is not the end. -/
theorem ne_end_of_atWordEnd {t : Token} {more : List Token} (h : atWordEnd t more = false) :
    t.kind ≠ .endOfInput :=
  (Descent.atWordEnd_eq_false.1 h).2.2.2.2.1

/-- What is handed on from phrases to the phrases made of them holds of every phrase. -/
theorem Reads.closed {P : Token → Prop} {Q : Phrase → Prop} (hClosed : Closed P Q)
    (h : Reads limit rule depth ts ps rest) (hTokens : ∀ t ∈ ts, t.kind ≠ .endOfInput → P t)
    (hItem : rule.Item Q) : ∀ p ∈ ps, Q p := by
  induction h with
  | literal hOpen hQuote _ =>
    simpa using hClosed.literal _ _ _ (hTokens _ (by simp) (ne_end_of_atWordEnd hOpen)) hOpen
      hQuote
  | @string _ _ t closer more parts rest hQuote _ hQuoted =>
    have hMore := hQuoted.eq_append
    have hEnds := hQuoted.ne_end
    have hQuotes : t.kind ≠ .endOfInput := by
      intro hKind
      rw [hKind] at hQuote
      cases hQuote
    have hString := hClosed.string t closer more parts rest (hTokens t (by simp) hQuotes)
      (hTokens closer (by simp [hMore]) (hEnds closer (by simp)))
      (fun u hu => hTokens u (by simp [hMore, hu]) (hEnds u (by simp [hu])))
      hQuote hQuoted
    simpa using hString
  | @substitution _ _ dollar paren close inside rest root hDollar hParen _ hInside hClose ih =>
    have hMem : close ∈ inside := hInside.suffix.mem (by simp)
    have hRoot := ih (fun t ht => hTokens t (by simp [ht])) trivial root (by simp)
    have hWhole := hClosed.substitution dollar paren close root
      (hTokens dollar (by simp) (by simp [hDollar]))
      (hTokens paren (by simp) (by simp [hParen]))
      (hTokens close (by simp [hMem]) (by simp [hClose])) hDollar hParen hClose hRoot
    simpa using hWhole
  | piecesNil => simp
  | piecesCons hFirst _ ihFirst ihOthers =>
    have hPiece := ihFirst hTokens trivial
    have hPieces := ihOthers (fun t ht => hTokens t (hFirst.suffix.mem ht)) trivial
    simpa using ⟨hPiece _ (by simp), hPieces⟩
  | word _ hFirst _ ihFirst ihOthers =>
    have hPiece := ihFirst hTokens trivial
    have hPieces := ihOthers (fun t ht => hTokens t (hFirst.suffix.mem ht)) trivial
    simpa using hClosed.word _ _ _ (hPiece _ (by simp)) hPieces
  | @assignmentEmpty _ name equals t more hStart _ _ =>
    obtain ⟨hName, -, u, us, hMore, hEquals⟩ := Descent.startsAssignment_iff.1 hStart
    obtain ⟨rfl, rfl⟩ := List.cons.inj hMore
    have hWhole := hClosed.assignmentEmpty name equals
      (hTokens name (by simp) (by simp [hName]))
      (hTokens equals (by simp) (by simp [hEquals])) hName hEquals
    simpa using hWhole
  | @assignment _ name equals ts rest value hStart _ _ ih =>
    obtain ⟨hName, -, u, us, hMore, hEquals⟩ := Descent.startsAssignment_iff.1 hStart
    obtain ⟨rfl, rfl⟩ := List.cons.inj hMore
    have hValue := ih (fun t ht => hTokens t (by simp [ht])) trivial value (by simp)
    have hWhole := hClosed.assignment name equals value
      (hTokens name (by simp) (by simp [hName]))
      (hTokens equals (by simp) (by simp [hEquals])) hName hEquals hValue
    simpa using hWhole
  | argument _ _ ih => exact ih hTokens trivial
  | skip _ _ ih => exact ih (fun t ht => hTokens t (by simp [ht])) hItem
  | partsNil => simp
  | partsCons hFirst _ ihFirst ihOthers =>
    have hPart := ihFirst hTokens trivial
    have hParts := ihOthers (fun t ht => hTokens t (hFirst.suffix.mem ht)) trivial
    simpa using ⟨hPart _ (by simp), hParts⟩
  | command _ hFirst _ ihFirst ihOthers =>
    have hPart := ihFirst hTokens trivial
    have hParts := ihOthers (fun t ht => hTokens t (hFirst.suffix.mem ht)) trivial
    simpa using hClosed.command _ _ (hPart _ (by simp)) hParts
  | operand _ ih => exact ih hTokens trivial
  | chainStop =>
    intro p hp
    rw [List.mem_singleton.1 hp]
    exact hItem.2
  | @chainLink item tokens _ t more between _ next _ hOperator _ hNext _ ihNext ihRest =>
    have hKind : t.kind ≠ .endOfInput := by
      rintro hKind
      rw [hKind] at hOperator
      cases hOperator
    have hOperand := ihNext (fun u hu => hTokens u (by simp [hu])) trivial next (by simp)
    have hJoin := hClosed.join item tokens t next (hTokens t (by simp) hKind) hOperator
      hItem.1 hItem.2 hOperand
    exact ihRest (fun u hu => hTokens u (by simp [hNext.suffix.mem hu]))
      ⟨hItem.1.join hOperator, hJoin⟩
  | finish => simp
  | close => simp
  | @item _ _ _ behind between _ first whole others hFirst hChain _ ihFirst ihChain ihOthers =>
    have hCommand := ihFirst hTokens trivial first (by simp)
    have hWhole := ihChain (fun t ht => hTokens t (hFirst.suffix.mem ht))
      ⟨proper_single first.tree, hCommand⟩
    have hItems := ihOthers
      (fun t ht => hTokens t (hFirst.suffix.mem (hChain.suffix.mem ht))) trivial
    simpa using ⟨hWhole whole (by simp), hItems⟩
  | sequence _ _ ih =>
    have hItems := ih hTokens trivial
    simpa using hClosed.sequence _ _ (hItems _ (by simp))
      (fun p hp => hItems p (List.mem_cons_of_mem _ hp))

-- ---------------------------------------------------------------------------
-- The tokens of a phrase
-- ---------------------------------------------------------------------------

theorem closed_tokens {P : Token → Prop} (hBlank : P blank) (hSemicolon : P semicolon) :
    Closed P fun p => ∀ t ∈ p.tokens, P t where
  literal role t more ht _ _ := by simpa using ht
  string t closer more parts rest ht hCloser hParts _ _ := by
    intro u hu
    simp only [List.cons_append, List.mem_cons, List.mem_append, List.not_mem_nil,
      or_false] at hu
    rcases hu with rfl | hu | rfl
    · exact ht
    · exact hParts u hu
    · exact hCloser
  substitution dollar paren close root hDollar hParen hClose _ _ _ hRoot := by
    intro u hu
    simp only [List.cons_append, List.mem_cons, List.mem_append, List.not_mem_nil,
      or_false] at hu
    rcases hu with rfl | rfl | hu | rfl
    · exact hDollar
    · exact hParen
    · exact hRoot u hu
    · exact hClose
  word role first others hFirst hOthers := by
    intro u hu
    rcases List.mem_append.1 hu with hu | hu
    · exact hFirst u hu
    · obtain ⟨p, hp, hu⟩ := List.mem_flatMap.1 hu
      exact hOthers p hp u hu
  assignmentEmpty name equals hName hEquals _ _ := by simp [hName, hEquals]
  assignment name equals value hName hEquals _ _ hValue := by
    simpa [hName, hEquals] using hValue
  command first others hFirst hOthers := by
    intro u hu
    rcases List.mem_append.1 hu with hu | hu
    · exact hFirst u hu
    · obtain ⟨p, hp, hu⟩ := List.mem_flatMap.1 hu
      rcases List.mem_cons.1 hu with rfl | hu
      · exact hBlank
      · exact hOthers p hp u hu
  join item tokens t next ht _ _ hTokens hNext := by
    intro u hu
    simp only [List.mem_append, List.mem_cons] at hu
    rcases hu with hu | rfl | rfl | rfl | hu
    · exact hTokens u hu
    · exact hBlank
    · exact ht
    · exact hBlank
    · exact hNext u hu
  sequence first others hFirst hOthers := by
    intro u hu
    rcases List.mem_append.1 hu with hu | hu
    · exact hFirst u hu
    · obtain ⟨p, hp, hu⟩ := List.mem_flatMap.1 hu
      simp only [List.mem_cons] at hu
      rcases hu with rfl | rfl | hu
      · exact hSemicolon
      · exact hBlank
      · exact hOthers p hp u hu

/-- The tokens of a phrase were read, or belong to the layout. -/
theorem Reads.tokens {P : Token → Prop} (h : Reads limit rule depth ts ps rest)
    (hTokens : ∀ t ∈ ts, t.kind ≠ .endOfInput → P t) (hBlank : P blank)
    (hSemicolon : P semicolon) (hItem : rule.Item fun p => ∀ t ∈ p.tokens, P t) :
    ∀ p ∈ ps, ∀ t ∈ p.tokens, P t :=
  h.closed (closed_tokens hBlank hSemicolon) hTokens hItem

/-- Neither a space nor a newline. -/
def Solid (t : Token) : Prop := t.kind ≠ .space ∧ t.kind ≠ .newline

/-- There are tokens, and those at the two ends are no blanks. -/
def Tight (ts : List Token) : Prop :=
  (∃ t ∈ ts.head?, Solid t) ∧ ∃ t ∈ ts.getLast?, Solid t

theorem Tight.ne_nil (h : Tight ts) : ts ≠ [] := by
  obtain ⟨⟨t, ht, -⟩, -⟩ := h
  rintro rfl
  cases ht

theorem tight_of_ends {t u : Token} (between : List Token) (ht : Solid t) (hu : Solid u) :
    Tight (t :: between ++ [u]) :=
  ⟨⟨t, rfl, ht⟩, ⟨u, List.getLast?_concat, hu⟩⟩

/-- Whatever stands between, the ends are what they were. -/
theorem Tight.append {us : List Token} (h : Tight ts) (between : List Token) (hus : Tight us) :
    Tight (ts ++ (between ++ us)) := by
  have hNil := h.ne_nil
  have hNil' := hus.ne_nil
  obtain ⟨⟨t, ht, hSolid⟩, -⟩ := h
  obtain ⟨-, ⟨u, hu, hSolid'⟩⟩ := hus
  refine ⟨⟨t, ?_, hSolid⟩, ⟨u, ?_, hSolid'⟩⟩
  · rw [List.head?_append_of_ne_nil _ hNil]
    exact ht
  · rw [← List.append_assoc, List.getLast?_append_of_ne_nil _ hNil']
    exact hu

/-- A row of tight lists with something between any two is tight. -/
theorem Tight.flatMap {first : List Token} {others : List Phrase} (between : List Token)
    (h : Tight first) (hOthers : ∀ p ∈ others, Tight p.tokens) :
    Tight (first ++ others.flatMap fun p => between ++ p.tokens) := by
  induction others generalizing first with
  | nil => simpa using h
  | cons p others ih =>
    have hNext := h.append between (hOthers p (by simp))
    have hRest := ih hNext (fun q hq => hOthers q (List.mem_cons_of_mem _ hq))
    simpa using hRest

theorem closed_tight : Closed (fun _ => True) fun p => Tight p.tokens where
  literal role t more _ hOpen _ := by
    obtain ⟨hSpace, -, hSeparator, -⟩ := Descent.atWordEnd_eq_false.1 hOpen
    have hSolid : Solid t := ⟨hSpace, (Descent.isSeparator_eq_false.1 hSeparator).1⟩
    exact ⟨⟨t, rfl, hSolid⟩, ⟨t, rfl, hSolid⟩⟩
  string t closer more parts rest _ _ _ hQuote hQuoted := by
    have hSolid : Solid t := by
      constructor <;> rintro hKind <;> rw [hKind] at hQuote <;> cases hQuote
    exact tight_of_ends parts hSolid (by rw [Solid, hQuoted.closer_kind]; exact hSolid)
  substitution dollar paren close root _ _ _ hDollar _ hClose _ := by
    have hTight : Tight (dollar :: (paren :: root.tokens) ++ [close]) :=
      tight_of_ends _ (by simp [Solid, hDollar]) (by simp [Solid, hClose])
    simpa using hTight
  word role first others hFirst hOthers := hFirst.flatMap [] hOthers
  assignmentEmpty name equals _ _ hName hEquals :=
    tight_of_ends [] (by simp [Solid, hName]) (by simp [Solid, hEquals])
  assignment name equals value _ _ hName hEquals hValue := by
    have hStart : Tight [name, equals] :=
      tight_of_ends [] (by simp [Solid, hName]) (by simp [Solid, hEquals])
    exact hStart.append [] hValue
  command first others hFirst hOthers := hFirst.flatMap [blank] hOthers
  join item tokens t next _ _ _ hItem hNext := hItem.append [blank, t, blank] hNext
  sequence first others hFirst hOthers := hFirst.flatMap [semicolon, blank] hOthers

/-- The tokens of a phrase have no blank at either end. -/
theorem Reads.tight (h : Reads limit rule depth ts ps rest)
    (hItem : rule.Item fun p => Tight p.tokens) : ∀ p ∈ ps, Tight p.tokens :=
  h.closed closed_tight (fun _ _ _ => trivial) hItem

-- ---------------------------------------------------------------------------
-- Spelling
-- ---------------------------------------------------------------------------

/-- The source of a tree without its tokens, from the sources of its children. -/
theorem source_node (kind : Tree.Kind) (first : Tree) (others : List Tree)
    (quote : Option Text) : (Tree.node kind first others quote).source =
      Tree.written kind quote (first.source :: others.map Tree.source) := by
  rw [Tree.source, Tree.sources_eq_map]

/-- A text between any two, written out. -/
theorem intercalate_cons (between first : Text) (others : List Text) :
    List.intercalate between (first :: others) =
      first ++ others.flatMap fun t => between ++ t := by
  induction others generalizing first with
  | nil => simp [List.intercalate]
  | cons t others ih =>
    rw [List.intercalate_cons_cons, ih]
    simp

theorem source_binary {kind : Tree.Kind} (left right : Tree)
    (hKind : kind = .pipe ∨ kind = .andIf ∨ kind = .orIf) :
    (binary kind left right).source = left.source ++ kind.joiner ++ right.source := by
  have hLeft : (Tree.node .lhs left [] none).source = left.source := by
    simp [source_node, Tree.written]
  have hRight : (Tree.node .rhs right [] none).source = right.source := by
    simp [source_node, Tree.written]
  rw [binary, source_node, hLeft, List.map_singleton, hRight]
  rcases hKind with rfl | rfl | rfl <;> simp [Tree.written]

/-- An operator and a command are written behind what there is. -/
theorem source_join {item : Item} {operator : Token.Kind} (h : Proper item)
    (hOperator : operator.isOperator = true) (command : Tree) :
    (item.join operator command).tree.source =
      item.tree.source ++ (Production.operatorKind operator).joiner ++ command.source := by
  obtain ⟨left, pipeline, operands⟩ := item
  by_cases hPipe : operator = .pipe
  · subst hPipe
    have hPiped := source_binary pipeline command (.inl rfl)
    rw [Item.join, if_pos rfl]
    cases left with
    | none => exact hPiped
    | some l =>
      obtain ⟨kind, left⟩ := l
      have hKind := h kind left rfl
      show (binary kind left (binary .pipe pipeline command)).source =
        (binary kind left pipeline).source ++ _ ++ _
      rw [source_binary _ _ (.inr hKind), source_binary _ _ (.inr hKind), hPiped]
      simp [Production.operatorKind]
  · rw [Item.join, if_neg hPipe]
    apply source_binary
    rcases Descent.eq_of_isOperator hOperator with rfl | rfl | rfl <;>
      simp [Production.operatorKind]

theorem source_wordTree (role : WordRole) (first : Tree) (others : List Tree) :
    (wordTree role first others).source = first.source ++ others.flatMap Tree.source := by
  have hNode : (Tree.node role.kind first others none).source =
      first.source ++ others.flatMap Tree.source := by
    rw [source_node]
    cases role <;> simp [WordRole.kind, Tree.written, List.flatMap_def]
  cases first with
  | leaf kind t quote =>
    cases others with
    | nil => simp [wordTree, Tree.source]
    | cons other others => exact hNode
  | node kind first rest quote => exact hNode

theorem source_stringTree (opener : Token) (parts : List Token) :
    (stringTree opener parts).source = opener.text ++ spelling parts ++ opener.text := by
  cases parts with
  | nil => simp [stringTree, source_node, Tree.written, Tree.source]
  | cons first others =>
    simp [stringTree, source_node, Tree.written, Tree.source, spelling, List.flatMap_def,
      Function.comp_def]

/-- A token of a kind that is always written in the same way. -/
theorem text_eq {t : Token} {kind : Token.Kind} {fixed : Text}
    (hFits : fits t.kind t.text = true) (hKind : t.kind = kind)
    (hSpelling : kind.spelling? = some fixed) : t.text = fixed := by
  rw [hKind] at hFits
  exact (Token.fits_iff_of_spelling? hSpelling).1 hFits

/-- The text between two commands is that of the operator, with a blank on either side. -/
theorem joiner_operatorKind {t : Token} (hFits : fits t.kind t.text = true)
    (hOperator : t.kind.isOperator = true) :
    (Production.operatorKind t.kind).joiner = ' ' :: t.text ++ [' '] := by
  rcases Descent.eq_of_isOperator hOperator with hKind | hKind | hKind <;>
    rw [text_eq hFits hKind rfl, hKind] <;> rfl

theorem spelling_flatMap {others : List Phrase} (between : List Token)
    (h : ∀ p ∈ others, spelling p.tokens = p.tree.source) :
    spelling (others.flatMap fun p => between ++ p.tokens) =
      others.flatMap fun p => spelling between ++ p.tree.source := by
  induction others with
  | nil => rfl
  | cons p others ih =>
    rw [List.flatMap_cons, List.flatMap_cons, Token.spelling_append, Token.spelling_append,
      h p (by simp), ih fun q hq => h q (List.mem_cons_of_mem _ hq)]

theorem closed_spelled : Closed (fun t => fits t.kind t.text = true)
    fun p => spelling p.tokens = p.tree.source where
  literal role t more _ _ _ := by simp [Tree.source]
  string t closer more parts rest ht hCloser _ hQuote hQuoted := by
    obtain ⟨fixed, hFixed⟩ : ∃ fixed, t.kind.spelling? = some fixed := by
      cases hOpener : t.kind <;> simp_all [Token.Kind.isQuote, Token.Kind.spelling?]
    have hText : closer.text = t.text :=
      (text_eq hCloser hQuoted.closer_kind hFixed).trans (text_eq ht rfl hFixed).symm
    simp [Tree.source_bare, source_stringTree, hText]
  substitution dollar paren close root hDollar hParen hClose hDollarKind hParenKind hCloseKind
      hRoot := by
    rw [source_node]
    simp [Tree.written, text_eq hDollar hDollarKind rfl, text_eq hParen hParenKind rfl,
      text_eq hClose hCloseKind rfl, hRoot]
  word role first others hFirst hOthers := by
    have hRest := spelling_flatMap [] hOthers
    simp only [Token.spelling_nil, List.nil_append] at hRest
    rw [source_wordTree, Token.spelling_append, hFirst, hRest, List.flatMap_map]
  assignmentEmpty name equals _ hEquals _ hKind := by
    rw [source_node]
    simp [Tree.written, Tree.source, text_eq hEquals hKind rfl]
  assignment name equals value _ hEquals _ hKind hValue := by
    rw [source_node]
    simp [Tree.written, Tree.source, text_eq hEquals hKind rfl, hValue]
  command first others hFirst hOthers := by
    have hRest := spelling_flatMap [blank] hOthers
    rw [source_node, Tree.written, intercalate_cons, Token.spelling_append, hFirst]
    simpa [List.flatMap_map, blank] using hRest
  join item tokens t next ht hOperator hProper hItem hNext := by
    rw [source_join hProper hOperator, joiner_operatorKind ht hOperator]
    simp_all [blank]
  sequence first others hFirst hOthers := by
    have hRest := spelling_flatMap [semicolon, blank] hOthers
    rw [source_node, Tree.written, intercalate_cons, Token.spelling_append, hFirst]
    simpa [List.flatMap_map, blank, semicolon] using hRest

/-- The tokens of a phrase spell the source of its tree. -/
theorem Reads.spelled (h : Reads limit rule depth ts ps rest)
    (hTokens : ∀ t ∈ ts, t.kind ≠ .endOfInput → fits t.kind t.text = true)
    (hItem : rule.Item fun p => spelling p.tokens = p.tree.source) :
    ∀ p ∈ ps, spelling p.tokens = p.tree.source :=
  h.closed closed_spelled hTokens hItem

-- ---------------------------------------------------------------------------
-- Joints
-- ---------------------------------------------------------------------------

/-- The tokens of phrases, one behind the other. -/
def written (ps : List Phrase) : List Token := ps.flatMap (·.tokens)

@[simp] theorem written_nil : written [] = [] := rfl

@[simp] theorem written_cons (p : Phrase) (ps : List Phrase) :
    written (p :: ps) = p.tokens ++ written ps := rfl

/-- What is written begins as what was read. -/
def StartsAlike : Rule → List Token → List Phrase → List Token → Prop
  | .piece _, ts, ps, _ | .word _, ts, ps, _ | .part, ts, ps, _ | .command, ts, ps, _ =>
    written ps ≠ [] ∧ (written ps).head? = ts.head?
  | .pieces _, ts, ps, rest =>
    (ps ≠ [] → written ps ≠ []) ∧ (written ps ++ rest).head? = ts.head?
  | _, _, _, _ => True

theorem Reads.startsAlike (h : Reads limit rule depth ts ps rest) :
    StartsAlike rule ts ps rest := by
  induction h with
  | literal => simp [StartsAlike]
  | string => simp [StartsAlike]
  | substitution => simp [StartsAlike]
  | piecesNil => simp [StartsAlike]
  | piecesCons _ _ ihFirst _ =>
    simp only [StartsAlike, written_cons, written_nil, List.append_nil] at ihFirst ⊢
    rw [List.append_assoc, List.head?_append_of_ne_nil _ ihFirst.1]
    exact ⟨fun _ => by simp [ihFirst.1], ihFirst.2⟩
  | word _ _ _ ihFirst _ =>
    simp only [StartsAlike, written_cons, written_nil, List.append_nil] at ihFirst ⊢
    rw [List.head?_append_of_ne_nil _ ihFirst.1]
    exact ⟨by simp [ihFirst.1], ihFirst.2⟩
  | assignmentEmpty => simp [StartsAlike]
  | assignment => simp [StartsAlike]
  | argument _ _ ih => exact ih
  | skip hGap _ _ =>
    rcases hGap.rule_eq with rfl | rfl | ⟨_, rfl⟩ <;> trivial
  | command _ _ _ ihFirst _ =>
    simp only [StartsAlike, written_cons, written_nil, List.append_nil] at ihFirst ⊢
    rw [List.head?_append_of_ne_nil _ ihFirst.1]
    exact ⟨by simp [ihFirst.1], ihFirst.2⟩
  | _ => trivial

/-- No two neighbours run together. -/
abbrev Apart (ts : List Token) : Prop := ts.IsChain fun a b => mayFollow a.kind b.kind = true

/-- A token that runs together with nothing. -/
def Free (t : Token) : Prop :=
  ∀ k, mayFollow t.kind k = true ∧ mayFollow k t.kind = true

theorem free_of_punctuation? {t : Token} {c : Char}
    (h : Scanner.punctuation? c = some t.kind) : Free t := by
  obtain ⟨-, hWord, hPipe, hAmpersand, -⟩ := Token.of_punctuation? h
  exact fun k => ⟨Token.mayFollow_of_not hWord hPipe hAmpersand, Token.mayFollow_punctuation h⟩

theorem free_blank : Free blank := free_of_punctuation? (c := ' ') rfl

theorem free_semicolon : Free semicolon := free_of_punctuation? (c := ';') rfl

/-- Two lists on either side of a token that runs together with nothing. -/
theorem Apart.free {us : List Token} {t : Token} (h : Apart ts) (ht : Free t)
    (hus : Apart us) : Apart (ts ++ t :: us) :=
  List.IsChain.append h (List.IsChain.cons hus fun u _ => (ht u.kind).1) (by
    intro a _ b hb
    obtain rfl : t = b := by simpa using hb
    exact (ht a.kind).2)

theorem Apart.frees {us between : List Token} (h : Apart ts) (hNil : between ≠ [])
    (hBetween : ∀ t ∈ between, Free t) (hus : Apart us) : Apart (ts ++ (between ++ us)) := by
  induction between generalizing ts with
  | nil => exact absurd rfl hNil
  | cons t between ih =>
    rw [List.cons_append]
    apply h.free (hBetween t (by simp))
    cases between with
    | nil => exact hus
    | cons u between =>
      exact ih .nil (by simp) fun v hv => hBetween v (List.mem_cons_of_mem _ hv)

/-- A row of lists, with tokens between any two that run together with nothing. -/
theorem Apart.flatMap {first between : List Token} {others : List Phrase}
    (h : Apart first) (hNil : between ≠ []) (hBetween : ∀ t ∈ between, Free t)
    (hOthers : ∀ p ∈ others, Apart p.tokens) :
    Apart (first ++ others.flatMap fun p => between ++ p.tokens) := by
  induction others generalizing first with
  | nil => simpa using h
  | cons p others ih =>
    have hNext := h.frees hNil hBetween (hOthers p (by simp))
    have hRest := ih hNext fun q hq => hOthers q (List.mem_cons_of_mem _ hq)
    simpa using hRest

/-- What follows may be replaced by what begins in the same way. -/
theorem Apart.swap {us vs : List Token} (h : Apart (ts ++ us)) (hvs : Apart vs)
    (hHead : vs.head? = us.head?) : Apart (ts ++ vs) := by
  obtain ⟨hLeft, -, hJoint⟩ := List.isChain_append.1 h
  exact List.isChain_append.2 ⟨hLeft, hvs, by rw [hHead]; exact hJoint⟩

/-- The tokens of phrases do not run together, nor with what follows where nothing was
skipped. -/
def Joined : Rule → List Phrase → List Token → Prop
  | .piece _, ps, rest | .pieces _, ps, rest | .word _, ps, rest | .part, ps, rest =>
    Apart (written ps ++ rest)
  | .chain _ tokens, ps, _ => Apart tokens → ∀ p ∈ ps, Apart p.tokens
  | _, ps, _ => ∀ p ∈ ps, Apart p.tokens

theorem Reads.joined (h : Reads limit rule depth ts ps rest) (hTokens : Apart ts) :
    Joined rule ps rest := by
  induction h with
  | literal => simpa [Joined] using hTokens
  | string _ _ hQuoted =>
    rw [hQuoted.eq_append] at hTokens
    simpa [Joined] using hTokens
  | @substitution _ _ dollar paren close inside rest root hDollar hParen _ hInside hClose ih =>
    have hSuffix : Apart inside := hTokens.tail.tail
    have hRest : Apart (close :: rest) := hSuffix.suffix hInside.suffix
    have hRoot : Apart root.tokens := ih hSuffix root (by simp)
    have hFree : Free paren := free_of_punctuation? (c := '(') (by rw [hParen]; rfl)
    have hFree' : Free close := free_of_punctuation? (c := ')') (by rw [hClose]; rfl)
    have hWhole : Apart ([dollar] ++ paren :: (root.tokens ++ close :: rest)) :=
      Apart.free (.singleton dollar) hFree (Apart.free hRoot hFree' hRest.tail)
    simpa [Joined] using hWhole
  | piecesNil => simpa [Joined] using hTokens
  | piecesCons hFirst hOthers ihFirst ihOthers =>
    have hPiece := ihFirst hTokens
    have hPieces := ihOthers (hTokens.suffix hFirst.suffix)
    simp only [Joined, written_cons, written_nil, List.append_nil, List.append_assoc]
      at hPiece hPieces ⊢
    exact Apart.swap hPiece hPieces hOthers.startsAlike.2
  | word _ hFirst hOthers ihFirst ihOthers =>
    have hPiece := ihFirst hTokens
    have hPieces := ihOthers (hTokens.suffix hFirst.suffix)
    simp only [Joined, written_cons, written_nil, List.append_nil, List.append_assoc]
      at hPiece hPieces ⊢
    exact Apart.swap hPiece hPieces hOthers.startsAlike.2
  | assignmentEmpty => simpa [Joined] using hTokens
  | @assignment _ name equals ts rest value _ _ hValue ih =>
    have hWord : Apart (value.tokens ++ rest) := by
      simpa [Joined] using ih hTokens.tail.tail
    obtain ⟨hNil, hHead⟩ := hValue.startsAlike
    simp only [written_cons, written_nil, List.append_nil] at hNil hHead
    have hWhole : Apart ([name, equals] ++ (value.tokens ++ rest)) :=
      Apart.swap hTokens hWord (by rw [List.head?_append_of_ne_nil _ hNil, hHead])
    simpa [Joined] using hWhole
  | argument _ _ ih => exact ih hTokens
  | skip _ _ ih => exact ih (hTokens.suffix (List.suffix_append _ _))
  | partsNil => simp [Joined]
  | partsCons hFirst _ ihFirst ihOthers =>
    have hPart : Apart (_ ++ _) := ihFirst hTokens
    have hParts := ihOthers (hTokens.suffix hFirst.suffix)
    simpa [Joined] using ⟨by simpa using hPart.left_of_append, hParts⟩
  | @command _ _ _ _ first others _ hFirst _ ihFirst ihOthers =>
    have hPart : Apart (_ ++ _) := ihFirst hTokens
    have hParts := ihOthers (hTokens.suffix hFirst.suffix)
    have hWhole : Apart (first.tokens ++ others.flatMap fun p => [blank] ++ p.tokens) :=
      Apart.flatMap (by simpa using hPart.left_of_append) (by simp)
        (by simpa using free_blank) hParts
    simpa [Joined] using hWhole
  | operand _ ih => exact ih hTokens
  | chainStop =>
    intro hItem p hp
    rw [List.mem_singleton.1 hp]
    exact hItem
  | @chainLink _ tokens _ t _ _ _ next _ _ _ hNext _ ihNext ihRest =>
    intro hItem
    have hOperand : Apart next.tokens := ihNext hTokens.tail next (by simp)
    have hLink : Apart (tokens ++ blank :: ([t] ++ blank :: next.tokens)) :=
      Apart.free hItem free_blank (Apart.free (.singleton t) free_blank hOperand)
    exact ihRest (hTokens.tail.suffix hNext.suffix) hLink
  | finish => simp [Joined]
  | close => simp [Joined]
  | @item _ _ _ _ _ _ first whole _ hFirst hChain _ ihFirst ihChain ihOthers =>
    have hCommand := ihFirst hTokens first (by simp)
    have hBehind := hTokens.suffix hFirst.suffix
    have hWhole := ihChain hBehind hCommand whole (by simp)
    have hItems := ihOthers (hBehind.suffix hChain.suffix)
    simpa [Joined] using ⟨hWhole, hItems⟩
  | @sequence _ _ _ _ first others _ _ ih =>
    have hItems := ih hTokens
    have hWhole : Apart (first.tokens ++ others.flatMap fun p =>
        [semicolon, blank] ++ p.tokens) :=
      Apart.flatMap (hItems first (by simp)) (by simp)
        (by simpa using ⟨free_semicolon, free_blank⟩)
        (fun p hp => hItems p (List.mem_cons_of_mem _ hp))
    simpa [Joined] using hWhole

end ShellReader.Grammar
