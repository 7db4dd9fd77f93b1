import Mathlib.Data.List.Induction
import ShellReader.Proofs.CommandPhase

/-!
# ShellReader — the machine refines recursive descent
-/

namespace ShellReader

namespace Production

/-- A command that follows in an item, with the operator in front of it. -/
structure Link where
  operator : Token
  id       : Nat
  tree     : Tree

/-- The parts of an item: a command, and the links behind it. -/
def Link.parts (first : Nat) (links : List Link) : List Part :=
  .child first :: links.flatMap fun l => [.token l.operator, .child l.id]

/-- The item that a command and the links behind it make up. -/
def Link.item (first : Tree) (links : List Link) : Descent.Item :=
  links.foldl (fun item l => item.join l.operator.kind l.tree) (.single first)

theorem Link.parts_concat (first : Nat) (links : List Link) (l : Link) :
    Link.parts first (links ++ [l]) =
      Link.parts first links ++ [.token l.operator, .child l.id] := by
  simp [Link.parts]

theorem Link.item_concat (first : Tree) (links : List Link) (l : Link) :
    Link.item first (links ++ [l]) = (Link.item first links).join l.operator.kind l.tree := by
  simp [Link.item]

theorem Link.everyOther_parts (first : Nat) (links : List Link) :
    everyOther (Link.parts first links) = .child first :: links.map fun l => .child l.id := by
  induction links generalizing first with
  | nil => rfl
  | cons l links ih =>
    have hTail := ih l.id
    simp only [Link.parts, List.flatMap_cons, List.cons_append, List.nil_append,
      List.map_cons, everyOther] at hTail ⊢
    rw [hTail]

theorem Link.everyOther_tail (first : Nat) (links : List Link) :
    everyOther (Link.parts first links).tail = links.map fun l => .token l.operator := by
  induction links generalizing first with
  | nil => rfl
  | cons l links ih =>
    have hTail := ih l.id
    simp only [Link.parts, List.flatMap_cons, List.cons_append, List.nil_append,
      List.map_cons, List.tail_cons, everyOther] at hTail ⊢
    rw [hTail]

theorem operands_parts (first : Nat) (root : Tree) (links : List Link) :
    operands (Link.parts first links) = (Link.item root links).operands := by
  induction links using List.reverseRecOn with
  | nil => simp [operands, Link.parts, Link.item, Descent.Item.single]
  | append_singleton links l ih =>
    have hOperands : ∀ (item : Descent.Item) (kind : Token.Kind) (tree : Tree),
        (item.join kind tree).operands = item.operands + 1 := by
      intro item kind tree
      rw [Descent.Item.join]
      split <;> rfl
    rw [Link.parts_concat, Link.item_concat, hOperands, ← ih]
    simp only [operands, List.length_append, List.length_cons, List.length_nil]
    omega

/-- An item that ends with a command does not wait for one. -/
theorem awaiting?_parts (first : Nat) (links : List Link) :
    awaiting? (Link.parts first links) = none := by
  induction links using List.reverseRecOn with
  | nil => rfl
  | append_singleton links l _ =>
    rw [Link.parts_concat]
    simp [awaiting?]

/-- An item that ends with an operator waits for a command. -/
theorem awaiting?_concat (parts : List Part) (t : Token) :
    awaiting? (parts ++ [.token t]) = some t := by
  simp [awaiting?]

-- ---------------------------------------------------------------------------
-- Joining commands
-- ---------------------------------------------------------------------------

/-- Joining in two rounds, pipelines first, gives the same tree as joining one command
after the other. -/
theorem pipelines_links (label : Nat → Label) (links : List Link) (item : Descent.Item) :
    ∃ start later,
      pipelines label item.pipeline (links.map fun l => (.token l.operator, l.tree)) =
        .ok (start, later) ∧
      later.foldl (fun left (x : Tree.Kind × Tree) => binary x.1 left x.2)
          { item with pipeline := start }.tree =
        (links.foldl (fun item l => item.join l.operator.kind l.tree) item).tree := by
  induction links generalizing item with
  | nil => exact ⟨item.pipeline, [], rfl, rfl⟩
  | cons l links ih =>
    obtain ⟨start, later, hRun, hTree⟩ := ih (item.join l.operator.kind l.tree)
    rw [List.map_cons, List.foldl_cons, pipelines]
    by_cases hPipe : l.operator.kind = .pipe
    · -- A pipe makes the latest pipeline longer and leaves the rest alone.
      rw [Descent.Item.join, if_pos hPipe] at hRun hTree
      rw [if_pos hPipe, Descent.Item.join, if_pos hPipe]
      exact ⟨start, later, hRun, hTree⟩
    · rw [Descent.Item.join, if_neg hPipe] at hRun hTree
      rw [if_neg hPipe, Descent.Item.join, if_neg hPipe, hRun]
      exact ⟨item.pipeline, (operatorKind l.operator.kind, start) :: later, rfl, hTree⟩

theorem joinCommands_links (label : Nat → Label) (first : Tree) (links : List Link) :
    joinCommands label first (links.map fun l => (.token l.operator, l.tree)) =
      .ok (Link.item first links).tree := by
  obtain ⟨start, later, hRun, hTree⟩ := pipelines_links label links (.single first)
  rw [joinCommands]
  show (pipelines label first _ >>= _) = _
  rw [show pipelines label first _ = _ from hRun]
  exact congrArg Except.ok hTree

end Production

namespace Machine

open Descent (Context Reading Item)
open Production (Link atWordEnd awaiting? closeSequence finished operands respondSequence)

variable {m m' : Machine} {c : Context} {ts more : List Token} {t : Token} {id : Nat}
  {below : List Nat} {nested : Bool} {items : List (List Part)} {current : List Part}

-- ---------------------------------------------------------------------------
-- Items
-- ---------------------------------------------------------------------------

/-- The parts of an item are finished commands, joined to `item`. -/
def Chained (m : Machine) (id : Nat) (current : List Part) (item : Item) : Prop :=
  ∃ j first links, current = Link.parts j links ∧ item = Link.item first links ∧
    ChildHolds m id j first ∧ ∀ l ∈ links, ChildHolds m id l.id l.tree

theorem Chained.reach {item : Item} (h : Chained m id current item)
    (hReaches : Reaches id m m') : Chained m' id current item := by
  obtain ⟨j, first, links, hParts, hItem, hFirst, hLinks⟩ := h
  exact ⟨j, first, links, hParts, hItem, hFirst.reach hReaches,
    fun l hl => (hLinks l hl).reach hReaches⟩

theorem chained_single {j : Nat} {tree : Tree} (h : ChildHolds m id j tree) :
    Chained m id [.child j] (.single tree) :=
  ⟨j, tree, [], rfl, rfl, h, by simp⟩

theorem Chained.join {item : Item} {operator : Token} {j : Nat} {tree : Tree}
    (h : Chained m id current item) (hChild : ChildHolds m id j tree) :
    Chained m id (current ++ [.token operator, .child j]) (item.join operator.kind tree) := by
  obtain ⟨k, first, links, rfl, rfl, hFirst, hLinks⟩ := h
  let last : Link := ⟨operator, j, tree⟩
  refine ⟨k, first, links ++ [last], (Link.parts_concat k links last).symm,
    (Link.item_concat first links last).symm, hFirst, ?_⟩
  intro l hl
  rcases List.mem_append.1 hl with hl | hl
  · exact hLinks l hl
  · rw [List.mem_singleton.1 hl]
    exact hChild

theorem Chained.ne_nil {item : Item} (h : Chained m id current item) : current ≠ [] := by
  obtain ⟨j, first, links, rfl, -⟩ := h
  simp [Link.parts]

theorem Chained.awaiting {item : Item} (h : Chained m id current item) :
    awaiting? current = none := by
  obtain ⟨j, first, links, rfl, -⟩ := h
  exact Production.awaiting?_parts j links

theorem Chained.operands {item : Item} (h : Chained m id current item) :
    operands current = item.operands := by
  obtain ⟨j, first, links, rfl, rfl, -⟩ := h
  exact Production.operands_parts j first links

/-- The tree of one command of an item, given the trees of the productions it refers to. -/
def commandTree (trees : Nat → Except Failure Tree) : Part → Except Failure Tree
  | .child j => trees j
  | .token _ => throw .operatorForCommand

/-- The commands of an item, once they have trees, are joined one after the other. -/
theorem buildItem_links (label : Nat → Production.Label) {trees : Nat → Except Failure Tree}
    {j : Nat} {first : Tree} {links : List Link} (hFirst : trees j = .ok first)
    (hLinks : ∀ l ∈ links, trees l.id = .ok l.tree) :
    Production.buildItem label trees (Link.parts j links) = .ok (Link.item first links).tree := by
  have hMap : (Part.child j :: links.map fun l => Part.child l.id).mapM (commandTree trees) =
      .ok (first :: links.map (·.tree)) := by
    apply mapM_eq_ok
    refine .cons hFirst ?_
    rw [List.forall₂_map_left_iff, List.forall₂_map_right_iff, List.forall₂_same]
    exact hLinks
  rw [Production.buildItem, Link.everyOther_parts]
  show ((Part.child j :: links.map fun l => Part.child l.id).mapM (commandTree trees) >>= _) = _
  rw [hMap]
  show Production.joinCommands label first _ = _
  rw [Link.everyOther_tail, List.zip_map', Production.joinCommands_links]

/-- The tree of an item is built out of its commands. -/
theorem Chained.build {item : Item} (h : Chained m id current item)
    (label : Nat → Production.Label) {trees : Nat → Except Failure Tree}
    (hTrees : ∀ j t, id < j → Holds m j t → trees j = .ok t) :
    Production.buildItem label trees current = .ok item.tree := by
  obtain ⟨j, first, links, rfl, rfl, hFirst, hLinks⟩ := h
  apply buildItem_links label (hTrees j first hFirst.1 hFirst.2)
  intro l hl
  exact hTrees l.id l.tree (hLinks l hl).1 (hLinks l hl).2

/-- The parts of an item stand for `tree`. -/
def ItemHolds (m : Machine) (id : Nat) (parts : List Part) (tree : Tree) : Prop :=
  ∃ item, Chained m id parts item ∧ item.tree = tree

theorem ItemHolds.reach {parts : List Part} {tree : Tree} (h : ItemHolds m id parts tree)
    (hReaches : Reaches id m m') : ItemHolds m' id parts tree := by
  obtain ⟨item, hItem, hTree⟩ := h
  exact ⟨item, hItem.reach hReaches, hTree⟩

/-- The trees that the finished items of a sequence stand for, one by one. -/
abbrev ItemsHold (m : Machine) (id : Nat) := List.Forall₂ (ItemHolds m id)

theorem ItemsHold.reach {trees : List Tree} (h : ItemsHold m id items trees)
    (hReaches : Reaches id m m') : ItemsHold m' id items trees :=
  h.imp fun _ _ hItem => hItem.reach hReaches

/-- A sequence stands for the trees of its items put together. -/
theorem holds_sequence {first : Tree} {others : List Tree}
    (hMade : id < m.productions.length) (hp : m.production id = .sequence nested items current)
    (h : ItemsHold m id items (first :: others)) :
    Holds m id (.node .root first others none) := by
  apply Holds.intro hMade
  intro label trees hTrees
  have hMap : items.mapM (Production.buildItem label trees) = .ok (first :: others) := by
    apply mapM_eq_ok
    apply h.imp
    rintro parts tree ⟨item, hItem, rfl⟩
    exact hItem.build label hTrees
  rw [hp, Production.build, hMap]
  rfl

-- ---------------------------------------------------------------------------
-- Sequences
-- ---------------------------------------------------------------------------

/-- The tokens begin with one that ends a command. -/
def StartsWithEnd (ts : List Token) : Prop :=
  ∃ t more, ts = t :: more ∧ t.kind.endsCommand = true

/-- A sequence has one more command, behind the parts `before`, and stands before a token
that ends one. -/
def GainsCommand (id : Nat) (nested : Bool) (items : List (List Part)) (before : List Part)
    (tree : Tree) (m : Machine) : Prop :=
  (∃ j, m.production id = .sequence nested items (before ++ [.child j]) ∧
    ChildHolds m id j tree) ∧ StartsWithEnd m.cursor.rest

/-- A sequence opens a command at a token that no rule of its own is for. -/
theorem opens_item_completes {n : Nat} (hNested : NestedComplete c n)
    (h : At m c (t :: more) id (.sequence nested items current) below)
    (hLength : more.length < n) (hWord : atWordEnd t more = false) :
    Completes m id (id :: below) (Descent.command c (below.length + 1) t more)
      (GainsCommand id nested items current) := by
  apply Completes.and_rest (opens_command_completes hNested h
    (Production.respondSequence_word hWord) hLength (Bool.not_eq_true _ ▸ hWord))
  intro x hx
  exact Descent.command_rest hx

/-- A sequence reads on behind `k` tokens that add nothing to what it returns. -/
theorem skips {α : Type} {k : Nat} {next : List (List Part)} {after : List Part}
    {r : Except Fault (Reading α (ts.drop k).length)} {stack : List Nat}
    {Q : α → Machine → Prop}
    (h : At m c ts id (.sequence nested items current) below)
    (hr : (Production.sequence nested items current).respond c.limit ts =
      .read k (.sequence nested next after))
    (hRest : ∀ m', Reaches id m m' →
      At m' c (ts.drop k) id (.sequence nested next after) below →
      Completes m' id stack r Q) (hShort : (ts.drop k).length ≤ ts.length) :
    Completes m id stack (r >>= fun x => pure (x.within hShort)) Q := by
  obtain ⟨m', hReaches, hNext⟩ := h.stays hr
  apply Completes.after hReaches
  exact Completes.map (hRest m' hReaches hNext) (fun _ => rfl) (fun _ _ _ hQ => hQ)

/-- Behind an operator a sequence reads on to a command. -/
theorem operand_completes {n : Nat} (hNested : NestedComplete c n) {operator : Token}
    (h : At m c ts id (.sequence nested items current) below) (hLength : ts.length ≤ n)
    (hAwaiting : awaiting? current = some operator) :
    Completes m id (id :: below) (Descent.operand c nested (below.length + 1) operator ts)
      (GainsCommand id nested items current) := by
  obtain ⟨size, hSize⟩ : ∃ size, ts.length = size := ⟨_, rfl⟩
  induction size using Nat.strongRecOn generalizing m ts with
  | ind size ih =>
    cases ts with
    | nil =>
      rw [Descent.operand]
      exact completes_error (h.starves rfl)
    | cons t more =>
      rw [List.length_cons] at hLength hSize
      cases Descent.front t more with
      | space hSpace =>
        rw [Descent.operand_space hSpace]
        refine skips h (Production.respondSequence_space hSpace) ?_ (by simp)
        intro m' _ hNext
        exact ih more.length (by omega) hNext (by omega) rfl
      | continuation _ hContinuation =>
        rw [Descent.operand_continuation hContinuation]
        refine skips h (Production.respondSequence_continuation hContinuation) ?_
          (by simp; omega)
        intro m' _ hNext
        exact ih (more.drop 1).length (by simp; omega) hNext (by simp; omega) rfl
      | separator hSeparator =>
        by_cases hNewline : t.kind = .newline
        · rw [Descent.operand_newline hNewline]
          refine skips h (Production.respondSequence_newline hNewline hAwaiting) ?_ (by simp)
          intro m' _ hNext
          exact ih more.length (by omega) hNext (by omega) rfl
        · have hSemicolon := Descent.eq_semicolon hSeparator hNewline
          rw [Descent.operand_semicolon hSemicolon]
          exact completes_error
            (h.fails (Production.respondSequence_semicolon hSemicolon hAwaiting))
      | operator hOperator =>
        have hr : respondSequence c.limit t more nested items current =
            .faultAt t (.unexpected t.text) := by
          rw [Production.respondSequence_operator hOperator, if_pos (by simp [hAwaiting])]
        rw [Descent.operand_operator hOperator]
        exact completes_error (h.fails hr)
      | finish hKind =>
        have hr : respondSequence c.limit t more nested items current =
            if nested then .faultAt t .openSubstitution
            else .faultAt t (.noCommandAfter operator.text) := by
          rw [Production.respondSequence_finish hKind, closeSequence, hAwaiting]
        rw [Descent.operand_finish hKind]
        cases nested with
        | true => exact completes_error (h.fails hr)
        | false => exact completes_error (h.fails hr)
      | close hKind =>
        have hr : respondSequence c.limit t more nested items current =
            if nested then .faultAt t (.noCommandAfter operator.text)
            else .faultAt t (.unexpected [')']) := by
          rw [Production.respondSequence_close hKind, closeSequence, hAwaiting]
        rw [Descent.operand_close hKind]
        cases nested with
        | true => exact completes_error (h.fails hr)
        | false => exact completes_error (h.fails hr)
      | word hWord =>
        rw [Descent.operand_word hWord]
        apply Completes.map (opens_item_completes hNested h (by omega) hWord)
        · intro x
          rfl
        · intro x last _ hGains
          exact hGains

/-- A sequence has the item `tree` in the making, whole, and stands before a token that
ends one. -/
def GainsItem (id : Nat) (nested : Bool) (items : List (List Part)) (tree : Tree)
    (m : Machine) : Prop :=
  ∃ parts t more, m.production id = .sequence nested items parts ∧ ItemHolds m id parts tree ∧
    m.cursor.rest = t :: more ∧ t.kind.endsCommand = true ∧ t.kind.isOperator = false

/-- Behind a command a sequence reads operators and commands to the end of the item. -/
theorem chain_completes {n : Nat} (hNested : NestedComplete c n) {item : Item}
    (h : At m c ts id (.sequence nested items current) below) (hLength : ts.length ≤ n)
    (hChained : Chained m id current item) (hStart : StartsWithEnd ts) :
    Completes m id (id :: below) (Descent.chain c nested (below.length + 1) item ts)
      (GainsItem id nested items) := by
  obtain ⟨size, hSize⟩ : ∃ size, ts.length = size := ⟨_, rfl⟩
  induction size using Nat.strongRecOn generalizing m ts current item with
  | ind size ih =>
    obtain ⟨t, more, rfl, hEnds⟩ := hStart
    rw [List.length_cons] at hLength hSize
    rw [Descent.chain]
    by_cases hOperator : t.kind.isOperator = true
    · have hRespond : respondSequence c.limit t more nested items current =
          if c.limit ≤ item.operands then .faultAt t (.tooManyCommands c.limit)
          else .read 1 (.sequence nested items (current ++ [.token t])) := by
        rw [Production.respondSequence_operator hOperator,
          if_neg (by simp [hChained.ne_nil, hChained.awaiting]), hChained.operands]
      rw [if_pos hOperator]
      by_cases hMany : c.limit ≤ item.operands
      · rw [if_pos hMany] at hRespond ⊢
        exact completes_error (h.fails hRespond)
      · rw [if_neg hMany] at hRespond ⊢
        obtain ⟨next, hReaches, (hNext : At next c more id _ below)⟩ := h.stays hRespond
        apply Completes.after hReaches
        apply Completes.bind (operand_completes hNested hNext (by omega)
          (Production.awaiting?_concat current t))
        rintro x last - hLast hRest hStack ⟨⟨j, hp, hChild⟩, hEnd⟩
        have hShort := x.short
        rw [List.append_assoc, List.singleton_append] at hp
        rw [hRest] at hEnd
        apply Completes.map (ih x.rest.length (by omega) (hNext.reach hLast hRest hStack hp)
          (by omega) (((hChained.reach hReaches).reach hLast).join hChild) hEnd rfl)
        · intro y
          rfl
        · intro y final _ hGains
          exact hGains
    · rw [if_neg hOperator]
      exact completes_ok ⟨m, .refl id m, h.rest, h.stack, current, t, more, h.production,
        ⟨item, hChained, rfl⟩, h.rest, hEnds, by simpa using hOperator⟩

/-- A sequence stands between two items, of which `done` are finished: nothing is in the
making, or what is in the making ends with the next token. -/
structure Between (m : Machine) (id : Nat) (items : List (List Part)) (current : List Part)
    (done : List Tree) (ts : List Token) : Prop where
  awaiting : awaiting? current = none
  settled  : current = [] ∨
    ∃ t more, ts = t :: more ∧ t.kind.endsCommand = true ∧ t.kind.isOperator = false
  hold     : ItemsHold m id (finished items current) done

/-- With nothing in the making a sequence is between two items. -/
theorem between_nil {done : List Tree} (h : ItemsHold m id items done) :
    Between m id items [] done ts :=
  ⟨rfl, .inl rfl, h⟩

/-- Behind an item a sequence is between two items. -/
theorem GainsItem.between {done : List Tree} {tree : Tree} (h : GainsItem id nested items tree m)
    (hDone : ItemsHold m id items done) :
    ∃ parts, m.production id = .sequence nested items parts ∧
      Between m id items parts (done ++ [tree]) m.cursor.rest := by
  obtain ⟨parts, t, more, hp, ⟨item, hChained, hTree⟩, hRest, hEnds, hOperator⟩ := h
  refine ⟨parts, hp, hChained.awaiting, .inr ⟨t, more, hRest, hEnds, hOperator⟩, ?_⟩
  rw [finished, if_neg (by simpa using hChained.ne_nil)]
  exact List.rel_append hDone (.cons ⟨item, hChained, hTree⟩ .nil)

/-- Where a sequence closes, it stands for the items that are done. -/
theorem closeSequence_completes {n k : Nat} {done : List Tree} {hk : (ts.drop k).length ≤ n}
    (h : At m c ts id (.sequence nested items current) below)
    (hr : (Production.sequence nested items current).respond c.limit ts =
      closeSequence t k nested items current) (hBetween : Between m id items current done ts) :
    Completes m id below
      (match done with
        | [] => .error (.atToken t .noCommand)
        | first :: others => .ok (⟨.node .root first others none, ts.drop k, hk⟩ : Reading Tree n))
      fun tree m' => Holds m' id tree := by
  rw [closeSequence, hBetween.awaiting] at hr
  have hHold := hBetween.hold
  cases done with
  | nil =>
    rw [List.forall₂_nil_right_iff.1 hHold] at hr
    exact completes_error (h.fails hr)
  | cons first others =>
    have hSome : ¬ (finished items current).isEmpty = true := by
      intro hEmpty
      rw [List.isEmpty_iff.1 hEmpty] at hHold
      cases hHold
    rw [if_neg hSome] at hr
    obtain ⟨last, hReaches, hRest, hStack, hp⟩ := h.leaves hr
    exact completes_ok ⟨last, hReaches, hRest, hStack,
      holds_sequence (Nat.lt_of_lt_of_le h.made hReaches.length) hp (hHold.reach hReaches)⟩

/-- A sequence reads its items to its end. -/
theorem items_completes {n : Nat} (hNested : NestedComplete c n) {done : List Tree}
    (h : At m c ts id (.sequence nested items current) below) (hLength : ts.length ≤ n)
    (hBetween : Between m id items current done ts) :
    Completes m id below (Descent.items c nested (below.length + 1) done ts)
      fun tree m' => Holds m' id tree := by
  obtain ⟨size, hSize⟩ : ∃ size, ts.length = size := ⟨_, rfl⟩
  induction size using Nat.strongRecOn generalizing m ts items current done with
  | ind size ih =>
    cases ts with
    | nil =>
      rw [Descent.items]
      exact completes_error (h.starves rfl)
    | cons t more =>
      rw [List.length_cons] at hLength hSize
      -- Nothing is in the making where a token does not end an item.
      have hSettled : ¬ t.kind.endsCommand = true ∨ t.kind.isOperator = true → current = [] := by
        intro hOther
        rcases hBetween.settled with hNil | ⟨u, rest, hEq, hEnds, hOperator⟩
        · exact hNil
        · obtain ⟨rfl, rfl⟩ := List.cons.inj hEq
          simp [hEnds, hOperator] at hOther
      cases Descent.front t more with
      | space hSpace =>
        obtain rfl := hSettled (.inl (by simp [hSpace]; decide))
        rw [Descent.items_space hSpace]
        refine skips h (Production.respondSequence_space hSpace) ?_ (by simp)
        intro m' hReaches hNext
        exact ih more.length (by omega) hNext (by omega)
          (between_nil (hBetween.hold.reach hReaches)) rfl
      | continuation hKind hContinuation =>
        obtain rfl := hSettled (.inl (by simp [hKind]; decide))
        rw [Descent.items_continuation hContinuation]
        refine skips h (Production.respondSequence_continuation hContinuation) ?_
          (by simp; omega)
        intro m' hReaches hNext
        exact ih (more.drop 1).length (by simp; omega) hNext (by simp; omega)
          (between_nil (hBetween.hold.reach hReaches)) rfl
      | separator hSeparator =>
        rw [Descent.items_separator hSeparator]
        refine skips h (Production.respondSequence_separator hSeparator hBetween.awaiting) ?_
          (by simp)
        intro m' hReaches hNext
        exact ih more.length (by omega) hNext (by omega)
          (between_nil (hBetween.hold.reach hReaches)) rfl
      | operator hOperator =>
        obtain rfl := hSettled (.inr hOperator)
        have hr : respondSequence c.limit t more nested items [] =
            .faultAt t (.unexpected t.text) := by
          rw [Production.respondSequence_operator hOperator, if_pos (by simp)]
        rw [Descent.items_operator hOperator]
        exact completes_error (h.fails hr)
      | finish hKind =>
        have hr : respondSequence c.limit t more nested items current =
            if nested then .faultAt t .openSubstitution
            else closeSequence t 1 nested items current :=
          Production.respondSequence_finish hKind
        rw [Descent.items_finish hKind]
        cases nested with
        | true => exact completes_error (h.fails hr)
        | false => exact closeSequence_completes h hr hBetween
      | close hKind =>
        have hr : respondSequence c.limit t more nested items current =
            if nested then closeSequence t 0 nested items current
            else .faultAt t (.unexpected [')']) :=
          Production.respondSequence_close hKind
        rw [Descent.items_close hKind]
        cases nested with
        | true => exact closeSequence_completes h hr hBetween
        | false => exact completes_error (h.fails hr)
      | word hWord =>
        obtain ⟨hSpace, hContinuation, hSeparator, hOperator, hEnd, hParen⟩ :=
          Descent.atWordEnd_eq_false.1 hWord
        obtain rfl := hSettled (.inl (by simp [Token.Kind.endsCommand, *]))
        rw [Descent.items_word hWord]
        apply Completes.bind (opens_item_completes hNested h (by omega) hWord)
        rintro first next - hReaches hRest hStack ⟨⟨j, hp, hChild⟩, hStart⟩
        have hNext := h.reach hReaches hRest hStack hp
        have hFirst := first.short
        rw [hRest] at hStart
        apply Completes.bind (chain_completes hNested hNext (by omega) (chained_single hChild)
          hStart)
        rintro item last - hReaches' hRest' hStack' hGains
        have hItem := item.short
        obtain ⟨parts, hp', hBetween'⟩ :=
          hGains.between ((hBetween.hold.reach hReaches).reach hReaches')
        rw [hRest'] at hBetween'
        apply Completes.map (ih item.rest.length (by omega)
          (hNext.reach hReaches' hRest' hStack' hp') (by omega) hBetween' rfl)
        · intro x
          rfl
        · intro x final _ hHolds
          exact hHolds

/-- Nested sequences are read as they should be, however long they are. -/
theorem nestedComplete (c : Context) (n : Nat) : NestedComplete c n := by
  induction n with
  | zero =>
    intro m ts id below hLength
    exact absurd hLength (Nat.not_lt_zero _)
  | succ n ih =>
    intro m ts id below hLength h
    exact items_completes ih h (Nat.le_of_lt_succ hLength) (between_nil .nil)

-- ---------------------------------------------------------------------------
-- Whole lists
-- ---------------------------------------------------------------------------

/-- The outermost sequence is opened on the whole list. -/
theorem spawn_outermost (tokens : List Token) {limit : Int} (hRoom : ¬ limit ≤ (0 : Nat)) :
    ∃ m, spawn (.freshSequence false) (.start tokens limit) = .ok 0 m ∧
      At m ⟨limit, tokens.getLast?⟩ tokens 0 (.freshSequence false) [] ∧
      m.cursor.tokens = tokens := by
  obtain ⟨m, hPlace, hPlaced⟩ :=
    place_of_room (m := .start tokens limit) (.freshSequence false) hRoom
  have hProduction : m.production 0 = .freshSequence false := hPlaced.production
  have hEnter : enter 0 m = .ok () m := by
    simp only [enter, bind, EStateM.bind, get, getThe, MonadStateOf.get, EStateM.get,
      hProduction]
    rfl
  refine ⟨m, ?_, ⟨hPlaced.limit, ?_, ?_, hPlaced.stack, ?_, hProduction⟩, ?_⟩
  · simp only [spawn, bind, EStateM.bind, hPlace]
    rw [show enter (start tokens limit).productions.length m = _ from hEnter]
    rfl
  · simp [hPlaced.cursor, start, Cursor.start, Cursor.tokens, Cursor.advance]
  · simp [hPlaced.cursor, start, Cursor.start]
  · simp [hPlaced.productions]
  · simp [hPlaced.cursor, start, Cursor.start, Cursor.tokens, Cursor.advance]

/-- Where there is no room for the outermost sequence, nothing is read. -/
theorem spawn_outermost_full (tokens : List Token) {limit : Int} (hFull : limit ≤ (0 : Nat)) :
    ∃ m, spawn (.freshSequence false) (.start tokens limit) = match tokens with
      | [] => .error (.fault ⟨.missingEnd, none⟩) m
      | t :: _ => .error (.fault (.atToken t (.tooDeep limit))) m := by
  obtain ⟨m, hPlace⟩ := place_of_full (m := .start tokens limit) (.freshSequence false) hFull
  refine ⟨m, ?_⟩
  simp only [spawn, bind, EStateM.bind, hPlace]
  cases tokens <;> rfl

/-- Opens the outermost sequence and reads on until it is closed. -/
def readOutermost : Step Nat := do
  let root ← spawn (.freshSequence false)
  run
  return root

/-- The run of a whole list ends as its sequence does. -/
theorem readOutermost_completes (tokens : List Token) (limit : Int) :
    match Descent.sequence ⟨limit, tokens.getLast?⟩ false 0 tokens with
    | .error fault => ∃ m, readOutermost (.start tokens limit) = .error (.fault fault) m
    | .ok r => ∃ m, readOutermost (.start tokens limit) = .ok 0 m ∧
        m.cursor.tokens = tokens ∧ m.cursor.rest = r.rest ∧ m.tree 0 = .ok r.value := by
  by_cases hFull : limit ≤ (0 : Nat)
  · obtain ⟨m, hSpawn⟩ := spawn_outermost_full tokens hFull
    cases tokens with
    | nil =>
      rw [Descent.sequence]
      exact ⟨m, by simp only [readOutermost, bind, EStateM.bind, hSpawn]; rfl⟩
    | cons t more =>
      rw [Descent.sequence, Context.enter, if_pos hFull]
      exact ⟨m, by simp only [readOutermost, bind, EStateM.bind, hSpawn]⟩
  · obtain ⟨m, hSpawn, h, hTokens⟩ := spawn_outermost tokens hFull
    have hItems := items_completes (nestedComplete _ tokens.length) h (Nat.le_refl _)
      (between_nil .nil)
    have hSequence : Descent.sequence ⟨limit, tokens.getLast?⟩ false 0 tokens =
        Descent.items ⟨limit, tokens.getLast?⟩ false 1 [] tokens := by
      cases tokens with
      | nil => rw [Descent.sequence, Descent.items]
      | cons t more =>
        rw [Descent.sequence, Context.enter, if_neg hFull]
        rfl
    rw [hSequence]
    change Completes m 0 [] (Descent.items _ false 1 [] tokens) _ at hItems
    cases hResult : Descent.items ⟨limit, tokens.getLast?⟩ false 1 [] tokens with
    | error fault =>
      rw [hResult] at hItems
      obtain ⟨last, hRun⟩ := hItems
      exact ⟨last, by simp only [readOutermost, bind, EStateM.bind, hSpawn, hRun]⟩
    | ok r =>
      rw [hResult] at hItems
      obtain ⟨last, hReaches, hRest, hStack, hHolds⟩ := hItems
      -- Nothing is on the stack any more, so the run ends here.
      have hRun : run m = .ok () last := by
        rw [hReaches.run, run_eq, hStack]
        rfl
      exact ⟨last, by simp only [readOutermost, bind, EStateM.bind, hSpawn, hRun]; rfl,
        hReaches.tokens.trans hTokens, hRest, hHolds.tree⟩

/-- The latest token of a cursor, told from the tokens that are left. -/
theorem last?_eq (cursor : Cursor) :
    cursor.last? =
      (cursor.tokens.take (cursor.tokens.length - cursor.rest.length)).getLast? := by
  simp [Cursor.last?, Cursor.tokens]

/-- Reading a tree is reading the outermost sequence, looking at the end and building. -/
theorem readTree_eq (m : Machine) :
    outcome (readTree m) = match readOutermost m with
      | .error why _ => .error why
      | .ok root m' =>
        if m'.cursor.last?.map (·.kind) ≠ some .endOfInput then
          .error (.fault m'.cursor.missingEnd)
        else match m'.cursor.rest with
          | next :: _ => .error (.fault (.atToken next .afterEnd))
          | [] => m'.tree root := by
  simp only [readTree, readOutermost, bind, EStateM.bind]
  cases spawn (.freshSequence false) m with
  | error why next => rfl
  | ok root next =>
    cases hRun : run next with
    | error why last =>
      simp only [hRun]
      rfl
    | ok u last =>
      simp only [hRun, get, getThe, MonadStateOf.get, EStateM.get, pure, EStateM.pure]
      cases hLast : last.cursor.last? with
      | none => rfl
      | some t =>
        by_cases hEnd : t.kind = .endOfInput
        · simp only [ne_eq, hEnd, not_true_eq_false, if_false, Option.map_some]
          cases last.cursor.rest with
          | cons next more => rfl
          | nil =>
            cases hTree : last.tree root with
            | error why => rfl
            | ok tree => rfl
        · simp only [ne_eq, hEnd, not_false_eq_true, if_true, Option.map_some,
            Option.some.injEq]
          rfl

/-- The outcome of a run is that of recursive descent. -/
theorem outcome_readTree (tokens : List Token) (limit : Int) :
    outcome (readTree (.start tokens limit)) =
      (Descent.parseTokens tokens limit).mapError .fault := by
  have hRun := readOutermost_completes tokens limit
  rw [readTree_eq, Descent.parseTokens]
  cases hSequence : Descent.sequence ⟨limit, tokens.getLast?⟩ false 0 tokens with
  | error fault =>
    rw [hSequence] at hRun
    obtain ⟨m, hRun⟩ := hRun
    rw [hRun]
    rfl
  | ok r =>
    rw [hSequence] at hRun
    obtain ⟨m, hRun, hTokens, hRest, hTree⟩ := hRun
    have hLast : m.cursor.last? =
        (tokens.take (tokens.length - r.rest.length)).getLast? := by
      rw [last?_eq, hTokens, hRest]
    rw [hRun]
    show _ = (Descent.checkEnd tokens r).mapError Failure.fault
    simp only [Descent.checkEnd, Cursor.missingEnd, hLast, hRest, hTree]
    split
    · rfl
    · cases r.rest <;> rfl

end Machine

-- ---------------------------------------------------------------------------
-- The refinement
-- ---------------------------------------------------------------------------

/-- The machine finds the trees that recursive descent finds. -/
theorem parseTokens_eq_ok_iff {tokens : List Token} {limit : Int} {tree : Tree} :
    parseTokens tokens limit = .ok tree ↔ Descent.parseTokens tokens limit = .ok tree := by
  rw [parseTokens, Machine.outcome_readTree]
  cases Descent.parseTokens tokens limit <;> simp [Except.mapError]

/-- What can be read has a tree. -/
theorem exists_of_isOk {result : Except Failure Tree} (h : result.isOk = true) :
    ∃ tree, result = .ok tree := by
  cases result with
  | error why => cases h
  | ok tree => exact ⟨tree, rfl⟩

/-- The machine fails with the faults of recursive descent. -/
theorem parseTokens_eq_error_iff {tokens : List Token} {limit : Int} {why : Failure} :
    parseTokens tokens limit = .error why ↔
      ∃ fault, Descent.parseTokens tokens limit = .error fault ∧ why = .fault fault := by
  rw [parseTokens, Machine.outcome_readTree]
  cases Descent.parseTokens tokens limit <;> simp [Except.mapError, eq_comm]

/-- **The machine reads a token list as recursive descent does**: the same tree, offsets
included, or the same fault at the same token, for every list and every limit. -/
theorem parseTokens_eq_descent (tokens : List Token) (limit : Int) :
    parseTokens tokens limit = (Descent.parseTokens tokens limit).mapError .fault :=
  Machine.outcome_readTree tokens limit

end ShellReader
