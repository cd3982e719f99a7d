import Mathlib
import TaskRunner.Proofs.ItemLocality
import TaskRunner.TaskFile.Parser

/-! # Texts put together

    Reading goes item by item, and no item looks at the lines below it.  So the items of a
    text are still its items when more lines follow (`items_feed`).  What follows decides
    only about comment lines at the end of the text, which describe a task that comes
    directly below: a blank line detaches them, and a closing brace has no description.

    The items then do in their new place what they did in the old one.  Behind other
    declarations, and inside of a namespace block, a nesting of blocks is changed in a way that
    each item preserves (`Nesting.add_onto`, `Nesting.add_inside`), and the file that comes out
    is changed in that way too.  So **two task files with a blank line between them are
    their merge, and a task file in a namespace block is a namespace with its contents**
    (`TaskFile.parse_compositional`), if no file names its own namespace. -/

namespace TaskRunner

open Text

namespace Item

/-! ## Comment lines above an item -/

/-- What stays of the comment lines `doc` above a text: a blank line detaches them. -/
def attached (doc : List Text) (s : Text) : List Text :=
  if 1 < leadingLineFeeds s then [] else doc

theorem attached_nil (s : Text) : attached [] s = [] := ite_self []

/-- Where no comment comes next, no comment line is added to those above. -/
theorem leadingComments_of_head {doc : List Text} {s : Text}
    (h : (skipSpacing s).head? ≠ some '#') :
    leadingComments doc s = (attached doc s, skipSpacing s) := by
  rw [leadingComments]
  split
  · rename_i heq
    rw [heq, attached]
  · rename_i heq
    rw [dif_neg (fun hc => h (by rw [heq, hc]; rfl)), heq, attached]

theorem leadingComments_of_comment {doc : List Text} {s rest : Text}
    (h : skipSpacing s = '#' :: rest) :
    leadingComments doc s
      = leadingComments (attached doc s ++ [commentText (splitLine ('#' :: rest)).1])
          (splitLine ('#' :: rest)).2 := by
  rw [leadingComments]
  split
  · rename_i heq
    cases heq.symm.trans h
  · rename_i heq
    obtain ⟨rfl, rfl⟩ := List.cons.inj (heq.symm.trans h)
    rw [dif_pos rfl, attached]

/-- The blanks at the start of a text count only for the lines above that they detach. -/
theorem leadingComments_congr {doc doc' : List Text} {s s' : Text}
    (hspacing : skipSpacing s = skipSpacing s') (hdoc : attached doc s = attached doc' s') :
    leadingComments doc s = leadingComments doc' s' := by
  by_cases hhead : (skipSpacing s').head? = some '#'
  · obtain ⟨rest, hrest⟩ := List.head?_eq_some_iff.mp hhead
    rw [leadingComments_of_comment (hspacing.trans hrest), leadingComments_of_comment hrest, hdoc]
  · rw [leadingComments_of_head (hspacing ▸ hhead), leadingComments_of_head hhead, hspacing, hdoc]

/-- Comment lines are read one by one, and the place behind them is the same one when more lines
follow. -/
theorem exists_behind_comments (doc : List Text) (s : Text) :
    ∃ doc' tail, (skipSpacing tail).head? ≠ some '#'
      ∧ leadingComments doc s = leadingComments doc' tail
      ∧ ∀ t, leadingComments doc (s ++ '\n' :: t) = leadingComments doc' (tail ++ '\n' :: t) := by
  by_cases hhead : (skipSpacing s).head? = some '#'
  · obtain ⟨rest, hrest⟩ := List.head?_eq_some_iff.mp hhead
    have hshorter : (splitLine ('#' :: rest)).2.length < s.length :=
      Nat.lt_of_lt_of_le (length_splitLine_lt (by decide) (by decide))
        (hrest ▸ length_skipSpacing_le s)
    have hne : skipSpacing s ≠ [] := hrest ▸ List.cons_ne_nil _ _
    obtain ⟨doc', tail, htail, heq, hfeed⟩ := exists_behind_comments
      (attached doc s ++ [commentText (splitLine ('#' :: rest)).1]) (splitLine ('#' :: rest)).2
    refine ⟨doc', tail, htail, (leadingComments_of_comment hrest).trans heq, fun t => ?_⟩
    have hrest' : skipSpacing (s ++ '\n' :: t) = '#' :: (rest ++ '\n' :: t) := by
      rw [skipSpacing_append hne, hrest, List.cons_append]
    rw [leadingComments_of_comment hrest', ← List.cons_append, splitLine_feed, attached,
      leadingLineFeeds_append hne, ← attached, hfeed]
  · exact ⟨doc, s, hhead, rfl, fun t => rfl⟩
termination_by s.length

/-- A blank line detaches the comment lines at the end of a text. -/
theorem leadingComments_blankLine {tail : Text} (h : skipSpacing tail = []) (doc : List Text)
    (t : Text) : leadingComments doc (tail ++ '\n' :: '\n' :: t) = leadingComments [] t := by
  refine leadingComments_congr (skipSpacing_append_of_blank h _) ?_
  have htwo : leadingLineFeeds ('\n' :: '\n' :: t) = leadingLineFeeds t + 1 + 1 := by
    rw [leadingLineFeeds, List.takeWhile_cons_of_pos rfl, List.takeWhile_cons_of_pos rfl,
      List.count_cons_self, List.count_cons_self, leadingLineFeeds]
  rw [attached_nil, attached, leadingLineFeeds_append_of_blank h, htwo, if_pos (by omega)]

end Item

/-! ## The items of a text with more lines behind -/

open Item

/-- The items of a text, from the comment lines above the first one on. -/
def itemsFrom : List Text × Text → List Item × Option (ParseError Text)
  | (_, []) => ([], none)
  | (doc, c :: rest) =>
    match declaration doc (c :: rest) with
    | .error e => ([], some e)
    | .ok (item, after) =>
      match item.behind after with
      | .error e => ([item], some e)
      | .ok next => (item :: (items next).1, (items next).2)

theorem items_eq (s : Text) : items s = itemsFrom (leadingComments [] s) := by
  rw [items]
  split
  · rename_i hlead
    rw [hlead, itemsFrom]
  · rename_i doc c rest hlead
    refine Eq.trans ?_ (congrArg itemsFrom hlead).symm
    rw [itemsFrom]
    split
    · rename_i hitem
      simp only [hitem]
    · rename_i item after hitem
      simp only [hitem]
      split
      · rename_i hend
        simp only [hend]
      · rename_i hend
        simp only [hend]

theorem itemsFrom_cons {doc : List Text} {c : Char} {rest after next : Text} {item : Item}
    (hitem : declaration doc (c :: rest) = .ok (item, after))
    (hend : item.behind after = .ok next) :
    itemsFrom (doc, c :: rest) = (item :: (items next).1, (items next).2) := by
  rw [itemsFrom]
  simp only [hitem, hend]

/-- A blank in front of all items does not count. -/
theorem items_blank {c : Char} (hc : isSpacing c = true) (t : Text) : items (c :: t) = items t := by
  have hlead : leadingComments [] (c :: t) = leadingComments [] t :=
    leadingComments_congr (List.dropWhile_cons_of_pos hc) (by rw [attached_nil, attached_nil])
  rw [items_eq, hlead, ← items_eq]

/-- What stands behind an item is read on when more lines follow. -/
theorem behind_feed {item : Item} {s next : Text} (h : item.behind s = .ok next) (t t' : Text) :
    ∃ next', (item.followedBy t').behind (s ++ '\n' :: t) = .ok next'
      ∧ items next' = items (next ++ '\n' :: t) := by
  have hend : ∀ {next}, endOfItem s = .ok next →
      ∃ next', endOfItem (s ++ '\n' :: t) = .ok next'
        ∧ items next' = items (next ++ '\n' :: t) := by
    intro next hnext
    obtain hfeed | ⟨rfl, hfeed⟩ := endOfItem_feed hnext t
    · exact ⟨_, hfeed, rfl⟩
    · exact ⟨t, hfeed, (items_blank rfl t).symm⟩
  cases item with
  | opening => cases h; exact ⟨_, rfl, rfl⟩
  | _ => exact hend h

/-- **The items of a text come first when more lines follow**, and reading goes on behind its last
comment lines, unless the lines below start with an opening brace. -/
theorem items_feed {s : Text} {found : List Item} (h : items s = (found, none)) :
    ∃ doc tail, skipSpacing tail = [] ∧ ∀ t, (skipSpacing t).head? ≠ some '{' →
      items (s ++ '\n' :: t)
        = (found.map (followedBy ('\n' :: t))
              ++ (itemsFrom (leadingComments doc (tail ++ '\n' :: t))).1,
            (itemsFrom (leadingComments doc (tail ++ '\n' :: t))).2) := by
  obtain ⟨doc, tail, hhead, hlead, hfeed⟩ := exists_behind_comments [] s
  rw [items_eq, hlead, leadingComments_of_head hhead] at h
  cases hrest : skipSpacing tail with
  | nil =>
      rw [hrest, itemsFrom] at h
      obtain ⟨rfl, -⟩ := Prod.mk.inj h
      exact ⟨doc, tail, hrest, fun t ht => by rw [items_eq, hfeed]; rfl⟩
  | cons c rest =>
      have hne : skipSpacing tail ≠ [] := hrest ▸ List.cons_ne_nil _ _
      rw [hrest, itemsFrom] at h
      cases hitem : declaration (attached doc tail) (c :: rest) with
      | error e => simp [hitem] at h
      | ok read =>
          obtain ⟨item, after⟩ := read
          cases hend : item.behind after with
          | error e => simp [hitem, hend] at h
          | ok next =>
              simp only [hitem, hend] at h
              obtain ⟨rfl, hnone⟩ := Prod.mk.inj h
              have hshorter : next.length < s.length := by
                have h1 := (behind_suffix hend).length_le
                have h2 := length_declaration_lt hitem
                have h3 := (leadingComments_suffix [] s).length_le
                rw [hlead, leadingComments_of_head hhead, hrest] at h3
                exact Nat.lt_of_le_of_lt h1 (Nat.lt_of_lt_of_le h2 h3)
              obtain ⟨doc', tail', htail', hnext⟩ := items_feed (s := next) (Prod.ext rfl hnone)
              refine ⟨doc', tail', htail', fun t ht => ?_⟩
              obtain ⟨next', hend', heq⟩ := behind_feed hend t ('\n' :: t)
              have hplain : (skipSpacing (tail ++ '\n' :: t)).head? ≠ some '#' := by
                rw [skipSpacing_append hne]
                exact fun hsharp => hhead ((head?_feed (by decide) _ _).mp hsharp)
              have hitem' : declaration (attached doc tail) (c :: (rest ++ '\n' :: t))
                  = .ok (item.followedBy ('\n' :: t), after ++ '\n' :: t) :=
                declaration_feed hitem ht
              rw [items_eq, hfeed, leadingComments_of_head hplain, skipSpacing_append hne, hrest,
                attached, leadingLineFeeds_append hne, ← attached, List.cons_append,
                itemsFrom_cons hitem' hend', heq, hnext t ht]
              rfl
termination_by s.length

/-- A text that is read has no opening brace at its start. -/
theorem head_ne_of_items {s : Text} {found : List Item} (h : items s = (found, none)) :
    (skipSpacing s).head? ≠ some '{' := by
  intro hbrace
  obtain ⟨rest, hrest⟩ := List.head?_eq_some_iff.mp hbrace
  have hitem : declaration [] ('{' :: rest)
      = .error (.unexpectedInput (Item.found ('{' :: rest)) ('{' :: rest)) := rfl
  have hplain : (skipSpacing s).head? ≠ some '#' := by rw [hbrace]; decide
  rw [items_eq, leadingComments_of_head hplain, attached_nil, hrest, itemsFrom, hitem] at h
  cases h

/-- The items of two texts with a blank line between them are those of the one, then those of the
other. -/
theorem items_blankLine {s₁ s₂ : Text} {found₁ found₂ : List Item}
    (h₁ : items s₁ = (found₁, none)) (h₂ : items s₂ = (found₂, none)) :
    items (s₁ ++ '\n' :: '\n' :: s₂)
      = (found₁.map (followedBy ('\n' :: '\n' :: s₂)) ++ found₂, none) := by
  obtain ⟨doc, tail, htail, hfeed⟩ := items_feed h₁
  have hhead : (skipSpacing ('\n' :: s₂)).head? ≠ some '{' :=
    head_ne_of_items ((items_blank rfl s₂).trans h₂)
  rw [hfeed ('\n' :: s₂) hhead, leadingComments_blankLine htail, ← items_eq, h₂]

/-- A closing brace on the line below a text is one more item. -/
theorem items_closing {s : Text} {found : List Item} (h : items s = (found, none)) :
    items (s ++ ['\n', '}']) = (found.map (followedBy ['\n', '}']) ++ [.closing ['}']], none) := by
  obtain ⟨doc, tail, htail, hfeed⟩ := items_feed h
  have hbrace : skipSpacing (tail ++ ['\n', '}']) = ['}'] := skipSpacing_append_of_blank htail _
  rw [hfeed ['}'] (by decide), leadingComments_of_head (by rw [hbrace]; decide), hbrace]
  have hend : (Item.closing ['}']).behind [] = .ok [] := rfl
  rw [itemsFrom_cons rfl hend, items_of_blank rfl]

/-! ## Items in a new place -/

namespace Nesting

/-- The open blocks with more text behind them. -/
def followedBy (t : Text) (n : Nesting) : Nesting :=
  { n with blocks := n.blocks.map fun block => { block with brace := block.brace ++ t } }

/-- The same behind the declarations of another file. -/
def onto (base : TaskFile) (n : Nesting) : Nesting := { n with file := base.merge n.file }

/-- The same inside of a namespace block. -/
def inside (name : String) (brace : Text) (n : Nesting) : Nesting where
  file := {}
  blocks := n.blocks
    ++ [⟨brace, ⟨name, n.file.tasks, n.file.vars, n.file.namespaces⟩⟩]

/-- A file that names no namespace in the end has named none before. -/
theorem fileNamespace_of_add {n m : Nesting} {item : Item} (h : n.add item = .ok m)
    (hm : m.file.fileNamespace = none) : n.file.fileNamespace = none := by
  obtain ⟨⟨tasks, namespaces, vars, own⟩, blocks⟩ := n
  cases own with
  | none => rfl
  | some own =>
      cases item <;> rcases blocks with _ | ⟨block, _ | ⟨parent, outer⟩⟩ <;> cases h <;> cases hm

theorem add_followedBy {n m : Nesting} {item : Item} (h : n.add item = .ok m) (t : Text) :
    (n.followedBy t).add (item.followedBy t) = .ok (m.followedBy t) := by
  obtain ⟨⟨tasks, namespaces, vars, own⟩, blocks⟩ := n
  cases item with
  | «variable» v => cases blocks <;> cases h <;> rfl
  | task task => cases blocks <;> cases h <;> rfl
  | opening name start brace => cases blocks <;> cases own <;> cases h <;> rfl
  | closing place => rcases blocks with _ | ⟨block, _ | ⟨parent, outer⟩⟩ <;> cases h <;> rfl
  | fileNamespace name start after =>
      cases blocks <;> cases own <;> cases namespaces <;> cases h
      rfl

theorem add_inside {n m : Nesting} {item : Item} (h : n.add item = .ok m)
    (hm : m.file.fileNamespace = none) (name : String) (brace : Text) :
    (n.inside name brace).add item = .ok (m.inside name brace) := by
  obtain ⟨⟨tasks, namespaces, vars, own⟩, blocks⟩ := n
  cases item with
  | «variable» v => cases blocks <;> cases h <;> rfl
  | task task => cases blocks <;> cases h <;> rfl
  | opening name start brace => cases blocks <;> cases own <;> cases h <;> rfl
  | closing place => rcases blocks with _ | ⟨block, _ | ⟨parent, outer⟩⟩ <;> cases h <;> rfl
  | fileNamespace name start after =>
      cases blocks <;> cases own <;> cases namespaces <;> cases h
      cases hm

theorem add_onto {n m : Nesting} {item : Item} (h : n.add item = .ok m)
    (hm : m.file.fileNamespace = none) {base : TaskFile} (hbase : base.fileNamespace = none) :
    (n.onto base).add item = .ok (m.onto base) := by
  have hn := fileNamespace_of_add h hm
  obtain ⟨⟨tasks, namespaces, vars, own⟩, blocks⟩ := n
  obtain ⟨tasks', namespaces', vars', own'⟩ := base
  cases hn
  cases hbase
  cases item with
  | «variable» v => cases blocks <;> cases h <;> simp [onto, add, addVariable, TaskFile.merge]
  | task task =>
      cases blocks <;> cases h <;> simp [onto, add, addTask, TaskFile.merge, TaskFile.adopt]
  | opening name start brace => cases blocks <;> cases h <;> rfl
  | closing place =>
      rcases blocks with _ | ⟨block, _ | ⟨parent, outer⟩⟩ <;> cases h <;>
        simp [onto, add, closeBlock, addNamespace, TaskFile.merge]
  | fileNamespace name start after =>
      cases blocks <;> cases namespaces <;> cases h
      cases hm

theorem fileNamespace_of_addAll {found : List Item} {n m : Nesting} (h : n.addAll found = .ok m)
    (hm : m.file.fileNamespace = none) : n.file.fileNamespace = none := by
  induction found generalizing n with
  | nil => cases h; exact hm
  | cons item found ih =>
      rw [addAll] at h
      cases hitem : n.add item with
      | error e => rw [hitem] at h; cases h
      | ok next => rw [hitem] at h; exact fileNamespace_of_add hitem (ih h)

/-- What each item preserves, all items preserve: a change of what is known, with a change of the
items that goes with it. -/
theorem addAll_map (change : Nesting → Nesting) (carried : Item → Item)
    (hadd : ∀ {n m : Nesting} {item}, n.add item = .ok m → m.file.fileNamespace = none →
      (change n).add (carried item) = .ok (change m))
    {found : List Item} {n m : Nesting} (h : n.addAll found = .ok m)
    (hm : m.file.fileNamespace = none) :
    (change n).addAll (found.map carried) = .ok (change m) := by
  induction found generalizing n with
  | nil => cases h; rfl
  | cons item found ih =>
      rw [addAll] at h
      cases hitem : n.add item with
      | error e => rw [hitem] at h; cases h
      | ok next =>
          rw [hitem] at h
          rw [List.map_cons, addAll, hadd hitem (fileNamespace_of_addAll h hm)]
          exact ih h

theorem addAll_append {found rest : List Item} {n m : Nesting} (h : n.addAll found = .ok m) :
    n.addAll (found ++ rest) = m.addAll rest := by
  induction found generalizing n with
  | nil => cases h; rfl
  | cons item found ih =>
      rw [addAll] at h
      rw [List.cons_append, addAll]
      cases hitem : n.add item with
      | error e => rw [hitem] at h; cases h
      | ok next => rw [hitem] at h; exact ih h

theorem exists_addAll_of_append {found rest : List Item} {n m : Nesting}
    (h : n.addAll (found ++ rest) = .ok m) :
    ∃ between, n.addAll found = .ok between ∧ between.addAll rest = .ok m := by
  induction found generalizing n with
  | nil => exact ⟨n, rfl, h⟩
  | cons item found ih =>
      rw [List.cons_append, addAll] at h
      rw [addAll]
      cases hitem : n.add item with
      | error e => rw [hitem] at h; cases h
      | ok next => rw [hitem] at h; exact ih h

/-- The items of a file between an opening and a closing are a namespace with what they declare. -/
theorem addAll_namespaceBlock {found : List Item} {file : TaskFile}
    (h : empty.addAll found = .ok ⟨file, []⟩) (hown : file.fileNamespace = none)
    (name : String) (start brace place : Text) :
    empty.addAll (.opening name start brace :: (found ++ [.closing place]))
      = .ok ⟨{ namespaces := [⟨name, file.tasks, file.vars, file.namespaces⟩] }, []⟩ := by
  have hinside := addAll_map (inside name brace) id (fun h hm => add_inside h hm _ _) h hown
  rw [List.map_id] at hinside
  exact (addAll_append hinside).trans rfl

end Nesting

/-! ## Whole texts -/

namespace TaskFile

/-- A text is a task file when it is read to its end, and no block is open there. -/
theorem read_eq_ok_iff {s : Text} {file : TaskFile} :
    read s = .ok file ↔
      ∃ found, items s = (found, none) ∧ Nesting.empty.addAll found = .ok ⟨file, []⟩ := by
  constructor
  · intro h
    rw [read] at h
    cases hadd : Nesting.empty.addAll (items s).1 with
    | error e => simp only [hadd] at h; cases h
    | ok n =>
        obtain ⟨file', blocks⟩ := n
        cases hnone : (items s).2 with
        | some e => simp only [hadd, hnone] at h; cases h
        | none =>
            simp only [hadd, hnone] at h
            cases blocks with
            | nil => cases h; exact ⟨_, Prod.ext rfl hnone, hadd⟩
            | cons block outer => cases h
  · rintro ⟨found, hitems, hadd⟩
    rw [read, hitems]
    simp only [hadd]
    rfl

theorem read_blankLine {s₁ s₂ : Text} {file₁ file₂ : TaskFile}
    (h₁ : read s₁ = .ok file₁) (hown₁ : file₁.fileNamespace = none)
    (h₂ : read s₂ = .ok file₂) (hown₂ : file₂.fileNamespace = none) :
    read (s₁ ++ '\n' :: '\n' :: s₂) = .ok (file₁.merge file₂) := by
  obtain ⟨found₁, hitems₁, hadd₁⟩ := read_eq_ok_iff.mp h₁
  obtain ⟨found₂, hitems₂, hadd₂⟩ := read_eq_ok_iff.mp h₂
  refine read_eq_ok_iff.mpr ⟨_, items_blankLine hitems₁ hitems₂, ?_⟩
  have hfirst : Nesting.empty.addAll (found₁.map (Item.followedBy ('\n' :: '\n' :: s₂)))
      = .ok ⟨file₁, []⟩ :=
    Nesting.addAll_map (Nesting.followedBy _) _ (fun h _ => Nesting.add_followedBy h _) hadd₁ hown₁
  have hsecond := Nesting.addAll_map (Nesting.onto file₁) id
    (fun h hm => Nesting.add_onto h hm hown₁) hadd₂ hown₂
  have hstart : Nesting.empty.onto file₁ = ⟨file₁, []⟩ := by
    simp [Nesting.onto, Nesting.empty, merge]
  rw [Nesting.addAll_append hfirst, ← hstart]
  rwa [List.map_id] at hsecond

theorem ne_of_isWordChar {c d : Char} (hc : isWordChar c = true) (hd : isWordChar d = false) :
    c ≠ d := by
  rintro rfl
  rw [hc] at hd
  cases hd

/-- What stands behind the keyword that opens a namespace block. -/
theorem skipInline_word {name : Text} (hne : name ≠ []) (hword : ∀ c ∈ name, isWordChar c = true)
    (s : Text) : skipInline (' ' :: (name ++ s)) = name ++ s := by
  obtain ⟨c, more, rfl⟩ := List.exists_cons_of_ne_nil hne
  have hc : isWordChar c = true := hword c List.mem_cons_self
  have hblank : isInlineBlank c = false := by
    rw [isInlineBlank, beq_false_of_ne (ne_of_isWordChar hc (by decide)),
      beq_false_of_ne (ne_of_isWordChar hc (by decide))]
    rfl
  rw [skipInline, List.dropWhile_cons_of_pos rfl, List.cons_append,
    List.dropWhile_cons_of_neg (by rw [hblank]; decide)]

/-- The first item of a namespace block is its opening. -/
theorem items_namespaceBlock {name : Text} (hne : name ≠ [])
    (hword : ∀ c ∈ name, isWordChar c = true) (s : Text) :
    ∃ start brace, items ("namespace".toList ++ ' ' :: (name ++ ' ' :: '{' :: s))
      = (.opening (String.ofList name) start brace :: (items s).1, (items s).2) := by
  have hskip := skipInline_word hne hword (' ' :: '{' :: s)
  have htake : (name ++ ' ' :: '{' :: s).takeWhile isWordChar = name := by
    rw [List.takeWhile_append_of_pos hword, List.takeWhile_cons_of_neg (by decide), List.append_nil]
  have hdrop : (name ++ ' ' :: '{' :: s).dropWhile isWordChar
      = ' ' :: '{' :: s := by
    rw [List.dropWhile_append_of_pos hword, List.dropWhile_cons_of_neg (by decide)]
  have hassign : assignment? ("namespace".toList ++ ' ' :: (name ++ ' ' :: '{' :: s))
      = none := by
    change (if (eat ['=', '>'] (skipInline (' ' :: (name ++ _)))).isSome then none
      else (eat ['='] (skipInline (' ' :: (name ++ _)))).map _) = none
    rw [hskip]
    obtain ⟨c, more, rfl⟩ := List.exists_cons_of_ne_nil hne
    have hc : '=' ≠ c := (ne_of_isWordChar (hword c List.mem_cons_self) (by decide)).symm
    rw [List.cons_append, eat, eat, if_neg hc, if_neg hc]
    rfl
  have hitem : declaration [] ("namespace".toList ++ ' ' :: (name ++ ' ' :: '{' :: s))
      = .ok (.opening (String.ofList name)
          ("namespace".toList ++ ' ' :: (name ++ ' ' :: '{' :: s)) ('{' :: s), s) := by
    rw [declaration, hassign]
    change namespaceDeclaration _ (' ' :: (name ++ _)) = _
    simp only [namespaceDeclaration, hskip, htake, hdrop, List.isEmpty_iff, if_neg hne]
    rfl
  exact ⟨_, _, by rw [items_cons rfl (by decide) hitem rfl]⟩

theorem read_namespaceBlock {name s : Text} {file : TaskFile} (hne : name ≠ [])
    (hword : ∀ c ∈ name, isWordChar c = true) (h : read s = .ok file)
    (hown : file.fileNamespace = none) :
    read ("namespace".toList ++ ' ' :: (name ++ ' ' :: '{' :: '\n' :: (s ++ ['\n', '}'])))
      = .ok { namespaces := [⟨String.ofList name, file.tasks, file.vars, file.namespaces⟩] } := by
  obtain ⟨found, hitems, hadd⟩ := read_eq_ok_iff.mp h
  obtain ⟨start, brace, hopening⟩ := items_namespaceBlock hne hword ('\n' :: (s ++ ['\n', '}']))
  rw [items_blank rfl, items_closing hitems] at hopening
  refine read_eq_ok_iff.mpr ⟨_, hopening, ?_⟩
  have hbehind := Nesting.addAll_map (Nesting.followedBy ['\n', '}']) _
    (fun h _ => Nesting.add_followedBy h _) hadd hown
  exact Nesting.addAll_namespaceBlock hbehind hown _ _ _ _

theorem parse_eq_ok_iff {source : String} {file : TaskFile} :
    parse source = .ok file ↔ read source.toList = .ok file := by
  rw [parse]
  split
  · rename_i hread
    rw [hread, Except.ok.injEq, Except.ok.injEq]
  · rename_i hread
    rw [hread]
    exact ⟨nofun, nofun⟩

/-- **READING IS COMPOSITIONAL**: two task files with a blank line between them are read as the
merge of the two, and a task file inside of a namespace block as that namespace with the tasks, the
variables and the namespaces of the file, if no file names a namespace of its own. -/
theorem parse_compositional {s₁ : String} {file₁ : TaskFile} (h₁ : parse s₁ = .ok file₁)
    (hown₁ : file₁.fileNamespace = none) :
    (∀ s₂ file₂, parse s₂ = .ok file₂ → file₂.fileNamespace = none →
      parse (s₁ ++ "\n\n" ++ s₂) = .ok (file₁.merge file₂))
    ∧ ∀ name : String, name ≠ "" → (∀ c ∈ name.toList, isWordChar c = true) →
      parse ("namespace " ++ name ++ " \x7b\n" ++ s₁ ++ "\n\x7d")
        = .ok { namespaces := [⟨name, file₁.tasks, file₁.vars, file₁.namespaces⟩] } := by
  rw [parse_eq_ok_iff] at h₁
  constructor
  · intro s₂ file₂ h₂ hown₂
    rw [parse_eq_ok_iff] at h₂ ⊢
    have h := read_blankLine h₁ hown₁ h₂ hown₂
    rw [String.toList_append, String.toList_append, List.append_assoc]
    exact h
  · intro name hne hword
    have hne' : name.toList ≠ [] := fun h => hne (String.toList_eq_nil_iff.mp h)
    have h := read_namespaceBlock hne' hword h₁ hown₁
    rw [String.ofList_toList] at h
    rw [parse_eq_ok_iff]
    simp only [String.toList_append, List.append_assoc]
    exact h

/-- A file with one task, which a comment describes. -/
def building : TaskFile :=
  { tasks := [{ name := "build", description := some "Builds all.", dependencies := ["lint"] }] }

/-- A file with a variable and a task. -/
def linting : TaskFile := { tasks := [{ name := "lint" }], vars := [⟨"mode", .literal "fast"⟩] }

theorem parse_building : parse "# Builds all.\ntask build => lint" = .ok building := by
  have hsharp : skipSpacing "# Builds all.\ntask build => lint".toList
      = '#' :: " Builds all.\ntask build => lint".toList := by cbv
  have htask : Item.declaration ["Builds all.".toList] "task build => lint".toList
      = .ok (.task ⟨"build", some "Builds all.", [], ["lint"], [], none, none, none⟩, []) := by cbv
  have hlead : Item.leadingComments [] "# Builds all.\ntask build => lint".toList
      = (["Builds all.".toList], "task build => lint".toList) := by
    rw [Item.leadingComments_of_comment hsharp]
    exact Item.leadingComments_of_head (by cbv; decide)
  refine parse_eq_ok_iff.mpr (read_eq_ok_iff.mpr
    ⟨[.task ⟨"build", some "Builds all.", [], ["lint"], [], none, none, none⟩], ?_, rfl⟩)
  rw [items_eq, hlead]
  exact (itemsFrom_cons htask rfl).trans (by rw [items_of_blank rfl])

theorem parse_linting : parse "mode = \"fast\"\ntask lint" = .ok linting := by
  rewrite [parse, read,
    items_cons (by cbv) (by decide) (by cbv) (by cbv),
    items_cons (by cbv) (by decide) (by cbv) (by cbv),
    items_of_blank (by cbv)]
  rfl

theorem building_and_linting_compositional :
    parse ("# Builds all.\ntask build => lint" ++ "\n\n" ++ "mode = \"fast\"\ntask lint")
        = .ok (building.merge linting)
      ∧ parse ("namespace " ++ "ci" ++ " \x7b\n" ++ "# Builds all.\ntask build => lint" ++ "\n\x7d")
        = .ok { namespaces := [⟨"ci", building.tasks, [], []⟩] } :=
  ⟨(parse_compositional parse_building rfl).1 _ _ parse_linting rfl,
    (parse_compositional parse_building rfl).2 "ci" (by decide)
      (List.all_eq_true.mp (by decide))⟩

end TaskFile

end TaskRunner
