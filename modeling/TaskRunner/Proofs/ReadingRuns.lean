import TaskRunner.Proofs.Composition
import TaskRunner.Proofs.ExpressionGrammar

/-! # Runs of the reader

    Reading a file is two runs.  The first takes item after item from the text.  It is
    told as a relation (**`Reads`**) between a text, its items, and the error that stops
    the reading, with one rule for each way that a step can go; so what holds of every item,
    or of every error, is shown by induction on the run.  Where an item stands and what it is
    is said once (`Item.Declares`, **`Item.declaration_eq_ok_iff`**).

    The second puts item after item into a nesting, and what it can do is said once, too
    (**`Nesting.Adds`**).  What each item preserves holds at the end
    (`Nesting.addAll_preserves`), and an error is raised by an item where it still held
    (`Nesting.exists_of_addAll_error`).  A text is refused by one of three things
    (`TaskFile.read_error`): an item that does not belong where it stands, a place where no
    item stands, or at the end a block that is still open. -/

namespace TaskRunner

open Text Item

/-! ## Items that have been read -/

namespace Item

/-- A namespace has a word for its name; it opens a block if a brace is behind, and is the file's
own if none is. -/
theorem namespaceDeclaration_cases {start s rest : Text} {item : Item}
    (h : namespaceDeclaration start s = .ok (item, rest)) :
    ∃ name after, name = (skipInline s).takeWhile isWordChar ∧ IsWord name ∧
      after = skipInline ((skipInline s).dropWhile isWordChar) ∧
      (eat ['{'] after = some rest ∧ item = .opening (String.ofList name) start after ∨
        item = .fileNamespace (String.ofList name) start after) := by
  rw [namespaceDeclaration] at h
  dsimp only at h
  split at h
  · cases h
  · rename_i hname
    refine ⟨_, _, rfl, isWord_takeWhile hname, rfl, ?_⟩
    split at h
    · rename_i hbrace
      obtain ⟨rfl, rfl⟩ := Prod.mk.inj (Except.ok.inj h)
      exact Or.inl ⟨hbrace, rfl⟩
    · obtain ⟨rfl, -⟩ := Prod.mk.inj (Except.ok.inj h)
      exact Or.inr rfl

/-- Where an item stands: a closing brace, an assignment, a task behind its keyword, or a namespace
behind its own. -/
inductive Declares (doc : List Text) (s : Text) : Item → Text → Prop
  | closing {rest : Text} (hbrace : eat ['}'] s = some rest) : Declares doc s (.closing s) rest
  | assignment {name more rest : Text} {v : Value} (hassign : assignment? s = some (name, more))
      (hvalue : value more = .ok (v, rest)) :
      Declares doc s (.variable ⟨String.ofList name, v⟩) rest
  | task {more rest : Text} {declared : Task} (hassign : assignment? s = none)
      (hkeyword : eatKeyword "task".toList s = some more)
      (htask : taskDeclaration (description? doc) more = .ok (declared, rest)) :
      Declares doc s (.task declared) rest
  | namespaced {more rest : Text} {item : Item} (hassign : assignment? s = none)
      (hkeyword : eatKeyword "namespace".toList s = some more)
      (hnamespace : namespaceDeclaration s more = .ok (item, rest)) : Declares doc s item rest

/-- An assignment does not start with a brace. -/
theorem eat_brace_of_assignment {s : Text} {found : Text × Text}
    (h : assignment? s = some found) : eat ['}'] s = none := by
  cases s with
  | nil => rfl
  | cons c s =>
      rw [eat, if_neg]
      rintro rfl
      cases h

/-- **AN ITEM IS READ JUST WHERE ONE STANDS.** -/
theorem declaration_eq_ok_iff {doc : List Text} {s rest : Text} {item : Item} :
    declaration doc s = .ok (item, rest) ↔ Declares doc s item rest := by
  constructor
  · intro h
    rw [declaration] at h
    split at h
    · rename_i hbrace
      obtain ⟨rfl, rfl⟩ := Prod.mk.inj (Except.ok.inj h)
      exact .closing hbrace
    · split at h
      · rename_i hassign
        split at h
        · rename_i hvalue
          obtain ⟨rfl, rfl⟩ := Prod.mk.inj (Except.ok.inj h)
          exact .assignment hassign hvalue
        · cases h
      · rename_i hassign
        split at h
        · rename_i hkeyword
          split at h
          · rename_i htask
            obtain ⟨rfl, rfl⟩ := Prod.mk.inj (Except.ok.inj h)
            exact .task hassign hkeyword htask
          · cases h
        · split at h
          · rename_i hkeyword
            exact .namespaced hassign hkeyword h
          · cases h
  · intro h
    cases h with
    | closing hbrace => rw [declaration, hbrace]
    | assignment hassign hvalue =>
        rw [declaration, eat_brace_of_assignment hassign, hassign]
        dsimp only
        rw [hvalue]
    | task hassign hkeyword htask =>
        have hbrace : eat ['}'] s = none := by
          rw [eat_of_eatKeyword hkeyword]
          rfl
        rw [declaration, hbrace, hassign, hkeyword]
        dsimp only
        rw [htask]
    | namespaced hassign hkeyword hnamespace =>
        have hothers : eat ['}'] s = none ∧ eatKeyword "task".toList s = none := by
          rw [eat_of_eatKeyword hkeyword]
          exact ⟨rfl, rfl⟩
        rw [declaration, hothers.1, hassign, hothers.2, hkeyword]
        exact hnamespace

end Item

/-! ## From a text to its items -/

/-- Reading a text gives items, and the error that stops it, if one does. -/
inductive Reads : Text → List Item → Option (ParseError Text) → Prop
  | atEnd {s : Text} {doc : List Text} (hlead : leadingComments [] s = (doc, [])) : Reads s [] none
  | noItem {s rest : Text} {doc : List Text} {c : Char} {e : ParseError Text}
      (hlead : leadingComments [] s = (doc, c :: rest))
      (hitem : declaration doc (c :: rest) = .error e) : Reads s [] (some e)
  | noEnd {s rest after : Text} {doc : List Text} {c : Char} {item : Item} {e : ParseError Text}
      (hlead : leadingComments [] s = (doc, c :: rest))
      (hitem : declaration doc (c :: rest) = .ok (item, after))
      (hend : item.behind after = .error e) : Reads s [item] (some e)
  | item {s rest after next : Text} {doc : List Text} {c : Char} {item : Item} {found : List Item}
      {failure : Option (ParseError Text)} (hlead : leadingComments [] s = (doc, c :: rest))
      (hitem : declaration doc (c :: rest) = .ok (item, after))
      (hend : item.behind after = .ok next) (hlater : Reads next found failure) :
      Reads s (item :: found) failure

/-- **THE READER RUNS** to the items of the text. -/
theorem reads_items (s : Text) : Reads s (items s).1 (items s).2 := by
  -- an item takes at least one character, so the text behind it is shorter
  induction hlength : s.length using Nat.strongRecOn generalizing s with
  | _ n ih =>
      rw [items_eq]
      cases hlead : leadingComments [] s with
      | mk doc t =>
          cases t with
          | nil => exact .atEnd hlead
          | cons c rest =>
              rw [itemsFrom]
              cases hitem : declaration doc (c :: rest) with
              | error e => exact .noItem hlead hitem
              | ok read =>
                  obtain ⟨item, after⟩ := read
                  dsimp only
                  cases hend : item.behind after with
                  | error e => exact .noEnd hlead hitem hend
                  | ok next =>
                      have hshorter : next.length < n := by
                        have hlines := (leadingComments_suffix [] s).length_le
                        rw [hlead, hlength] at hlines
                        exact Nat.lt_of_le_of_lt (behind_suffix hend).length_le
                          (Nat.lt_of_lt_of_le (length_declaration_lt hitem) hlines)
                      exact .item hlead hitem hend (ih _ hshorter next rfl)

/-! ## From items to a file -/

namespace Nesting

/-- What putting an item where it belongs can do. -/
inductive Adds (n : Nesting) : Item → Nesting → Prop
  | variable (v : Variable) : Adds n (.variable v) (n.addVariable v)
  | task (declared : Task) : Adds n (.task declared) (n.addTask declared)
  | opening {name : String} {start brace : Text}
      (hform : n.blocks = [] → n.file.fileNamespace = none) :
      Adds n (.opening name start brace) { n with blocks := ⟨brace, { name }⟩ :: n.blocks }
  | closing {place : Text} {block : OpenBlock} {outer : List OpenBlock}
      (hblocks : n.blocks = block :: outer) :
      Adds n (.closing place) (addNamespace { n with blocks := outer } block.content)
  | fileNamespace {name : String} {start after : Text} (hblocks : n.blocks = [])
      (hform : n.file.fileNamespace = none ∧ n.file.namespaces = []) :
      Adds n (.fileNamespace name start after)
        { n with file := { n.file with fileNamespace := some name } }

theorem adds_of_add {n m : Nesting} {item : Item} (h : n.add item = .ok m) : n.Adds item m := by
  cases item with
  | «variable» v =>
      obtain rfl := Except.ok.inj h
      exact .variable v
  | task declared =>
      obtain rfl := Except.ok.inj h
      exact .task declared
  | opening name start brace =>
      rw [add, openBlock] at h
      split at h
      · cases h
      · rename_i hform
        obtain rfl := Except.ok.inj h
        refine .opening ?_
        intro hblocks
        cases hown : n.file.fileNamespace with
        | none => rfl
        | some own => exact absurd hown (hform own hblocks)
  | closing place =>
      rw [add, closeBlock] at h
      split at h
      · cases h
      · rename_i hblocks
        obtain rfl := Except.ok.inj h
        exact .closing hblocks
  | fileNamespace name start after =>
      rw [add, nameFile] at h
      split at h
      · cases h
      · cases h
      · rename_i hblocks hnone
        split at h
        · rename_i hnamespaces
          obtain rfl := Except.ok.inj h
          exact .fileNamespace hblocks ⟨hnone, List.isEmpty_iff.mp hnamespaces⟩
        · cases h

/-- **WHAT EACH ITEM PRESERVES HOLDS AT THE END.** -/
theorem addAll_preserves {P : Nesting → Prop} {found : List Item} {n m : Nesting}
    (hadd : ∀ item ∈ found, ∀ n m : Nesting, P n → n.add item = .ok m → P m) (hn : P n)
    (h : n.addAll found = .ok m) : P m := by
  induction found generalizing n with
  | nil =>
      cases h
      exact hn
  | cons item found ih =>
      rw [addAll] at h
      cases hitem : n.add item with
      | error e =>
          rw [hitem] at h
          cases h
      | ok next =>
          rw [hitem] at h
          exact ih (fun other hmem => hadd other (List.mem_cons_of_mem _ hmem))
            (hadd item List.mem_cons_self n next hn hitem) h

/-- An error comes from an item, where all that each item preserves still holds. -/
theorem exists_of_addAll_error {P : Nesting → Prop} {found : List Item} {n : Nesting}
    {e : ParseError Text}
    (hadd : ∀ item ∈ found, ∀ n m : Nesting, P n → n.add item = .ok m → P m) (hn : P n)
    (h : n.addAll found = .error e) :
    ∃ item ∈ found, ∃ m : Nesting, P m ∧ m.add item = .error e := by
  induction found generalizing n with
  | nil => cases h
  | cons item found ih =>
      rw [addAll] at h
      cases hitem : n.add item with
      | error e' =>
          rw [hitem] at h
          obtain rfl := Except.error.inj h
          exact ⟨item, List.mem_cons_self, n, hn, hitem⟩
      | ok next =>
          rw [hitem] at h
          obtain ⟨other, hmem, m, hm, herror⟩ :=
            ih (fun other hmem => hadd other (List.mem_cons_of_mem _ hmem))
              (hadd item List.mem_cons_self n next hn hitem) h
          exact ⟨other, List.mem_cons_of_mem _ hmem, m, hm, herror⟩

end Nesting

/-- A text is refused by an item where it stands, by a place without an item, or by an open block at
its end. -/
theorem TaskFile.read_error {s : Text} {e : ParseError Text} (h : read s = .error e) :
    Nesting.empty.addAll (items s).1 = .error e ∨ (items s).2 = some e ∨
      ∃ n, Nesting.empty.addAll (items s).1 = .ok n ∧ n.finish = .error e := by
  rw [read] at h
  cases hadd : Nesting.empty.addAll (items s).1 with
  | error e' =>
      simp only [hadd] at h
      obtain rfl := Except.error.inj h
      exact Or.inl rfl
  | ok n =>
      cases hfailure : (items s).2 with
      | some e' =>
          simp only [hadd, hfailure] at h
          obtain rfl := Except.error.inj h
          exact Or.inr (Or.inl rfl)
      | none =>
          simp only [hadd, hfailure] at h
          exact Or.inr (Or.inr ⟨n, rfl, h⟩)

end TaskRunner
