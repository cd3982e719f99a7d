import TaskRunner.TaskFile.Item.Length

/-!
# All items of a text

`items` reads a whole text into its items and, if reading stops before the end, the error
that stopped it.

Comment lines directly above a task are its description; a blank line detaches them
(`leadingComments`).
-/

namespace TaskRunner

open Text

namespace Item

/-- The text of a comment line, without its mark. -/
def commentText (line : Text) : Text := trim (line.drop 1)

/-- The comment lines that stand directly above what comes next, behind the comment lines `doc`,
and the text from what comes next. More than one line feed in a row detaches the lines above. -/
def leadingComments (doc : List Text) (s : Text) : List Text × Text :=
  let doc := if 1 < leadingLineFeeds s then [] else doc
  match h : skipSpacing s with
  | [] => (doc, [])
  | c :: rest =>
    if hc : c = '#' then
      have : (splitLine (c :: rest)).2.length < s.length :=
        Nat.lt_of_lt_of_le (length_splitLine_lt (by simp [hc]) (by simp [hc]))
          (h ▸ length_skipSpacing_le s)
      leadingComments (doc ++ [commentText (splitLine (c :: rest)).1]) (splitLine (c :: rest)).2
    else (doc, c :: rest)
termination_by s.length

/-- Nothing stands above what comes next if that is no comment. -/
theorem leadingComments_of_ne {s rest : Text} {c : Char} (h : skipSpacing s = c :: rest)
    (hc : c ≠ '#') : leadingComments [] s = ([], c :: rest) := by
  rw [leadingComments]
  split
  · rename_i heq
    cases heq.symm.trans h
  · rename_i heq
    obtain ⟨rfl, rfl⟩ := List.cons.inj (heq.symm.trans h)
    rw [dif_neg hc, ite_self]

/-- What stands behind an item. The opening of a block ends nothing. -/
def behind (item : Item) (s : Text) : Except (ParseError Text) Text :=
  match item with
  | .opening .. => .ok s
  | _ => endOfItem s

theorem leadingComments_suffix (doc : List Text) (s : Text) : (leadingComments doc s).2 <:+ s := by
  fun_induction leadingComments doc s with
  | case1 => exact List.nil_suffix
  | case2 =>
    rename_i h _ ih
    exact ih.trans ((splitLine_suffix _).trans (h ▸ List.dropWhile_suffix isSpacing))
  | case3 _ s => rename_i h _; exact h ▸ List.dropWhile_suffix isSpacing

theorem behind_suffix {item : Item} {s rest : Text} (h : item.behind s = .ok rest) :
    rest <:+ s := by
  unfold behind at h
  split at h
  · cases h
    exact List.suffix_rfl
  · exact endOfItem_suffix h

end Item

open Item in
/-- The items of a text in order, and the error that stopped the reading, if one did. -/
def items (s : Text) : List Item × Option (ParseError Text) :=
  match hlead : leadingComments [] s with
  | (_, []) => ([], none)
  | (doc, c :: rest) =>
    match hitem : declaration doc (c :: rest) with
    | .error e => ([], some e)
    | .ok (item, after) =>
      match hend : item.behind after with
      | .error e => ([item], some e)
      | .ok next =>
        have : next.length < s.length := by
          have h1 := (behind_suffix hend).length_le
          have h2 := length_declaration_lt hitem
          have h3 := (leadingComments_suffix [] s).length_le
          rw [hlead] at h3
          exact Nat.lt_of_le_of_lt h1 (Nat.lt_of_lt_of_le h2 h3)
        (item :: (items next).1, (items next).2)
termination_by s.length

/-- Blank text has no items. -/
theorem items_of_blank {s : Text} (h : skipSpacing s = []) : items s = ([], none) := by
  have hlead : (Item.leadingComments [] s).2 = [] := by
    rw [Item.leadingComments]
    split
    · rfl
    · rename_i heq
      cases heq.symm.trans h
  rw [items]
  split
  · rfl
  · rename_i heq
    rw [heq] at hlead
    cases hlead

/-- An item that no comment stands above comes before the items of the text behind it. -/
theorem items_cons {s rest after next : Text} {c : Char} {item : Item}
    (hstart : skipSpacing s = c :: rest) (hplain : c ≠ '#')
    (hitem : Item.declaration [] (c :: rest) = .ok (item, after))
    (hend : item.behind after = .ok next) :
    items s = (item :: (items next).1, (items next).2) := by
  have hlead := Item.leadingComments_of_ne hstart hplain
  rw [items]
  split
  · rename_i heq
    cases heq.symm.trans hlead
  · rename_i heq
    cases heq.symm.trans hlead
    split
    · rename_i heq
      cases heq.symm.trans hitem
    · rename_i heq
      cases heq.symm.trans hitem
      split
      · rename_i heq
        cases heq.symm.trans hend
      · rename_i heq
        cases heq.symm.trans hend
        rfl

end TaskRunner
