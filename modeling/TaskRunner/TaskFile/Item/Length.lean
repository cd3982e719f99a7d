import TaskRunner.TaskFile.Item.Basic

/-!
# Items take text away

Each reader of `Item` leaves an end of the text that it was given, and an item takes at
least one character (`declaration_suffix_tail`). So a text has finitely many items.

The readers compose scanners that leave an end of their text, so each lemma chains the
lemmas of the scanners that its reader runs.
-/

namespace TaskRunner

open Text

namespace Item

-- ── Variables ────────────────────────────────────────────────────────────────

/-- The line end that may stand directly behind three quotes. -/
theorem firstLineEnd_suffix (s : Text) :
    (eat ['\r', '\n'] s <|> eat ['\n'] s).getD s <:+ s := by
  cases hreturn : eat ['\r', '\n'] s with
  | some rest => exact suffix_of_eat hreturn
  | none =>
    cases hfeed : eat ['\n'] s with
    | some rest => exact suffix_of_eat hfeed
    | none => exact List.suffix_rfl

/-- Behind a value of many lines stands the text behind its closing quotes. -/
theorem multiline_suffix {start s rest : Text} {v : Value}
    (h : multiline start s = .ok (v, rest)) : rest <:+ s := by
  unfold multiline at h
  dsimp only at h
  split at h
  · rename_i hafter
    obtain ⟨-, rfl⟩ := Prod.mk.inj (Except.ok.inj h)
    exact (suffix_of_upThrough hafter).trans (firstLineEnd_suffix s)
  · cases h

/-- The same behind a command and the mark that closes it. -/
theorem substitution_suffix {start s rest : Text} {v : Value}
    (h : substitution start s = .ok (v, rest)) : rest <:+ s := by
  unfold substitution at h
  split at h
  · rename_i hafter
    obtain ⟨-, rfl⟩ := Prod.mk.inj (Except.ok.inj h)
    exact suffix_of_upThrough hafter
  · cases h

/-- Braces whose expression is refused leave no rest, so only the end of the braces counts. -/
theorem bracedExpression_suffix {start s rest : Text} {v : Value}
    (h : bracedExpression start s = .ok (v, rest)) : rest <:+ s := by
  unfold bracedExpression at h
  split at h
  · cases h
  · rename_i hafter
    split at h
    · obtain ⟨-, rfl⟩ := Prod.mk.inj (Except.ok.inj h)
      exact suffix_of_upThrough hafter
    · cases h

/-- A quoted string ends behind its mark. -/
theorem quotedString_suffix {start s rest : Text} {v : Value}
    (h : quotedString start s = .ok (v, rest)) : rest <:+ s := by
  unfold quotedString at h
  split at h
  · rename_i hafter
    obtain ⟨-, rfl⟩ := Prod.mk.inj (Except.ok.inj h)
    exact suffix_of_quotedSpan hafter
  · cases h

/-- However a value begins, what is left behind it is an end of the text. -/
theorem value_suffix {s rest : Text} {v : Value} (h : value s = .ok (v, rest)) : rest <:+ s := by
  unfold value at h
  split at h
  · rename_i hstart
    exact (multiline_suffix h).trans (suffix_of_eat hstart)
  · split at h
    · rename_i hstart
      exact (substitution_suffix h).trans (suffix_of_eat hstart)
    · split at h
      · rename_i hstart
        exact (bracedExpression_suffix h).trans (suffix_of_eat hstart)
      · split at h
        · rename_i hstart
          exact (quotedString_suffix h).trans (suffix_of_eat hstart)
        · cases h

/-- The name of a variable takes at least one character. -/
theorem assignment?_suffix {s name rest : Text} (h : assignment? s = some (name, rest)) :
    ∃ c tail, s = c :: tail ∧ rest <:+ tail := by
  unfold assignment? at h
  dsimp only at h
  split at h
  · cases h
  · rename_i hname
    split at h
    · cases h
    · obtain ⟨after, hafter, heq⟩ := Option.map_eq_some_iff.1 h
      obtain ⟨-, rfl⟩ := Prod.mk.inj heq
      have hrest : skipInline after <:+ s.dropWhile isWordChar :=
        (List.dropWhile_suffix _).trans ((suffix_of_eat hafter).trans (List.dropWhile_suffix _))
      cases s with
      | nil => exact absurd rfl hname
      | cons c tail =>
        by_cases hc : isWordChar c = true
        · rw [List.dropWhile_cons_of_pos hc] at hrest
          exact ⟨c, tail, rfl, hrest.trans (List.dropWhile_suffix _)⟩
        · rw [List.takeWhile_cons_of_neg hc] at hname
          exact absurd rfl hname

-- ── Tasks ────────────────────────────────────────────────────────────────────

/-- Without a list of arguments nothing is passed, with one the text up to the blanks behind it. -/
theorem arguments_suffix {s rest : Text} {names : List String}
    (h : arguments s = .ok (names, rest)) : rest <:+ s := by
  unfold arguments at h
  split at h
  · obtain ⟨-, rfl⟩ := Prod.mk.inj (Except.ok.inj h)
    exact List.suffix_rfl
  · rename_i hstart
    split at h
    · cases h
    · rename_i hafter
      obtain ⟨-, rfl⟩ := Prod.mk.inj (Except.ok.inj h)
      exact ((List.dropWhile_suffix _).trans (suffix_of_upThrough hafter)).trans
        (suffix_of_eat hstart)

/-- Dependencies are cut off at a brace or at the end of the line, and never fail. -/
theorem dependencies_suffix (s : Text) : (dependencies s).2 <:+ s := by
  rw [dependencies]
  split
  · exact List.suffix_rfl
  · rename_i hstart
    exact (List.dropWhile_suffix _).trans (suffix_of_eat hstart)

/-- A task without a body leaves its text as it is, blanks included. -/
theorem body_suffix {s rest : Text} {commands : List Command}
    (h : body s = .ok (commands, rest)) : rest <:+ s := by
  unfold body at h
  split at h
  · obtain ⟨-, rfl⟩ := Prod.mk.inj (Except.ok.inj h)
    exact List.suffix_rfl
  · rename_i hstart
    split at h
    · rename_i hblock
      obtain ⟨-, rfl⟩ := Prod.mk.inj (Except.ok.inj h)
      exact ((List.drop_suffix _ _).trans ⟨_, (append_of_scanBlock hblock).1.symm⟩).trans
        ((suffix_of_eat hstart).trans (List.dropWhile_suffix _))
    · cases h
    · cases h

/-- A task passes its name, its arguments, its dependencies and its body, in this order. -/
theorem taskDeclaration_suffix {description : Option String} {s rest : Text} {task : Task}
    (h : taskDeclaration description s = .ok (task, rest)) : rest <:+ s := by
  unfold taskDeclaration at h
  dsimp only at h
  split at h
  · cases h
  · split at h
    · cases h
    · rename_i hargs
      split at h
      · cases h
      · rename_i hbody
        obtain ⟨-, rfl⟩ := Prod.mk.inj (Except.ok.inj h)
        have hhead : skipInline ((skipInline s).dropWhile isTaskNameChar) <:+ s :=
          (List.dropWhile_suffix _).trans
            ((List.dropWhile_suffix _).trans (List.dropWhile_suffix _))
        exact (body_suffix hbody).trans
          ((dependencies_suffix _).trans ((arguments_suffix hargs).trans hhead))

-- ── Namespaces ───────────────────────────────────────────────────────────────

/-- A namespace passes its name, and the brace if it opens a block. -/
theorem namespaceDeclaration_suffix {start s rest : Text} {item : Item}
    (h : namespaceDeclaration start s = .ok (item, rest)) : rest <:+ s := by
  unfold namespaceDeclaration at h
  dsimp only at h
  have hafter : skipInline ((skipInline s).dropWhile isWordChar) <:+ s :=
    (List.dropWhile_suffix _).trans ((List.dropWhile_suffix _).trans (List.dropWhile_suffix _))
  split at h
  · cases h
  · split at h
    · rename_i hbrace
      obtain ⟨-, rfl⟩ := Prod.mk.inj (Except.ok.inj h)
      exact (suffix_of_eat hbrace).trans hafter
    · obtain ⟨-, rfl⟩ := Prod.mk.inj (Except.ok.inj h)
      exact hafter

-- ── Items ────────────────────────────────────────────────────────────────────

/-- An item takes at least one character. -/
theorem declaration_suffix_tail {doc : List Text} {s rest : Text} {item : Item}
    (h : declaration doc s = .ok (item, rest)) : ∃ c tail, s = c :: tail ∧ rest <:+ tail := by
  unfold declaration at h
  split at h
  · rename_i hbrace
    obtain ⟨-, rfl⟩ := Prod.mk.inj (Except.ok.inj h)
    exact ⟨_, _, eat_eq_some_iff.1 hbrace, List.suffix_rfl⟩
  · split at h
    · rename_i hassign
      split at h
      · rename_i hvalue
        obtain ⟨-, rfl⟩ := Prod.mk.inj (Except.ok.inj h)
        obtain ⟨c, tail, hs, hrest⟩ := assignment?_suffix hassign
        exact ⟨c, tail, hs, (value_suffix hvalue).trans hrest⟩
      · cases h
    · split at h
      · rename_i hkeyword
        split at h
        · rename_i htask
          obtain ⟨-, rfl⟩ := Prod.mk.inj (Except.ok.inj h)
          exact ⟨'t', _, eat_of_eatKeyword hkeyword,
            (taskDeclaration_suffix htask).trans (List.suffix_append _ _)⟩
        · cases h
      · split at h
        · rename_i hkeyword
          exact ⟨'n', _, eat_of_eatKeyword hkeyword,
            (namespaceDeclaration_suffix h).trans (List.suffix_append _ _)⟩
        · cases h

/-- **WHAT IS LEFT BEHIND AN ITEM** is an end of the text, whatever the item is. -/
theorem declaration_suffix {doc : List Text} {s rest : Text} {item : Item}
    (h : declaration doc s = .ok (item, rest)) : rest <:+ s := by
  obtain ⟨c, tail, rfl, hrest⟩ := declaration_suffix_tail h
  exact hrest.trans (List.suffix_cons _ _)

/-- An item takes a character at least, so that reading items ends. -/
theorem length_declaration_lt {doc : List Text} {s rest : Text} {item : Item}
    (h : declaration doc s = .ok (item, rest)) : rest.length < s.length := by
  obtain ⟨c, tail, rfl, hrest⟩ := declaration_suffix_tail h
  exact Nat.lt_succ_of_le hrest.length_le

/-- A comment is passed up to its line feed, which stays. -/
theorem skipComment_suffix (s : Text) : skipComment s <:+ s := by
  rw [skipComment]
  split
  · exact (splitLine_suffix _).trans (List.dropWhile_suffix _)
  · exact List.dropWhile_suffix _

/-- Behind an item a line end is passed, while a closing brace stays. -/
theorem endOfItem_suffix {s rest : Text} (h : endOfItem s = .ok rest) : rest <:+ s := by
  unfold endOfItem at h
  split at h
  · rename_i hend
    cases h
    exact (suffix_of_eatLineEnd hend).trans (skipComment_suffix s)
  · split at h
    · cases h
      exact skipComment_suffix s
    · cases h

end Item

end TaskRunner
