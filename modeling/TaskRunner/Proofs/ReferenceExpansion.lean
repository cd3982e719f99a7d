import TaskRunner.Command.Render
import TaskRunner.Proofs.EchoWords
import TaskRunner.Proofs.CommandSpelling

/-! # References on command lines and in quoted values

    References are read in two places.  A command line is cut into elements and rendered for a
    shell; a quoted value has its references expanded where they stand.  The names that have
    no value stay on a command line, with their dollar sign, and vanish in a quoted value.

    In front of a text without braces and backticks the two agree on each step: a dollar sign
    and a word are a reference (`Text.reference?_of_word`), a dollar sign and anything else
    are not (`Text.reference?_of_stop`), and no reference begins in a run of plain characters.
    So **a line is rendered by expanding it** (`Command.render_parseLine`), if the names
    without a value are made to stand for themselves.  Neither looks again at what it put in
    for a reference. -/

namespace TaskRunner

open Text

namespace Text

/-! ## References -/

/-- A word behind a dollar sign is the name of a reference. -/
theorem reference?_of_word {s : Text} (h : ¬ (s.takeWhile isWordChar).isEmpty = true) :
    reference? s = some (s.takeWhile isWordChar, s.dropWhile isWordChar) := by
  cases s with
  | nil => exact absurd rfl h
  | cons c s =>
      have hc : isWordChar c = true := by
        by_contra hc
        rw [List.takeWhile_cons_of_neg hc] at h
        exact h rfl
      rw [reference?, if_pos hc]

/-- Where neither a word nor a brace stands behind a dollar sign, there is no reference. -/
theorem reference?_of_stop {s : Text} (h : (s.takeWhile isWordChar).isEmpty = true)
    (hbrace : s.head? ≠ some '{') : reference? s = none := by
  cases s with
  | nil => rfl
  | cons c s =>
      have hc : ¬ isWordChar c = true := by
        intro hc
        rw [List.takeWhile_cons_of_pos hc] at h
        cases h
      have hne : c ≠ '{' := fun hc => hbrace (by rw [hc]; rfl)
      rw [reference?, if_neg hc, if_neg hne]

theorem expand_of_reference {s name rest : Text} (h : reference? s = some (name, rest))
    (lookup : Lookup) :
    expand lookup ('$' :: s)
      = ((lookup (String.ofList name)).getD "").toList ++ expand lookup rest := by
  rw [expand, if_pos rfl]
  split
  · rename_i hsome
    obtain ⟨rfl, rfl⟩ := Prod.mk.inj (Option.some.inj (hsome.symm.trans h))
    rfl
  · rename_i hnone
    cases hnone.symm.trans h

theorem expand_of_no_reference {s : Text} (h : reference? s = none) (lookup : Lookup) :
    expand lookup ('$' :: s) = '$' :: expand lookup s := by
  rw [expand, if_pos rfl]
  split
  · rename_i hsome
    cases hsome.symm.trans h
  · rfl

end Text

namespace Element

/-! ## Rendered elements -/

/-- The elements of a line as a shell gets them, in one text. -/
def rendered (lookup : Lookup) (es : List Element) : Text :=
  es.flatMap fun e => (e.render lookup).toList

theorem rendered_joinTexts (lookup : Lookup) (es : List Element) :
    rendered lookup (joinTexts es) = rendered lookup es := by
  fun_induction joinTexts es with
  | case1 => rfl
  | case2 value rest more others hjoined ih =>
      rw [hjoined] at ih
      simp only [rendered, List.flatMap_cons, render, String.toList_append] at ih ⊢
      rw [List.append_assoc, ih]
  | case3 value rest hjoined ih => exact congrArg (value.toList ++ ·) ih
  | case4 e rest hother ih => exact congrArg ((e.render lookup).toList ++ ·) ih

/-- What names stand for on a command line: those without a value for their references. -/
def kept (lookup : Lookup) : Lookup := fun name => some ((lookup name).getD ("$" ++ name))

/-- **A PIECE IS RENDERED BY EXPANDING WHAT IT TAKES**, if that is neither in braces nor in
    backticks. -/
theorem expand_next {c : Char} {rest : Text} (hbrace : '{' ∉ c :: rest) (htick : c ≠ '`')
    (lookup : Lookup) :
    expand (kept lookup) (c :: rest)
      = ((next c rest).1.render lookup).toList ++ expand (kept lookup) (next c rest).2 := by
  rw [List.mem_cons, not_or] at hbrace
  fun_cases next c rest with
  | case6 _ _ _ hc hnone =>
      subst hc
      have hhead : rest.head? ≠ some '{' := fun h => hbrace.2 (List.mem_of_mem_head? h)
      rw [expand_of_no_reference (reference?_of_stop hnone hhead), ofText, render,
        String.toList_ofList]
      rfl
  | case7 _ _ _ hc hword =>
      subst hc
      rw [expand_of_reference (reference?_of_word hword)]
      rfl
  | case8 _ _ _ hdollar =>
      have hplain : '$' ∉ c :: rest.takeWhile isPlain := by
        rw [List.mem_cons, not_or]
        exact ⟨Ne.symm hdollar, fun h => absurd (List.mem_takeWhile_imp h) (by decide)⟩
      have hline : c :: rest = (c :: rest.takeWhile isPlain) ++ rest.dropWhile isPlain := by
        rw [List.cons_append, List.takeWhile_append_dropWhile]
      rw [hline, expand_append_of_plain hplain, ofText, render, String.toList_ofList]
  | case1 hc | case2 hc | case3 _ hc => exact absurd hc (Ne.symm hbrace.1)
  | case4 _ _ hc | case5 _ _ hc => exact absurd hc htick

/-- **PIECES ARE RENDERED BY EXPANDING THE LINE**, if no brace and no backtick is in it. -/
theorem rendered_pieces {line : Text} (hbrace : '{' ∉ line) (htick : '`' ∉ line)
    (lookup : Lookup) : rendered lookup (pieces line) = expand (kept lookup) line := by
  fun_induction pieces line with
  | case1 => rw [expand]; rfl
  | case2 c rest ih =>
      have hsub : (next c rest).2 ⊆ c :: rest := by
        obtain ⟨s, -, hs⟩ := next_spells c rest
        rw [hs]
        exact List.subset_append_right _ _
      have hpieces := ih (fun h => hbrace (hsub h)) (fun h => htick (hsub h))
      have hc : c ≠ '`' := fun hc => htick (hc ▸ List.mem_cons_self)
      rw [expand_next hbrace hc, ← hpieces]
      rfl

end Element

namespace Command

/-- **THE TWO READINGS OF REFERENCES AGREE**: a command line without braces and backticks is
    rendered as a quoted value of the same text is expanded, where a name without a value
    stands for its reference. -/
theorem render_parseLine {line : Text} (hbrace : '{' ∉ line) (htick : '`' ∉ line)
    (lookup : Lookup) (silent mayFail : Bool) :
    render lookup ⟨Element.parseLine line, silent, mayFail⟩
      = expanded (Element.kept lookup) (String.ofList line) := by
  have hrendered : Element.rendered lookup (Element.parseLine line)
      = expand (Element.kept lookup) line :=
    (Element.rendered_joinTexts lookup _).trans (Element.rendered_pieces hbrace htick lookup)
  rw [expanded, String.toList_ofList]
  refine String.toList_injective ?_
  rw [String.toList_ofList, render, String.toList_join, List.flatMap_map]
  exact hrendered

/-- A value with a dollar sign in it, two dollar signs in a row, and one at the end. -/
theorem costing_is_expanded :
    '{' ∉ "$$price for $who, $".toList ∧ '`' ∉ "$$price for $who, $".toList
      ∧ render (fun name => if name = "price" then some "$who" else none)
          ⟨Element.parseLine "$$price for $who, $".toList, false, false⟩ = "$$who for $who, $" := by
  have hbrace : '{' ∉ "$$price for $who, $".toList := by decide
  have htick : '`' ∉ "$$price for $who, $".toList := by decide
  refine ⟨hbrace, htick, ?_⟩
  rw [render_parseLine hbrace htick]
  decide +kernel

end Command

end TaskRunner
