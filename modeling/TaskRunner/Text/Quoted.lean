import TaskRunner.Text.Scan

/-!
# Quoted spans

A quoted span runs from an opening mark to the next mark that no backslash escapes.
`quotedSpan` reads behind the opening mark and gives the text inside as it is
written, with its escapes. `append_of_quotedSpan` says that nothing else is taken.
-/

namespace TaskRunner.Text

/-- The text inside a span whose opening `mark` was just read, and the rest behind the closing
mark; `none` if the span never closes. -/
def quotedSpan (mark : Char) : Text → Option (Text × Text)
  | [] => none
  | c :: rest =>
    if c = '\\' then
      match rest with
      | [] => none
      | d :: rest => (quotedSpan mark rest).map fun span => (c :: d :: span.1, span.2)
    else if c = mark then some ([], rest)
    else (quotedSpan mark rest).map fun span => (c :: span.1, span.2)

/-- A span that closes is its inside, the mark, and the rest. -/
theorem append_of_quotedSpan {mark : Char} {s inside rest : Text}
    (h : quotedSpan mark s = some (inside, rest)) : s = inside ++ mark :: rest := by
  fun_induction quotedSpan mark s generalizing inside with
  | case1 => exact absurd h (by simp)
  | case2 => exact absurd h (by simp)
  | case3 d s ih =>
    obtain ⟨span, hspan, heq⟩ := Option.map_eq_some_iff.1 h
    simp only [Prod.mk.injEq] at heq
    obtain ⟨rfl, rfl⟩ := heq
    simp [← ih hspan]
  | case4 s hne =>
    simp only [Option.some.injEq, Prod.mk.injEq] at h
    obtain ⟨rfl, rfl⟩ := h; rfl
  | case5 c s hne hmark ih =>
    obtain ⟨span, hspan, heq⟩ := Option.map_eq_some_iff.1 h
    simp only [Prod.mk.injEq] at heq
    obtain ⟨rfl, rfl⟩ := heq
    simp [← ih hspan]

/-- The closing mark is passed at least. -/
theorem length_quotedSpan_lt {mark : Char} {s inside rest : Text}
    (h : quotedSpan mark s = some (inside, rest)) : rest.length < s.length := by
  rw [append_of_quotedSpan h]
  simp only [List.length_append, List.length_cons]
  omega

/-- What is left behind it is an end of the text. -/
theorem suffix_of_quotedSpan {mark : Char} {s inside rest : Text}
    (h : quotedSpan mark s = some (inside, rest)) : rest <:+ s := by
  rw [append_of_quotedSpan h]
  exact (List.suffix_cons _ _).trans (List.suffix_append _ _)

end TaskRunner.Text
