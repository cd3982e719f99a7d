import TaskRunner.Text.Blank
import TaskRunner.Text.Name

/-!
# Scanners

A scanner looks at what is still to come of a text and says what it took and what
rests. A miss is `none`, so alternatives are tried one after the other on the same
text. Each scanner comes with one lemma that says which text it took: the text is
what was taken followed by the rest, so the rest is an end of the text and a loop
over scanners ends.
-/

namespace TaskRunner.Text

-- ── Fixed texts ──────────────────────────────────────────────────────────────

/-- The rest after `word`, if the text starts with it. -/
def eat : Text → Text → Option Text
  | [], s => some s
  | _ :: _, [] => none
  | w :: word, c :: rest => if w = c then eat word rest else none

/-- A word is eaten exactly when the text is the word and a rest. -/
theorem eat_eq_some_iff {word s rest : Text} : eat word s = some rest ↔ s = word ++ rest := by
  induction word generalizing s with
  | nil => simp [eat]
  | cons w word ih =>
    cases s with
    | nil => simp [eat]
    | cons c s =>
      simp only [eat, List.cons_append, List.cons.injEq]
      split
      · rename_i h; simp [h, ih]
      · rename_i h; simp [Ne.symm h]

theorem suffix_of_eat {word s rest : Text} (h : eat word s = some rest) : rest <:+ s :=
  ⟨word, (eat_eq_some_iff.1 h).symm⟩

/-- The rest after `word`, if the text starts with it and no task name runs on from it. -/
def eatKeyword (word s : Text) : Option Text :=
  match eat word s with
  | none => none
  | some [] => some []
  | some (c :: rest) => if isTaskNameChar c then none else some (c :: rest)

theorem eat_of_eatKeyword {word s rest : Text} (h : eatKeyword word s = some rest) :
    s = word ++ rest := by
  rw [← eat_eq_some_iff]
  unfold eatKeyword at h
  split at h
  · exact absurd h (by simp)
  · rename_i hs; rw [hs]; exact h
  · rename_i hs
    split at h
    · exact absurd h (by simp)
    · rw [hs]; exact h

theorem suffix_of_eatKeyword {word s rest : Text} (h : eatKeyword word s = some rest) :
    rest <:+ s :=
  ⟨word, (eat_of_eatKeyword h).symm⟩

/-- The text before the first place where `mark` starts, and the text from there. -/
def upTo (mark : Text) : Text → Option (Text × Text)
  | [] => if mark.isEmpty then some ([], []) else none
  | c :: rest =>
    if (eat mark (c :: rest)).isSome then some ([], c :: rest)
    else (upTo mark rest).map fun found => (c :: found.1, found.2)

/-- The text before the first `mark` and the text behind it. -/
def upThrough (mark s : Text) : Option (Text × Text) :=
  (upTo mark s).map fun found => (found.1, found.2.drop mark.length)

theorem append_of_upTo {mark s before rest : Text} (h : upTo mark s = some (before, rest)) :
    s = before ++ rest := by
  induction s generalizing before with
  | nil =>
    simp only [upTo] at h
    split at h
    · simp only [Option.some.injEq, Prod.mk.injEq] at h
      obtain ⟨rfl, rfl⟩ := h; rfl
    · exact absurd h (by simp)
  | cons c s ih =>
    simp only [upTo] at h
    split at h
    · simp only [Option.some.injEq, Prod.mk.injEq] at h
      obtain ⟨rfl, rfl⟩ := h; rfl
    · obtain ⟨found, hfound, heq⟩ := Option.map_eq_some_iff.1 h
      simp only [Prod.mk.injEq] at heq
      obtain ⟨rfl, rfl⟩ := heq
      rw [List.cons_append, ← ih hfound]

/-- What rests from the first mark on starts with the mark. -/
theorem eat_of_upTo {mark s before rest : Text} (h : upTo mark s = some (before, rest)) :
    rest = mark ++ rest.drop mark.length := by
  induction s generalizing before with
  | nil =>
    simp only [upTo] at h
    split at h
    · rename_i hm
      simp only [Option.some.injEq, Prod.mk.injEq] at h
      obtain ⟨-, rfl⟩ := h
      simp [List.isEmpty_iff.1 hm]
    · exact absurd h (by simp)
  | cons c s ih =>
    simp only [upTo] at h
    split at h
    · rename_i hm
      simp only [Option.some.injEq, Prod.mk.injEq] at h
      obtain ⟨-, rfl⟩ := h
      obtain ⟨after, hafter⟩ := Option.isSome_iff_exists.1 hm
      rw [eat_eq_some_iff] at hafter
      rw [hafter, List.drop_left]
    · obtain ⟨found, hfound, heq⟩ := Option.map_eq_some_iff.1 h
      simp only [Prod.mk.injEq] at heq
      obtain ⟨rfl, rfl⟩ := heq
      exact ih hfound

theorem append_of_upThrough {mark s before rest : Text}
    (h : upThrough mark s = some (before, rest)) : s = before ++ (mark ++ rest) := by
  obtain ⟨found, hfound, heq⟩ := Option.map_eq_some_iff.1 h
  simp only [Prod.mk.injEq] at heq
  obtain ⟨rfl, rfl⟩ := heq
  rw [← eat_of_upTo hfound]
  exact append_of_upTo hfound

theorem suffix_of_upThrough {mark s before rest : Text}
    (h : upThrough mark s = some (before, rest)) : rest <:+ s :=
  ⟨before ++ mark, by rw [List.append_assoc, ← append_of_upThrough h]⟩

theorem length_of_upThrough {mark s before rest : Text}
    (h : upThrough mark s = some (before, rest)) :
    s.length = before.length + (mark.length + rest.length) := by
  rw [append_of_upThrough h, List.length_append, List.length_append]

-- ── Blanks and lines of a task file ──────────────────────────────────────────

/-- A space or a tab: a blank inside a line. -/
def isInlineBlank (c : Char) : Bool := c == ' ' || c == '\t'

/-- A blank between declarations: a space, a tab, a carriage return or a line feed. -/
def isSpacing (c : Char) : Bool := c == ' ' || c == '\t' || c == '\r' || c == '\n'

/-- The text behind the spaces and tabs at its start. -/
def skipInline (s : Text) : Text := s.dropWhile isInlineBlank

/-- The text behind the blanks at its start, line feeds included. -/
def skipSpacing (s : Text) : Text := s.dropWhile isSpacing

/-- The number of line feeds among the blanks at the start of a text. -/
def leadingLineFeeds (s : Text) : Nat := (s.takeWhile isSpacing).count '\n'

/-- The rest behind a line end, which is a line feed, a carriage return and a line feed, or the
end of the text. -/
def eatLineEnd : Text → Option Text
  | [] => some []
  | c :: rest =>
    if c = '\n' then some rest
    else if c = '\r' then eat ['\n'] rest
    else none

/-- The text up to the end of its line, and the line end with what follows. A carriage return
before the line feed, or before the end of the text, belongs to the line end. -/
def splitLine (s : Text) : Text × Text :=
  let line := s.takeWhile (· != '\n')
  let rest := s.dropWhile (· != '\n')
  if line.getLast? = some '\r' then (line.dropLast, '\r' :: rest) else (line, rest)

theorem append_splitLine (s : Text) : (splitLine s).1 ++ (splitLine s).2 = s := by
  unfold splitLine
  dsimp only
  split
  · rename_i h
    obtain ⟨before, hb⟩ := List.getLast?_eq_some_iff.1 h
    conv => rhs; rw [← List.takeWhile_append_dropWhile (p := fun c => c != '\n') (l := s), hb]
    simp [hb]
  · exact List.takeWhile_append_dropWhile

theorem length_skipSpacing_le (s : Text) : (skipSpacing s).length ≤ s.length :=
  (List.dropWhile_suffix _).length_le

theorem suffix_of_eatLineEnd {s rest : Text} (h : eatLineEnd s = some rest) : rest <:+ s := by
  cases s with
  | nil => simp only [eatLineEnd, Option.some.injEq] at h; subst h; exact List.suffix_refl _
  | cons c s =>
    simp only [eatLineEnd] at h
    split at h
    · simp only [Option.some.injEq] at h; subst h; exact List.suffix_cons _ _
    · split at h
      · rw [eat_eq_some_iff] at h
        subst h
        exact (List.suffix_append _ _).trans (List.suffix_cons _ _)
      · exact absurd h (by simp)

/-- A line that does not start with its end takes at least one character. -/
theorem length_splitLine_lt {c : Char} {rest : Text} (hfeed : c ≠ '\n') (hreturn : c ≠ '\r') :
    (splitLine (c :: rest)).2.length < (c :: rest).length := by
  have htaken : (splitLine (c :: rest)).1 ≠ [] := by
    have hline : (c :: rest).takeWhile (· != '\n') = c :: rest.takeWhile (· != '\n') := by
      simp [hfeed]
    rw [splitLine]
    simp only [hline]
    split
    · rename_i h
      cases hr : rest.takeWhile (· != '\n') with
      | nil => simp [hr, hreturn] at h
      | cons d more => simp
    · simp
  have hlength := congrArg List.length (append_splitLine (c :: rest))
  rw [List.length_append] at hlength
  have hpos : 0 < (splitLine (c :: rest)).1.length := List.length_pos_iff.2 htaken
  omega

theorem splitLine_suffix (s : Text) : (splitLine s).2 <:+ s :=
  ⟨(splitLine s).1, append_splitLine s⟩

end TaskRunner.Text
