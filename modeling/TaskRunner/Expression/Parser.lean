import TaskRunner.Expression.Basic
import TaskRunner.ParseError
import TaskRunner.Text.Escape
import TaskRunner.Text.Quoted

/-!
# Reading expressions

An expression is a chain of operands with `||` between them, blanks around each
operand, and nothing else. An operand is a word followed by any number of `.word`, or
a string in double quotes. A chain groups to the left.

A fault is reported with the text still to come where it shows; `Expression.parse`
makes a `ParseError` of it. Every operand leaves a rest that is not longer
(`length_operand_le`), and `||` takes two characters, so a chain ends.
-/

namespace TaskRunner.Expression

open Text

/-- A fault and the text still to come where it shows. -/
abbrev Fault := ExpressionFault × Text

/-- The accesses `.word` behind an operand read so far. -/
def accesses (object : Expression) : Text → Except Fault (Expression × Text)
  | [] => .ok (object, [])
  | c :: rest =>
    if c = '.' then
      if (rest.takeWhile isWordChar).isEmpty then .error (.noProperty, rest)
      else accesses (.access object (String.ofList (rest.takeWhile isWordChar)))
        (rest.dropWhile isWordChar)
    else .ok (object, c :: rest)
termination_by s => s.length
decreasing_by
  have := (List.dropWhile_suffix isWordChar (l := rest)).length_le
  simp only [List.length_cons]
  omega

/-- One operand: a string in double quotes, or a word with its accesses. -/
def operand : Text → Except Fault (Expression × Text)
  | [] => .error (.empty, [])
  | c :: rest =>
    if c = '"' then
      match quotedSpan '"' rest with
      | some (inside, rest) => .ok (.literal (String.ofList (unescape inside)), rest)
      | none => .error (.unterminatedString, c :: rest)
    else if ((c :: rest).takeWhile isWordChar).isEmpty then .error (.noOperand, c :: rest)
    else accesses (.identifier (String.ofList ((c :: rest).takeWhile isWordChar)))
      ((c :: rest).dropWhile isWordChar)

theorem length_accesses_le {object result : Expression} {s rest : Text}
    (h : accesses object s = .ok (result, rest)) : rest.length ≤ s.length := by
  fun_induction accesses object s with
  | case1 =>
    simp only [Except.ok.injEq, Prod.mk.injEq] at h
    exact Nat.le_of_eq (by rw [h.2])
  | case2 => exact absurd h (by simp)
  | case3 object s _ ih =>
    have := (List.dropWhile_suffix isWordChar (l := s)).length_le
    have := ih h
    simp only [List.length_cons]
    omega
  | case4 =>
    simp only [Except.ok.injEq, Prod.mk.injEq] at h
    exact Nat.le_of_eq (by rw [h.2])

theorem length_operand_le {result : Expression} {s rest : Text}
    (h : operand s = .ok (result, rest)) : rest.length ≤ s.length := by
  unfold operand at h
  split at h
  · exact absurd h (by simp)
  · rename_i c s
    split at h
    · split at h
      · rename_i hspan
        simp only [Except.ok.injEq, Prod.mk.injEq] at h
        rw [← h.2]
        have := length_quotedSpan_lt hspan
        simp only [List.length_cons]
        omega
      · exact absurd h (by simp)
    · split at h
      · exact absurd h (by simp)
      · have := (List.dropWhile_suffix isWordChar (l := c :: s)).length_le
        have := length_accesses_le h
        omega

/-- Behind a `||` and an operand less of the text is to come. -/
theorem length_alternative_lt {right : Expression} {s rest after : Text}
    (h : eat ['|', '|'] (skipSpacing s) = some rest)
    (hr : operand (skipSpacing rest) = .ok (right, after)) : after.length < s.length := by
  have h1 := length_operand_le hr
  have h2 := length_skipSpacing_le rest
  have h3 := length_skipSpacing_le s
  rw [eat_eq_some_iff.1 h] at h3
  simp only [List.length_append, List.length_cons, List.length_nil] at h3
  omega

/-- The operands that follow the expression read so far, each behind a `||`. -/
def alternatives (left : Expression) (s : Text) : Except Fault Expression :=
  match h : eat ['|', '|'] (skipSpacing s) with
  | none =>
    if (skipSpacing s).isEmpty then .ok left
    else .error (.leftover (String.ofList (trimEnd (skipSpacing s))), skipSpacing s)
  | some rest =>
    match hr : operand (skipSpacing rest) with
    | .error fault => .error fault
    | .ok (right, after) =>
      have : after.length < s.length := length_alternative_lt h hr
      alternatives (.either left right) after
termination_by s.length

/-- Reads a whole text as an expression, or finds the fault that keeps it from being one. -/
def read (s : Text) : Except Fault Expression :=
  match operand (skipSpacing s) with
  | .error fault => .error fault
  | .ok (first, rest) => alternatives first rest

/-- Reads a whole text as an expression. The error quotes the text without the blanks around it. -/
def parse (s : Text) : Except (ParseError Text) Expression :=
  match read s with
  | .ok e => .ok e
  | .error (fault, place) => .error (.invalidExpression (String.ofList (trim s)) fault place)

end TaskRunner.Expression
