import TaskRunner.Command.Basic
import TaskRunner.Expression.Parser

/-!
# Reading command lines

A command line is cut from left to right, and at each place the first of these that
fits is taken: an expression between double braces, a span in backticks, a `$NAME`
reference, a run of other characters, and at last a single character. Nothing is
refused: braces that hold no expression, and marks that never close, are plain text.
`pieces` does the cutting and `joinTexts` makes one text of neighbouring ones.

`Command.parseBody` applies this to each line of a task's body that says something.
-/

namespace TaskRunner

open Text

-- ── The pieces of a line ─────────────────────────────────────────────────────

/-- A character at which no piece other than plain text can start. -/
def Text.isPlain (c : Char) : Bool := c != '{' && c != '`' && c != '$'

namespace Element

/-- A text element of the given characters. -/
def ofText (s : Text) : Element := .text (String.ofList s)

/-- The text between double braces is an expression, or plain text together with its braces. -/
def ofBraces (inside : Text) : Element :=
  match Expression.read inside with
  | .ok e => .expression e
  | .error _ => ofText (['{', '{'] ++ inside ++ ['}', '}'])

/-- The first piece of a line that starts with `c`, and the rest of the line. -/
def next (c : Char) (rest : Text) : Element × Text :=
  if c = '{' then
    match rest with
    | '{' :: inner =>
      match upThrough ['}', '}'] inner with
      | some (inside, after) => (ofBraces inside, after)
      | none => (ofText ['{', '{'], inner)
    | _ => (ofText ['{'], rest)
  else if c = '`' then
    match upThrough ['`'] rest with
    | some (inside, after) => (.backtick (String.ofList inside), after)
    | none => (ofText ['`'], rest)
  else if c = '$' then
    if (rest.takeWhile isWordChar).isEmpty then (ofText ['$'], rest)
    else (.variable (String.ofList (rest.takeWhile isWordChar)), rest.dropWhile isWordChar)
  else (ofText (c :: rest.takeWhile isPlain), rest.dropWhile isPlain)

theorem length_next_le (c : Char) (rest : Text) : (next c rest).2.length ≤ rest.length := by
  unfold next
  split
  · split
    · split
      · rename_i inner inside after h
        have := congrArg List.length (append_of_upThrough h)
        simp only [List.length_append, List.length_cons, List.length_nil] at this
        simp only [List.length_cons]
        omega
      · simp
    · exact Nat.le_refl _
  · split
    · split
      · rename_i inside after h
        have := congrArg List.length (append_of_upThrough h)
        simp only [List.length_append, List.length_cons, List.length_nil] at this
        dsimp only
        omega
      · exact Nat.le_refl _
    · split
      · split
        · exact Nat.le_refl _
        · exact (List.dropWhile_suffix _).length_le
      · exact (List.dropWhile_suffix _).length_le

/-- The pieces of a line, where texts may stand next to each other. -/
def pieces : Text → List Element
  | [] => []
  | c :: rest => (next c rest).1 :: pieces (next c rest).2
termination_by s => s.length
decreasing_by
  have := length_next_le c rest
  simp only [List.length_cons]
  omega

/-- Makes one text of the texts that stand next to each other. -/
def joinTexts : List Element → List Element
  | [] => []
  | .text value :: rest =>
    match joinTexts rest with
    | .text more :: others => .text (value ++ more) :: others
    | others => .text value :: others
  | element :: rest => element :: joinTexts rest

/-- The elements of a command line. -/
def parseLine (line : Text) : List Element := joinTexts (pieces line)

end Element

-- ── The lines of a body ──────────────────────────────────────────────────────

namespace Command

/-- The modifiers at the start of a line, each at most once and in either order, and the line
behind them. -/
def modifiers (silent mayFail : Bool) : Text → Bool × Bool × Text
  | [] => (silent, mayFail, [])
  | c :: rest =>
    if c = '@' ∧ silent = false then modifiers true mayFail (trimStart rest)
    else if c = '-' ∧ mayFail = false then modifiers silent true (trimStart rest)
    else (silent, mayFail, c :: rest)
termination_by s => s.length
decreasing_by
  all_goals
    have := length_trimStart_le rest
    simp only [List.length_cons]
    omega

/-- The command of a line of a body; blank lines, comment lines and lines with nothing but
modifiers are none. -/
def ofLine? (line : Text) : Option Command :=
  match trim line with
  | [] => none
  | c :: rest =>
    if c = '#' then none
    else match modifiers false false (c :: rest) with
      | (_, _, []) => none
      | (silent, mayFail, text) => some ⟨Element.parseLine text, silent, mayFail⟩

/-- The commands of a task's body, in order. -/
def parseBody (body : Text) : List Command := (lines body).filterMap ofLine?

end Command

end TaskRunner
