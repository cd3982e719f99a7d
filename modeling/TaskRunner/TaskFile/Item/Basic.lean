import TaskRunner.Command.Parser
import TaskRunner.TaskFile.Basic
import TaskRunner.Text.Block

/-!
# The items of a task file

A task file is a sequence of items: a variable, a task, the opening or the closing of
a namespace block, or the naming of the file's own namespace. `Item.declaration` reads one
item from its first character on, and `Item.endOfItem` what may stand behind it. Which items
may stand where is not looked at here.

An item other than an opening brace ends with its line, with the text, or in front of
a closing brace.
-/

namespace TaskRunner

open Text

/-- One thing a task file says. Openings, closings and the file's namespace keep the places that an
error about them points at, each as the text still to come there. -/
inductive Item
  | variable (declared : Variable)
  | task (declared : Task)
  | opening (name : String) (start brace : Text)
  | closing (place : Text)
  | fileNamespace (name : String) (start after : Text)

namespace Item

/-- What reading gives: a thing and the text still to come, or an error. -/
abbrev Reading (α : Type) := Except (ParseError Text) (α × Text)

-- ── Variables ────────────────────────────────────────────────────────────────

/-- A block of lines, behind its three quotes. A line end directly behind them is not part of it. -/
def multiline (start rest : Text) : Reading Value :=
  let rest := (eat ['\r', '\n'] rest <|> eat ['\n'] rest).getD rest
  match upThrough ['"', '"', '"'] rest with
  | some (inside, after) => .ok (.multiline (String.ofList inside), after)
  | none => .error (.unterminatedMultiline start)

/-- A command substitution, behind its backtick. -/
def substitution (start rest : Text) : Reading Value :=
  match upThrough ['`'] rest with
  | some (inside, after) => .ok (.substitution (String.ofList inside), after)
  | none => .error (.unterminatedSubstitution start)

/-- An expression, behind its braces. An error in it is reported where the braces open. -/
def bracedExpression (start rest : Text) : Reading Value :=
  match upThrough ['}', '}'] rest with
  | none => .error (.unterminatedExpression start)
  | some (inside, after) =>
    match Expression.parse inside with
    | .ok e => .ok (.expression e, after)
    | .error e => .error (e.map fun _ => start)

/-- A quoted string, behind its quote; its escapes stay as they are written. -/
def quotedString (start rest : Text) : Reading Value :=
  match quotedSpan '"' rest with
  | some (inside, after) => .ok (.literal (String.ofList inside), after)
  | none => .error (.unterminatedQuote '"' start)

/-- The right-hand side of a variable. Three quotes come before one, since they start with one. -/
def value (s : Text) : Reading Value :=
  match eat ['"', '"', '"'] s with
  | some rest => multiline s rest
  | none =>
  match eat ['`'] s with
  | some rest => substitution s rest
  | none =>
  match eat ['{', '{'] s with
  | some rest => bracedExpression s rest
  | none =>
  match eat ['"'] s with
  | some rest => quotedString s rest
  | none => .error (.expected .value s)

/-- The name of a variable and the text of its value, if the text starts with a word and an equals
sign that no arrow starts with. -/
def assignment? (s : Text) : Option (Text × Text) :=
  if (s.takeWhile isWordChar).isEmpty then none
  else
    let rest := skipInline (s.dropWhile isWordChar)
    if (eat ['=', '>'] rest).isSome then none
    else (eat ['='] rest).map fun rest => (s.takeWhile isWordChar, skipInline rest)

-- ── Tasks ────────────────────────────────────────────────────────────────────

/-- The names between commas, without the blanks around them. -/
def splitArguments (s : Text) : List String :=
  ((s.splitOn ',').map trim).filterMap fun name =>
    if name.isEmpty then none else some (String.ofList name)

/-- The names between commas and blanks. -/
def splitDependencies (s : Text) : List String :=
  (s.splitOnP fun c => c == ',' || isBlank c).filterMap fun name =>
    if name.isEmpty then none else some (String.ofList name)

/-- The arguments of a task, in parentheses; a task need not have them. -/
def arguments (s : Text) : Reading (List String) :=
  match eat ['('] s with
  | none => .ok ([], s)
  | some rest =>
    match upThrough [')'] rest with
    | none => .error (.expected .argumentListEnd s)
    | some (inside, rest) => .ok (splitArguments inside, skipInline rest)

/-- The dependencies of a task, behind an arrow and up to the end of the line or a brace; a task
need not have them. -/
def dependencies (s : Text) : List String × Text :=
  match eat ['=', '>'] s with
  | none => ([], s)
  | some rest =>
    (splitDependencies (rest.takeWhile fun c => c != '{' && c != '\n'),
      rest.dropWhile fun c => c != '{' && c != '\n')

/-- The body of a task, which may open on a later line; a task need not have one. -/
def body (s : Text) : Reading (List Command) :=
  match eat ['{'] (skipSpacing s) with
  | none => .ok ([], s)
  | some rest =>
    match balanced rest with
    | .ok (inside, rest) => .ok (Command.parseBody inside, rest.drop 1)
    | .error (.unterminatedBlock .block _) =>
      .error (.unterminatedBlock .taskBody (skipSpacing s))
    | .error e => .error e

/-- A task, behind its keyword. -/
def taskDeclaration (description : Option String) (s : Text) : Reading Task :=
  let start := skipInline s
  let name := start.takeWhile isTaskNameChar
  if name.isEmpty then .error (.expected .taskName start)
  else
    match arguments (skipInline (start.dropWhile isTaskNameChar)) with
    | .error e => .error e
    | .ok (arguments, rest) =>
      match body (dependencies rest).2 with
      | .error e => .error e
      | .ok (commands, after) =>
        .ok ({ name := String.ofList name, description, arguments,
               dependencies := (dependencies rest).1, commands }, after)

-- ── Namespaces ───────────────────────────────────────────────────────────────

/-- A namespace, behind its keyword: the opening of a block, or the file's own namespace. -/
def namespaceDeclaration (start s : Text) : Reading Item :=
  let name := (skipInline s).takeWhile isWordChar
  if name.isEmpty then .error (.expected .namespaceName (skipInline s))
  else
    let after := skipInline ((skipInline s).dropWhile isWordChar)
    match eat ['{'] after with
    | some rest => .ok (.opening (String.ofList name) start after, rest)
    | none => .ok (.fileNamespace (String.ofList name) start after, after)

-- ── Items ────────────────────────────────────────────────────────────────────

/-- The beginning of the line that stands where no item starts, as a message quotes it. -/
def found (s : Text) : String :=
  String.ofList ((trimEnd (s.takeWhile (· != '\n'))).take 40)

/-- The description that the comment lines above a task make: none, or the lines in one text. -/
def description? (doc : List Text) : Option String :=
  if doc.isEmpty then none else some (String.ofList (['\n'].intercalate doc))

/-- One item, where `doc` are the comment lines directly above it. -/
def declaration (doc : List Text) (s : Text) : Reading Item :=
  match eat ['}'] s with
  | some rest => .ok (.closing s, rest)
  | none =>
  match assignment? s with
  | some (name, rest) =>
    match value rest with
    | .ok (value, rest) => .ok (.variable ⟨String.ofList name, value⟩, rest)
    | .error e => .error e
  | none =>
  match eatKeyword "task".toList s with
  | some rest =>
    match taskDeclaration (description? doc) rest with
    | .ok (declared, rest) => .ok (.task declared, rest)
    | .error e => .error e
  | none =>
  match eatKeyword "namespace".toList s with
  | some rest => namespaceDeclaration s rest
  | none => .error (.unexpectedInput (found s) s)

/-- The text behind the blanks and the comment at the end of a line. -/
def skipComment (s : Text) : Text :=
  if (skipInline s).head? = some '#' then (splitLine (skipInline s)).2 else skipInline s

/-- The text behind the end of an item: blanks in the line, a comment, and then a line end or a
closing brace, which stays. -/
def endOfItem (s : Text) : Except (ParseError Text) Text :=
  match eatLineEnd (skipComment s) with
  | some rest => .ok rest
  | none =>
    if (skipComment s).head? = some '}' then .ok (skipComment s)
    else .error (.expected .lineEnd (skipComment s))

end Item

end TaskRunner
