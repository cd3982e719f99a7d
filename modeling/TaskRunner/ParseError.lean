import TaskRunner.Text.Position

/-!
# Errors in a task file

A `ParseError` says what is wrong and where. While a text is read the place of an
error is the text still to come there; `locate` turns places into lines and columns
once the whole text is known, and only then can the error be worded (`message`).
Since a place is what is still to come, what an error points at is how that text
starts.
-/

namespace TaskRunner

-- ── What can be wrong ────────────────────────────────────────────────────────

/-- The blocks in braces that can be left open. -/
inductive BlockKind
  | block
  | nested
  | taskBody
  | namespaceBlock
deriving DecidableEq, Repr

/-- What was expected where something else stands. -/
inductive Expectation
  | mark (mark : Char)
  | argumentListEnd
  | value
  | taskName
  | namespaceName
  | nestedNamespaceBody
  | lineEnd
deriving DecidableEq, Repr

/-- What keeps a text from being an expression. -/
inductive ExpressionFault
  | leftover (text : String)
  | unterminatedString
  | noOperand
  | noProperty
  | empty
deriving DecidableEq, Repr

/-- What keeps a text from being a task file, with the place of type `ρ` where it shows. -/
inductive ParseError (ρ : Type)
  | unterminatedQuote (mark : Char) (place : ρ)
  | unterminatedBlock (kind : BlockKind) (place : ρ)
  | unterminatedMultiline (place : ρ)
  | unterminatedSubstitution (place : ρ)
  | unterminatedExpression (place : ρ)
  | invalidExpression (source : String) (fault : ExpressionFault) (place : ρ)
  | expected (what : Expectation) (place : ρ)
  | unexpectedInput (found : String) (place : ρ)
  | duplicateFileNamespace (first second : String) (place : ρ)
  | mixedNamespaceForms (name : String) (place : ρ)
deriving DecidableEq, Repr

namespace ParseError

/-- The place where the error shows. -/
def place {ρ : Type} : ParseError ρ → ρ
  | unterminatedQuote _ p => p
  | unterminatedBlock _ p => p
  | unterminatedMultiline p => p
  | unterminatedSubstitution p => p
  | unterminatedExpression p => p
  | invalidExpression _ _ p => p
  | expected _ p => p
  | unexpectedInput _ p => p
  | duplicateFileNamespace _ _ p => p
  | mixedNamespaceForms _ p => p

/-- The same error with its place given in another way. -/
def map {ρ σ : Type} (f : ρ → σ) : ParseError ρ → ParseError σ
  | unterminatedQuote q p => unterminatedQuote q (f p)
  | unterminatedBlock k p => unterminatedBlock k (f p)
  | unterminatedMultiline p => unterminatedMultiline (f p)
  | unterminatedSubstitution p => unterminatedSubstitution (f p)
  | unterminatedExpression p => unterminatedExpression (f p)
  | invalidExpression s e p => invalidExpression s e (f p)
  | expected w p => expected w (f p)
  | unexpectedInput t p => unexpectedInput t (f p)
  | duplicateFileNamespace a b p => duplicateFileNamespace a b (f p)
  | mixedNamespaceForms n p => mixedNamespaceForms n (f p)

theorem place_map {ρ σ : Type} (f : ρ → σ) (e : ParseError ρ) : (e.map f).place = f e.place := by
  cases e <;> rfl

/-- The error with its place given as a line and a column of `source`. -/
def locate (source : Text) (e : ParseError Text) : ParseError Position :=
  e.map (Position.ofRest source)

/-- The line the error points at. -/
def line (e : ParseError Position) : Nat := e.place.line

end ParseError

-- ── Wording ──────────────────────────────────────────────────────────────────

/-- How a block is called in a message. -/
def BlockKind.text : BlockKind → String
  | .block => "block"
  | .nested => "nested block"
  | .taskBody => "task body"
  | .namespaceBlock => "namespace block"

/-- How the expected thing is called in a message. -/
def Expectation.text : Expectation → String
  | .mark c => "'" ++ String.singleton c ++ "'"
  | .argumentListEnd => "')' to close argument list"
  | .value => "a quoted string, `command`, \x7b\x7b expression \x7d\x7d or \"\"\" block"
  | .taskName => "task name"
  | .namespaceName => "namespace name"
  | .nestedNamespaceBody => "'\x7b' after nested namespace name"
  | .lineEnd => "end of line"

/-- The reason why a text is no expression. -/
def ExpressionFault.text : ExpressionFault → String
  | .leftover text => "unexpected '" ++ text ++ "'"
  | .unterminatedString => "unterminated string literal"
  | .noOperand => "expected identifier or string"
  | .noProperty => "expected property name after '.'"
  | .empty => "empty expression"

/-- A position in running text. -/
def Position.text (p : Position) : String :=
  "line " ++ p.line.repr ++ ", column " ++ p.column.repr

/-- The error as one sentence. -/
def ParseError.message : ParseError Position → String
  | unterminatedQuote mark p =>
    "unterminated " ++ String.singleton mark ++ " quote starting at " ++ p.text
  | unterminatedBlock kind p =>
    "unterminated " ++ kind.text ++ " opened at " ++ p.text ++ ": missing '\x7d'"
  | unterminatedMultiline p => "unterminated multi-line string starting at " ++ p.text
  | unterminatedSubstitution p => "unterminated command substitution starting at " ++ p.text
  | unterminatedExpression p =>
    "unterminated expression starting at " ++ p.text ++ ": missing '\x7d\x7d'"
  | invalidExpression source fault p =>
    "invalid expression '" ++ source ++ "' at " ++ p.text ++ ": " ++ fault.text
  | expected what p => "expected " ++ what.text ++ " at " ++ p.text
  | unexpectedInput found p => "unexpected input '" ++ found ++ "' at " ++ p.text
  | duplicateFileNamespace first second p =>
    "file namespace declared twice ('" ++ first ++ "' and '" ++ second ++ "') at line "
      ++ p.line.repr
  | mixedNamespaceForms name p =>
    "file namespace '" ++ name ++ "' cannot be combined with namespace blocks (line "
      ++ p.line.repr ++ ")"

end TaskRunner
