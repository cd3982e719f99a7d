import TaskRunner.Expression.Basic

/-!
# Commands

A command is one line of a task's body: plain text, `$NAME` references, spans in
backticks that are left to the shell, and expressions between double braces, with
two modifiers.
-/

namespace TaskRunner

/-- A piece of a command line. -/
inductive Element
  | text (value : String)
  | variable (name : String)
  | backtick (command : String)
  | expression (expression : Expression)
deriving DecidableEq, Repr, Inhabited

/-- One line of a task's body. A silent command is not shown before it runs; after a command that
may fail the task goes on. -/
structure Command where
  elements : List Element
  silent : Bool
  mayFail : Bool
deriving DecidableEq, Repr, Inhabited

end TaskRunner
