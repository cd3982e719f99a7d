import TaskRunner.Bindings
import TaskRunner.Text.Scan

/-!
# The environment

The environment that the program runs in is a list of strings `NAME=value`, sorted.
Whoever asks for a name gets what follows the name and a `=` in the first string that
starts so; the empty name is never found. A started process gets the environment with
the variables of the task file in front of it (`Environment.withVariables`).
-/

namespace TaskRunner

/-- Values by name, as they were handed to the program. -/
structure Environment where
  values : Bindings := Bindings.empty
deriving DecidableEq, Repr, Inhabited

namespace Environment

/-- A name and its value as one string. -/
def assignmentText (entry : Entry) : String := entry.1 ++ "=" ++ entry.2

/-- The environment that strings `NAME=value` spell. The first of two with one name counts. -/
def ofStrings (lines : List String) : Environment :=
  ⟨lines.foldr (fun line vars =>
    let name := line.toList.takeWhile (· != '=')
    vars.insert (String.ofList name) (String.ofList (line.toList.drop (name.length + 1))))
    Bindings.empty⟩

/-- The strings `NAME=value`, sorted. -/
def strings (env : Environment) : List String :=
  (env.values.entries.map assignmentText).mergeSort fun a b => decide (a ≤ b)

/-- The value that the environment gives a name. -/
def lookup (env : Environment) (name : String) : Option String :=
  if name = "" then none
  else env.strings.findSome? fun line =>
    (Text.eat (name ++ "=").toList line.toList).map String.ofList

/-- The environment with variables in front of its own. -/
def withVariables (env : Environment) (vars : Bindings) : Environment :=
  ⟨env.values.overlay vars⟩

end Environment

end TaskRunner
