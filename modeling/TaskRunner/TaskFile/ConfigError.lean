import TaskRunner.Files.Tree
import TaskRunner.ParseError
import TaskRunner.TaskFile.CallStack

/-!
# What keeps a task file from being used

A task file may not be found, not be readable, not be well formed, declare a task
twice, or let a task depend on itself.
-/

namespace TaskRunner

/-- What keeps a task file from being used. -/
inductive ConfigError
  | notFound (searched : List String)
  | unreadable (path : String) (error : ReadError)
  | malformed (path : String) (error : ParseError Position)
  | duplicateTask (name : String)
  | circularDependency (chain : List String)
deriving DecidableEq, Repr

/-- The error as one sentence. -/
def ConfigError.message : ConfigError → String
  | notFound searched => "No Quakefile found (searched: " ++ ", ".intercalate searched ++ ")"
  | unreadable path error => "Failed to read '" ++ path ++ "': " ++ error.message
  | malformed path error => "Failed to parse '" ++ path ++ "': " ++ error.message
  | duplicateTask name => "Task '" ++ name ++ "' is defined more than once"
  | circularDependency chain => "Circular dependency detected: " ++ chainText chain

end TaskRunner
