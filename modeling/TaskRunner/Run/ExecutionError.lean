import TaskRunner.TaskFile.CallStack

/-!
# What keeps a task from being done

A task may not exist, a command of it may fail, it may lead back to itself, or it may
have to be run by someone who is not there or who fails. A task that fails because of
a dependency says so, and keeps what went wrong there: the errors on the way form a
chain that ends at its `root`.
-/

namespace TaskRunner

/-- What keeps a task from being done. -/
inductive ExecutionError
  | taskNotFound (name : String)
  | dependencyFailed (task dependency : String) (source : ExecutionError)
  | commandFailed (command : String) (code : Option Nat)
  | circularDependency (chain : List String)
  | externalUnavailable (name : String)
  | external (name message : String)
deriving DecidableEq, Repr

namespace ExecutionError

/-- The error at the end of a chain of failed dependencies. -/
def root : ExecutionError → ExecutionError
  | dependencyFailed _ _ source => source.root
  | e => e

/-- The chain ends at a task that does not exist. -/
def isTaskNotFound (e : ExecutionError) : Bool :=
  match e.root with
  | taskNotFound _ => true
  | _ => false

/-- How a command ended, in words. -/
def exitText : Option Nat → String
  | some code => "exit code " ++ code.repr
  | none => "no exit code"

/-- The error as one sentence. -/
def message : ExecutionError → String
  | taskNotFound name => "task '" ++ name ++ "' not found"
  | dependencyFailed task dependency source =>
    "dependency '" ++ dependency ++ "' of task '" ++ task ++ "' failed: " ++ source.message
  | commandFailed command code => "command failed (" ++ exitText code ++ "): " ++ command
  | circularDependency chain => "circular dependency detected: " ++ chainText chain
  | externalUnavailable name => "external task '" ++ name ++ "' has no registered dispatcher"
  | external name message => "external task '" ++ name ++ "' failed: " ++ message

/-- A root is not the failure of a dependency. -/
theorem root_ne_dependencyFailed (e : ExecutionError) (task dependency : String)
    (source : ExecutionError) : e.root ≠ dependencyFailed task dependency source := by
  induction e with
  | dependencyFailed _ _ inner ih => exact ih
  | _ => simp [root]

theorem root_root (e : ExecutionError) : e.root.root = e.root := by
  induction e with
  | dependencyFailed _ _ inner ih => exact ih
  | _ => rfl

end ExecutionError

end TaskRunner
