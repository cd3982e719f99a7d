import TaskRunner.Expansion
import TaskRunner.Files.Path
import TaskRunner.Process
import TaskRunner.TaskFile.CallStack

/-!
# Contexts

A context is what a task runs in: the directory and the interpreter of its commands,
the variables in front of the environment, the names of the tasks that are running,
outermost first, and how much is to be told.
-/

namespace TaskRunner

/-- How much is told, from nothing to everything. -/
inductive Verbosity
  | silent
  | quiet
  | normal
  | verbose
deriving DecidableEq, Repr, Inhabited

/-- The place of a verbosity among all of them. -/
def Verbosity.level : Verbosity → Nat
  | .silent => 0
  | .quiet => 1
  | .normal => 2
  | .verbose => 3

/-- What a task runs in. -/
structure Context where
  workingDir : Path
  vars : Bindings := Bindings.empty
  interpreter : List String := ["sh", "-c"]
  stack : List String := []
  verbosity : Verbosity := .normal
  environment : Environment := {}
  colour : Bool := false
deriving DecidableEq, Repr, Inhabited

namespace Context

/-- What a name stands for: the variable, or else what the environment says. -/
def lookup (ctx : Context) : Lookup := fun name =>
  match ctx.vars.get? name with
  | some value => some value
  | none => ctx.environment.lookup name

/-- The context for a task file: commands run in its directory, if the path names one. -/
def atTaskFile (ctx : Context) (path : Path) : Context :=
  match path.parent with
  | none => ctx
  | some dir => if dir.text = [] then ctx else { ctx with workingDir := dir }

/-- The launch of a program in this context. -/
def launch (ctx : Context) (program : String) (arguments : List String) : Launch :=
  { program, arguments, vars := ctx.vars, inherited := ctx.environment,
    directory := ctx.workingDir.display }

/-- The launch of the interpreter for a command line, if there is an interpreter. -/
def shellLaunch? (ctx : Context) (commandLine : String) : Option Launch :=
  match ctx.interpreter with
  | [] => none
  | program :: leading => some (ctx.launch program (leading ++ [commandLine]))

/-- The context in which one more task is running. -/
def push (ctx : Context) (task : String) : Context := { ctx with stack := ctx.stack ++ [task] }

/-- The task that started last, and the context without it. -/
def pop (ctx : Context) : Option String × Context :=
  (ctx.stack.getLast?, { ctx with stack := ctx.stack.dropLast })

/-- The context in which the bindings of a scope are undone. -/
def restore (ctx : Context) (saved : List Bindings.Saved) : Context :=
  { ctx with vars := ctx.vars.restore saved }

/-- A task is running. -/
def isRunning (ctx : Context) (task : String) : Bool := ctx.stack.contains task

/-- The chain of running tasks and one more. -/
def callChain (ctx : Context) (next : String) : List String := ctx.stack ++ [next]

end Context

end TaskRunner
