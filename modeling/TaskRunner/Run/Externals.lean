import TaskRunner.Run.Shell
import TaskRunner.TaskFile.Resolution

/-!
# Tasks that others run

A task without commands of its own may name a dispatcher. The dispatcher is a program
with leading arguments; it gets the directory the task was found in, if there is one,
the last segment of the task's name, and the arguments of the call. A callable that is
registered under the name of such a task takes the place of its dispatcher.
-/

namespace TaskRunner

variable {σ : Type}

/-- Something registered for a task: it sees the arguments of the call and the context. -/
abbrev Callable (σ : Type) :=
  List String → Context → σ → Except ExecutionError Unit × σ

/-- Who runs a task. -/
inductive Handler (σ : Type)
  | program (name : String) (leading : List String)
  | callable (run : Callable σ)

/-- Who runs which task; of two entries with one name the later counts. -/
structure Externals (σ : Type) where
  entries : List (String × Handler σ)

namespace Externals

/-- The program with its leading arguments that a dispatch names, unless it is blank. -/
def programOf? (dispatch : Dispatch) : Option (String × List String) :=
  match Text.words dispatch.dispatcher.toList with
  | [] => none
  | program :: words =>
    some (String.ofList program, words.map String.ofList ++ dispatch.sourceDir.toList)

/-- The handler of a task that names a dispatcher. -/
def handlerOf? (entry : String × Task) : Option (String × Handler σ) :=
  (entry.2.dispatch.bind programOf?).map fun (program, leading) =>
    (entry.1, .program program leading)

/-- The dispatchers that a task file names. -/
def ofTaskFile (file : TaskFile) : Externals σ := ⟨file.qualifiedTasks.filterMap handlerOf?⟩

/-- Puts a callable in the place of what was there for a task. -/
def register (externals : Externals σ) (name : String) (run : Callable σ) : Externals σ :=
  ⟨externals.entries ++ [(name, .callable run)]⟩

/-- Who runs a task. -/
def get? (externals : Externals σ) (name : String) : Option (Handler σ) :=
  (externals.entries.reverse.find? fun entry => entry.1 == name).map (·.2)

end Externals

/-- What follows the last colon of a name. -/
def lastSegment (name : String) : String := (segments name).getLastD name

/-- What went wrong with a program that has ended, in words. -/
def Exit.failureText : Exit → String
  | .code n => "exited with code " ++ n.repr
  | .signal => "terminated by signal"

/-- Lets a handler run the task with the given qualified name. -/
def Handler.run (host : Host σ) (ctx : Context) (task : String) (arguments : List String)
    (world : σ) : Handler σ → Outcome σ
  | .program name leading =>
    runProgram host ctx (ctx.launch name (leading ++ [lastSegment task] ++ arguments))
      (fun e => .external task ("failed to start '" ++ name ++ "': " ++ e.message))
      (fun exit => .external task exit.failureText) world
  | .callable call =>
    let (result, world) := call arguments ctx world
    ⟨result, ctx, world, [ctx.event (.called task arguments ctx.vars)]⟩

/-- A handler leaves the context alone. -/
theorem Handler.context_run (host : Host σ) (ctx : Context) (task : String)
    (arguments : List String) (world : σ) (handler : Handler σ) :
    (handler.run host ctx task arguments world).context = ctx := by
  cases handler with
  | program name leading => exact context_runProgram ..
  | callable call => rfl

end TaskRunner
