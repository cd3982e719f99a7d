import TaskRunner.Run.Invocation

/-!
# Runners

A runner holds a task file, a context in which the variables of the file have their
values, and the handlers of the tasks that others run. Requested tasks are run one
after the other on the same runner.
-/

namespace TaskRunner

variable {σ : Type}

/-- The task that is run when none is requested. -/
def defaultTask : String := "default"

/-- The task that a request means: the one it names, or the default task for the empty name. -/
def requestedTask (name : String) : String := if name = "" then defaultTask else name

/-- A task file that is ready to be run. -/
structure Runner (σ : Type) where
  file : TaskFile
  context : Context
  externals : Externals σ

namespace Runner

/-- Gives the variables of a task file their values, one after the other. -/
def setVariables (host : Host σ) (ctx : Context) (world : σ) :
    List Variable → Context × σ × List Event
  | [] => (ctx, world, [])
  | v :: rest =>
    let valued := v.value.evaluate host ctx world
    let (final, world, events) := setVariables host
      { ctx with vars := ctx.vars.insert v.name valued.value } valued.world rest
    (final, world, valued.events ++ events)

/-- The runner of a task file in a context, with the world and the events after its variables have
their values. -/
def new (host : Host σ) (file : TaskFile) (ctx : Context) (world : σ) :
    Runner σ × σ × List Event :=
  let (ctx, world, events) := setVariables host ctx world file.vars
  (⟨file, ctx, .ofTaskFile file⟩, world, events)

/-- Registers a callable for a task. -/
def register (runner : Runner σ) (name : String) (run : Callable σ) : Runner σ :=
  { runner with externals := runner.externals.register name run }

/-- The outcome of a request: a task by its name, or the default task for the empty name, and its
arguments. -/
def outcome (host : Host σ) (runner : Runner σ) (name : String) (given : List String)
    (world : σ) : Outcome σ :=
  match h : runner.file.resolve (requestedTask name) with
  | none => Outcome.fail (.taskNotFound (requestedTask name)) runner.context world
  | some found =>
    invoke runner.file host runner.externals runner.context found
      (TaskFile.qualified_mem_names h) given world

/-- Runs a task. -/
def run (host : Host σ) (runner : Runner σ) (name : String) (given : List String) (world : σ) :
    Outcome σ × Runner σ :=
  let outcome := runner.outcome host name given world
  (outcome, { runner with context := outcome.context })

theorem outcome_of_none {runner : Runner σ} {name : String}
    (h : runner.file.resolve (requestedTask name) = none) (host : Host σ) (given : List String)
    (world : σ) :
    runner.outcome host name given world
      = Outcome.fail (.taskNotFound (requestedTask name)) runner.context world := by
  rw [outcome]
  split
  · rfl
  · rename_i found hfound
    exact absurd (h.symm.trans hfound) (by simp)

theorem outcome_of_some {runner : Runner σ} {name : String} {found : ResolvedTask}
    (h : runner.file.resolve (requestedTask name) = some found) (host : Host σ)
    (given : List String) (world : σ) :
    runner.outcome host name given world
      = invoke runner.file host runner.externals runner.context found
          (TaskFile.qualified_mem_names h) given world := by
  rw [outcome]
  split
  · rename_i hnone
    exact absurd (h.symm.trans hnone) (by simp)
  · rename_i other hother
    obtain rfl := Option.some.inj (h.symm.trans hother)
    rfl

end Runner

end TaskRunner
