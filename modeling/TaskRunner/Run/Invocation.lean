import TaskRunner.Command.Echo
import TaskRunner.Command.Render
import TaskRunner.Run.Externals
import TaskRunner.Run.Valuation

/-!
# Invoking a task

A task is invoked in a context and with arguments. If it is running already, the chain
of tasks that leads back to it is the error. Otherwise its variables and arguments are
bound and it is put on the stack of running tasks, its dependencies are invoked one
after the other without arguments, each in the context that the one before left, and
then its own commands are run in order, or its handler is called. However that ends,
the task comes off the stack and the bindings are undone.

The names of running tasks come from the list of the task file and none is twice among
them, so every chain of invocations ends (`TaskFile.remaining`). That the next
dependency starts with the stack that the last one started with is part of the type of
an invocation (`Balanced`). `invoke` and `invokeAll` are what is left when that is
forgotten; their equations (`invoke_of_running`, `invoke_of_new`, `invokeAll_nil`,
`invokeAll_of_none`, `invokeAll_of_failed`, `invokeAll_of_ok`) say all that a proof needs.
-/

namespace TaskRunner

variable {σ : Type}

-- ── The task's own work ──────────────────────────────────────────────────────

/-- Runs one command, the last of its task or not. -/
def runCommand (host : Host σ) (ctx : Context) (command : Command) (last : Bool) (world : σ) :
    Outcome σ :=
  match command.echo ctx.lookup with
  | some text =>
    (Outcome.done ctx world).after [ctx.print .out (Display.echoLine ctx.colour text)]
  | none =>
    let line := command.render ctx.lookup
    let shown := if command.silent then []
      else ctx.info (Display.commandLine ctx.colour line last)
    (runShell host ctx line world).after shown

/-- An outcome has no error. -/
def Outcome.succeeded (o : Outcome σ) : Bool := o.result.isOk

/-- The outcome of one step, with the attempt before it. -/
def Outcome.ofStep (ctx : Context) (step : Step) (o : Outcome σ) : Outcome σ :=
  o.after [ctx.event (.attempted step o.succeeded)]

/-- Turns an error of a command that may fail into a warning. -/
def tolerate (ctx : Context) (command : Command) (o : Outcome σ) : Outcome σ :=
  match o.result with
  | .ok () => o
  | .error e =>
    if command.mayFail then
      { o with
        result := .ok ()
        events := o.events ++ ctx.warning ("command failed but continuing: " ++ e.message) }
    else o

/-- Runs the commands of the task `name`, one after the other. -/
def runCommands (host : Host σ) (ctx : Context) (name : String) :
    List Command → σ → Outcome σ
  | [], world => Outcome.done ctx world
  | command :: rest, world =>
    (tolerate ctx command ((runCommand host ctx command rest.isEmpty world).ofStep ctx
        (.command name command))).andThen fun ctx world =>
      runCommands host ctx name rest world

/-- Does what a task does after its dependencies. -/
def runOwn (host : Host σ) (externals : Externals σ) (ctx : Context) (found : ResolvedTask)
    (given : List String) (world : σ) : Outcome σ :=
  let header := ctx.info (Display.taskHeader ctx.colour found.qualified given)
  match found.task.dispatch with
  | some _ =>
    let outcome := match externals.get? found.qualified with
      | none => Outcome.fail (.externalUnavailable found.qualified) ctx world
      | some handler => handler.run host ctx found.qualified given world
    (outcome.ofStep ctx (.external found.qualified)).after header
  | none =>
    ((runCommands host ctx found.qualified found.task.commands world).andThen fun ctx world =>
      (Outcome.done ctx world).after (ctx.debug ("Task completed: " ++ found.qualified))).after
        header

theorem tolerate_of_strict {command : Command} (h : command.mayFail = false) (ctx : Context)
    (o : Outcome σ) : tolerate ctx command o = o := by
  rw [tolerate, h]
  split <;> rfl

theorem result_tolerate {command : Command} (h : command.mayFail = true) (ctx : Context)
    (o : Outcome σ) : (tolerate ctx command o).result = .ok () := by
  rw [tolerate]
  split
  · assumption
  · rw [if_pos h]

theorem context_runCommand (host : Host σ) (ctx : Context) (command : Command) (last : Bool)
    (world : σ) : (runCommand host ctx command last world).context = ctx := by
  rw [runCommand]
  split
  · rfl
  · exact context_runShell ..

theorem context_tolerate (ctx : Context) (command : Command) (o : Outcome σ) :
    (tolerate ctx command o).context = o.context := by
  rw [tolerate]
  split
  · rfl
  · split <;> rfl

/-- Commands leave the context alone. -/
theorem context_runCommands (host : Host σ) (ctx : Context) (name : String)
    (commands : List Command) (world : σ) :
    (runCommands host ctx name commands world).context = ctx := by
  induction commands generalizing ctx world with
  | nil => rfl
  | cons command rest ih =>
      refine (Outcome.context_andThen id _ _ fun ctx world => ih ctx world).trans ?_
      exact (context_tolerate ..).trans (context_runCommand ..)

/-- What a task does itself leaves the context alone. -/
theorem context_runOwn (host : Host σ) (externals : Externals σ) (ctx : Context)
    (found : ResolvedTask) (given : List String) (world : σ) :
    (runOwn host externals ctx found given world).context = ctx := by
  rw [runOwn]
  dsimp only
  split
  · split
    · rfl
    · exact Handler.context_run ..
  · exact (Outcome.context_andThen id _ _ fun _ _ => rfl).trans (context_runCommands ..)

-- ── Dependencies ─────────────────────────────────────────────────────────────

/-- An outcome after which the same tasks are running as in `ctx`. -/
abbrev Balanced (σ : Type) (ctx : Context) := { o : Outcome σ // o.context.stack = ctx.stack }

/-- The context in which a task does its work: what it is entered with is bound, and it is
running. -/
def Context.entered (ctx : Context) (found : ResolvedTask) (bound : Bound σ) : Context :=
  { ctx with vars := bound.vars }.push found.qualified

@[simp] theorem Context.stack_entered (ctx : Context) (found : ResolvedTask) (bound : Bound σ) :
    (ctx.entered found bound).stack = ctx.stack ++ [found.qualified] := rfl

/-- What a task is entered with, what its dependencies left, and its own work, as one outcome. -/
def Outcome.ofTask (host : Host σ) (externals : Externals σ) (ctx : Context)
    (found : ResolvedTask) (given : List String) (bound : Bound σ) (dependencies : Outcome σ) :
    Outcome σ :=
  ((dependencies.andThen fun ctx world => runOwn host externals ctx found given world).leave
    bound.saved).after
      (ctx.debug ("Running task: " ++ found.qualified) ++ bound.events
        ++ [(ctx.entered found bound).event .entered])

/-- A task whose dependencies leave it running is not running when it is left. -/
theorem Outcome.stack_ofTask (host : Host σ) (externals : Externals σ) {ctx : Context}
    {found : ResolvedTask} (given : List String) {bound : Bound σ} {dependencies : Outcome σ}
    (h : dependencies.context.stack = (ctx.entered found bound).stack) :
    (ofTask host externals ctx found given bound dependencies).context.stack = ctx.stack := by
  have hstack : (dependencies.andThen fun ctx world =>
      runOwn host externals ctx found given world).context.stack
        = (ctx.entered found bound).stack :=
    (context_andThen Context.stack _ _ fun ctx world => by rw [context_runOwn]).trans h
  show List.dropLast _ = ctx.stack
  rw [hstack, Context.stack_entered, List.dropLast_concat]

mutual

/-- Invokes a task. -/
def invokeBalanced (file : TaskFile) (host : Host σ) (externals : Externals σ) (ctx : Context)
    (found : ResolvedTask) (listed : found.qualified ∈ file.names) (given : List String)
    (world : σ) : Balanced σ ctx :=
  if running : found.qualified ∈ ctx.stack then
    ⟨Outcome.fail (.circularDependency (ctx.callChain found.qualified)) ctx world, rfl⟩
  else
    have : file.remaining (ctx.stack ++ [found.qualified]) < file.remaining ctx.stack :=
      TaskFile.remaining_concat_lt listed running
    let bound := bindFrame host ctx found given world
    let dependencies := invokeAllBalanced file host externals (ctx.entered found bound) found
      found.task.dependencies bound.world
    ⟨.ofTask host externals ctx found given bound dependencies.1,
      Outcome.stack_ofTask host externals given dependencies.2⟩
termination_by (file.remaining ctx.stack, 0)

/-- Invokes the dependencies of the task `source`, one after the other. -/
def invokeAllBalanced (file : TaskFile) (host : Host σ) (externals : Externals σ)
    (ctx : Context) (source : ResolvedTask) : List String → σ → Balanced σ ctx
  | [], world => ⟨Outcome.done ctx world, rfl⟩
  | dependency :: rest, world =>
    match h : file.resolveFrom source dependency with
    | none =>
      ⟨(Outcome.fail (.dependencyFailed source.qualified dependency (.taskNotFound dependency))
        ctx world).ofStep ctx (.missing source.qualified dependency), rfl⟩
    | some target =>
      let first := invokeBalanced file host externals ctx target
        (TaskFile.qualified_mem_names_of_resolveFrom h) [] world
      match first.1.result with
      | .error e =>
        ⟨{ first.1 with result := .error (.dependencyFailed source.qualified dependency e) },
          first.2⟩
      | .ok () =>
        have := first.2
        let others := invokeAllBalanced file host externals first.1.context source rest
          first.1.world
        ⟨others.1.after first.1.events, others.2.trans first.2⟩
termination_by dependencies => (file.remaining ctx.stack, dependencies.length + 1)
decreasing_by
  · exact Prod.Lex.right _ (Nat.succ_pos _)
  · exact Prod.Lex.right' _ (Nat.le_of_eq (congrArg file.remaining this)) (Nat.lt_succ_self _)

end

section

variable (file : TaskFile) (host : Host σ) (externals : Externals σ)

/-- What invoking a task leaves. -/
def invoke (ctx : Context) (found : ResolvedTask) (listed : found.qualified ∈ file.names)
    (given : List String) (world : σ) : Outcome σ :=
  (invokeBalanced file host externals ctx found listed given world).1

/-- What invoking the dependencies of the task `source` leaves. -/
def invokeAll (ctx : Context) (source : ResolvedTask) (dependencies : List String) (world : σ) :
    Outcome σ :=
  (invokeAllBalanced file host externals ctx source dependencies world).1

theorem invoke_of_running {ctx : Context} {found : ResolvedTask}
    (h : found.qualified ∈ ctx.stack) (listed : found.qualified ∈ file.names)
    (given : List String) (world : σ) :
    invoke file host externals ctx found listed given world
      = Outcome.fail (.circularDependency (ctx.callChain found.qualified)) ctx world := by
  rw [invoke, invokeBalanced, dif_pos h]

theorem invoke_of_new {ctx : Context} {found : ResolvedTask}
    (h : found.qualified ∉ ctx.stack) (listed : found.qualified ∈ file.names)
    (given : List String) (world : σ) :
    invoke file host externals ctx found listed given world
      = .ofTask host externals ctx found given (bindFrame host ctx found given world)
          (invokeAll file host externals
            (ctx.entered found (bindFrame host ctx found given world)) found
            found.task.dependencies (bindFrame host ctx found given world).world) := by
  rw [invoke, invokeBalanced, dif_neg h]
  rfl

theorem invokeAll_nil (ctx : Context) (source : ResolvedTask) (world : σ) :
    invokeAll file host externals ctx source [] world = Outcome.done ctx world := by
  rw [invokeAll, invokeAllBalanced]

theorem invokeAll_of_none {source : ResolvedTask} {dependency : String}
    (h : file.resolveFrom source dependency = none) (ctx : Context) (rest : List String)
    (world : σ) :
    invokeAll file host externals ctx source (dependency :: rest) world
      = (Outcome.fail (.dependencyFailed source.qualified dependency (.taskNotFound dependency))
          ctx world).ofStep ctx (.missing source.qualified dependency) := by
  rw [invokeAll, invokeAllBalanced]
  split
  · rfl
  · rename_i target htarget
    exact absurd (h.symm.trans htarget) (by simp)

/-- A dependency that fails is the last one, and its error says whose it is. -/
theorem invokeAll_of_failed {ctx : Context} {source target : ResolvedTask} {dependency : String}
    {world : σ} {e : ExecutionError} (h : file.resolveFrom source dependency = some target)
    (he : (invoke file host externals ctx target
      (TaskFile.qualified_mem_names_of_resolveFrom h) [] world).result = .error e)
    (rest : List String) :
    invokeAll file host externals ctx source (dependency :: rest) world
      = (invoke file host externals ctx target
          (TaskFile.qualified_mem_names_of_resolveFrom h) [] world).mapError
            (.dependencyFailed source.qualified dependency) := by
  rw [invokeAll, invokeAllBalanced]
  split
  · rename_i hnone
    exact absurd (h.symm.trans hnone) (by simp)
  · rename_i other hother
    obtain rfl := Option.some.inj (h.symm.trans hother)
    dsimp only
    split
    · rename_i e' he'
      rw [Outcome.mapError, invoke, he']
      rfl
    · rename_i hok
      exact absurd (he.symm.trans hok) (by simp)

/-- After a dependency that succeeds the others are invoked in the context it left. -/
theorem invokeAll_of_ok {ctx : Context} {source target : ResolvedTask} {dependency : String}
    {world : σ} (h : file.resolveFrom source dependency = some target)
    (hok : (invoke file host externals ctx target
      (TaskFile.qualified_mem_names_of_resolveFrom h) [] world).result = .ok ())
    (rest : List String) :
    invokeAll file host externals ctx source (dependency :: rest) world
      = (invokeAll file host externals
          (invoke file host externals ctx target
            (TaskFile.qualified_mem_names_of_resolveFrom h) [] world).context source rest
          (invoke file host externals ctx target
            (TaskFile.qualified_mem_names_of_resolveFrom h) [] world).world).after
          (invoke file host externals ctx target
            (TaskFile.qualified_mem_names_of_resolveFrom h) [] world).events := by
  rw [invokeAll, invokeAllBalanced]
  split
  · rename_i hnone
    exact absurd (h.symm.trans hnone) (by simp)
  · rename_i other hother
    obtain rfl := Option.some.inj (h.symm.trans hother)
    dsimp only
    split
    · rename_i e he
      exact absurd (hok.symm.trans he) (by simp)
    · rfl

end

end TaskRunner
