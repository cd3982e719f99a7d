import Mathlib.Data.List.Forall2
import TaskRunner.Proofs.Independence

/-! # Verbosity is about telling only

    Verbosity decides which lines are told, and nothing else.  The proof is a relation
    between two runs, of which one is **`Quieter`** than the other: the same context but
    for the verbosity, and outcomes that agree in result, context and world, while the
    events of the one are **`Muted`** compared with those of the other.  Muted events lack
    nothing but written lines (`acts`), and those that are left stand in their order.

    Only the three gates ask for the verbosity: `info`, `warning` and `debug`.  Each opens
    from some level on, so what passes it in the quieter context passes it in the other
    (`Muted.gated`).  Everything else that a run consists of is the same in both contexts
    or keeps the relation, if only callables do not ask for the verbosity either
    (`Callable.IgnoresVerbosity`), and so an invocation does (`quieter_invoke`).  For
    requests on runners that differ in their verbosity that is
    **`verbosity_is_telling_only`**. -/

namespace TaskRunner

variable {σ : Type}

/-- The same context at another verbosity. -/
def Context.speaking (ctx : Context) (verbosity : Verbosity) : Context :=
  { ctx with verbosity := verbosity }

/-- What a callable answers and does is the same at every verbosity. -/
def Callable.IgnoresVerbosity (run : Callable σ) : Prop :=
  ∀ given (ctx : Context) verbosity world,
    run given (ctx.speaking verbosity) world = run given ctx world

/-- All callables among the externals ignore the verbosity. -/
def Externals.IgnoreVerbosity (externals : Externals σ) : Prop :=
  ∀ name run, externals.get? name = some (.callable run) → Callable.IgnoresVerbosity run

/-! ## Muted events -/

/-- A line or a piece of output is written. -/
def Event.isWritten (event : Event) : Bool :=
  match event.action with
  | .wrote _ _ => true
  | _ => false

/-- What happens apart from what is written: the tasks that are entered, the steps and their
success, the programs that are started, each with its arguments, environment and directory, the
calls, and the commands whose value could not be had, of which the log is told. -/
def acts (events : List Event) : List Event := events.filter fun event => !event.isWritten

/-- What happens apart from the writing happens part by part. -/
theorem acts_append (events more : List Event) : acts (events ++ more) = acts events ++ acts more :=
  List.filter_append ..

/-- A line that is written is no act. -/
theorem acts_of_written {event : Event} (h : event.isWritten = true) : acts [event] = [] := by
  rw [acts, List.filter_cons_of_neg (by rw [h]; exact Bool.false_ne_true), List.filter_nil]

/-- The same happens, but some of what the second events write is left out in the first. -/
structure Muted (quiet loud : List Event) : Prop where
  sublist : quiet.Sublist loud
  acts : acts quiet = acts loud

namespace Muted

variable {quiet loud quiet' loud' : List Event}

/-- Nothing is muted. -/
theorem refl (events : List Event) : Muted events events := ⟨.refl events, rfl⟩

/-- Parts that are muted one by one are muted as a whole. -/
theorem append (h : Muted quiet loud) (h' : Muted quiet' loud') :
    Muted (quiet ++ quiet') (loud ++ loud') := by
  refine ⟨h.sublist.append h'.sublist, ?_⟩
  rw [acts_append, acts_append, h.acts, h'.acts]

/-- Behind a gate that opens from some level on, less is written at a lower level. -/
theorem gated {event : Event} (hwritten : event.isWritten = true) (needed : Nat)
    {low high : Nat} (h : low ≤ high) :
    Muted (if needed ≤ low then [event] else []) (if needed ≤ high then [event] else []) := by
  by_cases hlow : needed ≤ low
  · rw [if_pos hlow, if_pos (Nat.le_trans hlow h)]
    exact refl _
  · rw [if_neg hlow]
    split
    · exact ⟨List.nil_sublist _, (acts_of_written hwritten).symm⟩
    · exact refl _

/-- What is written to a stream is a part of what is written to it otherwise, in the same order. -/
theorem pieces (h : Muted quiet loud) (stream : Stream) :
    (quiet.filterMap (Event.piece? stream)).Sublist (loud.filterMap (Event.piece? stream)) :=
  h.sublist.filterMap _

end Muted

/-! ## Quieter contexts -/

/-- The first context is the second one at a verbosity that is not higher. -/
inductive Context.Quieter (quiet : Context) : Context → Prop
  | speaking (verbosity : Verbosity) :
      quiet.verbosity.level ≤ verbosity.level →
      quiet.Quieter (quiet.speaking verbosity)

namespace Context.Quieter

variable {quiet loud : Context}

/-- What does not show the verbosity is the same in both. -/
theorem same {α : Type} (h : quiet.Quieter loud) (view : Context → α)
    (hview : ∀ ctx verbosity, view (ctx.speaking verbosity) = view ctx) :
    view loud = view quiet := by
  obtain ⟨verbosity, _⟩ := h
  exact hview quiet verbosity

/-- A quieter context has the same tasks running. -/
theorem stack_eq (h : quiet.Quieter loud) : loud.stack = quiet.stack :=
  h.same Context.stack fun _ _ => rfl

/-- The same variables are bound in it. -/
theorem vars_eq (h : quiet.Quieter loud) : loud.vars = quiet.vars :=
  h.same Context.vars fun _ _ => rfl

/-- It colours alike what it does write. -/
theorem colour_eq (h : quiet.Quieter loud) : loud.colour = quiet.colour :=
  h.same Context.colour fun _ _ => rfl

/-- References have the same values in it. -/
theorem lookup_eq (h : quiet.Quieter loud) : loud.lookup = quiet.lookup :=
  h.same Context.lookup fun _ _ => rfl

/-- Programs are started in it with the same arguments and the same environment. -/
theorem launch_eq (h : quiet.Quieter loud) : loud.launch = quiet.launch :=
  h.same Context.launch fun _ _ => rfl

/-- Command lines are given to the same shell. -/
theorem shellLaunch?_eq (h : quiet.Quieter loud) : loud.shellLaunch? = quiet.shellLaunch? :=
  h.same Context.shellLaunch? fun _ _ => rfl

/-- Events happen in it where they happened. -/
theorem event_eq (h : quiet.Quieter loud) : loud.event = quiet.event :=
  h.same Context.event fun _ _ => rfl

/-- A line that is written at all is written alike. -/
theorem print_eq (h : quiet.Quieter loud) : loud.print = quiet.print :=
  h.same Context.print fun _ _ => rfl

/-- What programs write is not muted. -/
theorem piece_eq (h : quiet.Quieter loud) : loud.piece = quiet.piece :=
  h.same Context.piece fun _ _ => rfl

/-- A task that leads back to itself is blamed with the same chain. -/
theorem callChain_eq (h : quiet.Quieter loud) : loud.callChain = quiet.callChain :=
  h.same Context.callChain fun _ _ => rfl

/-- Entering a task keeps the contexts alike. -/
theorem entered (h : quiet.Quieter loud) (found : ResolvedTask) (bound : Bound σ) :
    (quiet.entered found bound).Quieter (loud.entered found bound) := by
  obtain ⟨verbosity, hlevel⟩ := h
  exact ⟨verbosity, hlevel⟩

/-- Leaving it does, too. -/
theorem leave (h : quiet.Quieter loud) (saved : List Bindings.Saved) :
    (quiet.pop.2.restore saved).Quieter (loud.pop.2.restore saved) := by
  obtain ⟨verbosity, hlevel⟩ := h
  exact ⟨verbosity, hlevel⟩

/-- What is told at both verbosities is told alike; what only the louder one tells is muted. -/
theorem muted_info (h : quiet.Quieter loud) (line : String) :
    Muted (quiet.info line) (loud.info line) := by
  obtain ⟨verbosity, hlevel⟩ := h
  exact .gated rfl Verbosity.normal.level hlevel

/-- Warnings are muted in the same way. -/
theorem muted_warning (h : quiet.Quieter loud) (message : String) :
    Muted (quiet.warning message) (loud.warning message) := by
  obtain ⟨verbosity, hlevel⟩ := h
  exact .gated rfl Verbosity.quiet.level hlevel

/-- And so are details. -/
theorem muted_debug (h : quiet.Quieter loud) (message : String) :
    Muted (quiet.debug message) (loud.debug message) := by
  obtain ⟨verbosity, hlevel⟩ := h
  exact .gated rfl Verbosity.verbose.level hlevel

end Context.Quieter

/-! ## Values and bindings

    A command whose output is captured is started and told of as at any verbosity. -/

/-- A value does not depend on the verbosity, and nor does what valuing it writes. -/
theorem evaluate_speaking (host : Host σ) (ctx : Context) (verbosity : Verbosity)
    (value : Value) (world : σ) :
    value.evaluate host (ctx.speaking verbosity) world
      = value.evaluate host ctx world := by
  cases value <;> rfl

/-- So variables are bound to the same values. -/
theorem bindVariables_speaking (host : Host σ) (ctx : Context) (verbosity : Verbosity)
    (vars : List Variable) (world : σ) :
    bindVariables host (ctx.speaking verbosity) world vars
      = bindVariables host ctx world vars := by
  induction vars generalizing ctx world with
  | nil => rfl
  | cons v rest ih =>
      let valued := v.value.evaluate host ctx world
      let bound := ctx.vars.bind v.name valued.value
      have hrest := ih { ctx with vars := bound.1 } valued.world
      rw [bindVariables, bindVariables, evaluate_speaking]
      exact congrArg (fun more : Bound σ =>
        (⟨more.vars, bound.2 :: more.saved, more.world, valued.events ++ more.events⟩ : Bound σ))
        hrest

/-- A task is entered with the same bindings, after the same events. -/
theorem Context.Quieter.bindFrame_eq {quiet loud : Context} (h : quiet.Quieter loud)
    (host : Host σ) (found : ResolvedTask) (given : List String) (world : σ) :
    bindFrame host loud found given world = bindFrame host quiet found given world := by
  refine h.same (fun ctx => bindFrame host ctx found given world) fun ctx verbosity => ?_
  rw [bindFrame, bindFrame, bindVariables_speaking]

/-! ## Quieter outcomes -/

/-- Two outcomes of which the first tells less. -/
structure Outcome.Quieter (quiet loud : Outcome σ) : Prop where
  result : quiet.result = loud.result
  context : quiet.context.Quieter loud.context
  world : quiet.world = loud.world
  events : Muted quiet.events loud.events

/-- Two outcomes that differ in nothing but the verbosity of the context and what is written. -/
structure Outcome.SameButWritten (o o' : Outcome σ) : Prop where
  result : o.result = o'.result
  vars : o.context.vars = o'.context.vars
  stack : o.context.stack = o'.context.stack
  world : o.world = o'.world
  acts : acts o.events = acts o'.events

/-- It does not matter which of two outcomes is the louder one. -/
theorem Outcome.SameButWritten.symm {o o' : Outcome σ} (h : o.SameButWritten o') :
    o'.SameButWritten o :=
  ⟨h.result.symm, h.vars.symm, h.stack.symm, h.world.symm, h.acts.symm⟩

namespace Outcome.Quieter

variable {quiet loud : Outcome σ} {ctx ctx' : Context}

/-- A quieter outcome differs in nothing but what is written. -/
theorem sameButWritten (h : quiet.Quieter loud) : quiet.SameButWritten loud :=
  ⟨h.result, h.context.vars_eq.symm, h.context.stack_eq.symm, h.world, h.events.acts⟩

/-- Doing nothing is quiet at every verbosity. -/
theorem done (h : ctx.Quieter ctx') (world : σ) :
    (Outcome.done ctx world).Quieter (Outcome.done ctx' world) :=
  ⟨rfl, h, rfl, .refl []⟩

/-- An error is the same at every verbosity. -/
theorem fail (h : ctx.Quieter ctx') (e : ExecutionError) (world : σ) :
    (Outcome.fail e ctx world).Quieter (Outcome.fail e ctx' world) :=
  ⟨rfl, h, rfl, .refl []⟩

/-- Events that come first may be muted as well. -/
theorem after (h : quiet.Quieter loud) {before before' : List Event}
    (hbefore : Muted before before') : (quiet.after before).Quieter (loud.after before') :=
  ⟨h.result, h.context, h.world, hbefore.append h.events⟩

/-- The form of an error is the same. -/
theorem mapError (h : quiet.Quieter loud) (f : ExecutionError → ExecutionError) :
    (quiet.mapError f).Quieter (loud.mapError f) :=
  ⟨congrArg (Except.mapError f) h.result, h.context, h.world, h.events⟩

/-- Leaving it does, too. -/
theorem leave (h : quiet.Quieter loud) (saved : List Bindings.Saved) :
    (quiet.leave saved).Quieter (loud.leave saved) :=
  ⟨h.result, h.context.leave saved, h.world, h.events⟩

/-- An attempt is logged at every verbosity. -/
theorem ofStep (h : quiet.Quieter loud) (hctx : ctx.Quieter ctx') (step : Step) :
    (quiet.ofStep ctx step).Quieter (loud.ofStep ctx' step) := by
  have hsucceeded : quiet.succeeded = loud.succeeded := congrArg Except.isOk h.result
  rw [Outcome.ofStep, Outcome.ofStep, hsucceeded, hctx.event_eq]
  exact h.after (.refl _)

/-- The louder run goes on just when the quieter one does, since their results agree. -/
theorem andThen (h : quiet.Quieter loud) {next next' : Context → σ → Outcome σ}
    (hnext : ∀ ctx ctx' world, ctx.Quieter ctx' → (next ctx world).Quieter (next' ctx' world)) :
    (quiet.andThen next).Quieter (loud.andThen next') := by
  cases hresult : quiet.result with
  | error e =>
      rw [andThen_of_error hresult, andThen_of_error (h.result ▸ hresult)]
      exact h
  | ok =>
      rw [andThen_of_ok hresult, andThen_of_ok (h.result ▸ hresult), ← h.world]
      exact (hnext _ _ _ h.context).after h.events

/-- A failure is tolerated at every verbosity, whether a warning tells of it or not. -/
theorem tolerate (h : quiet.Quieter loud) (hctx : ctx.Quieter ctx') (command : Command) :
    (tolerate ctx command quiet).Quieter (tolerate ctx' command loud) := by
  rw [TaskRunner.tolerate, TaskRunner.tolerate, ← h.result]
  split
  · exact h
  · split
    · exact ⟨rfl, h.context, h.world, h.events.append (hctx.muted_warning _)⟩
    · exact h

end Outcome.Quieter

/-! ## A task's own work -/

section

variable (host : Host σ) {ctx ctx' : Context} (hctx : ctx.Quieter ctx')

include hctx

/-- A program is started alike, and what it writes passes through at every verbosity. -/
theorem quieter_runProgram (launch : Launch) (startFailure : StartError → ExecutionError)
    (exitFailure : Exit → ExecutionError) (world : σ) :
    (runProgram host ctx launch startFailure exitFailure world).Quieter
      (runProgram host ctx' launch startFailure exitFailure world) := by
  rw [runProgram, runProgram, hctx.event_eq, hctx.piece_eq]
  rcases host.start launch world with ⟨started, later⟩
  cases started with
  | error cause => exact (Outcome.Quieter.fail hctx _ _).after (.refl _)
  | ok completion =>
      refine Outcome.Quieter.after ?_ (.refl _)
      split
      · exact .done hctx _
      · exact .fail hctx _ _

/-- The shell is a program. -/
theorem quieter_runShell (line : String) (world : σ) :
    (runShell host ctx line world).Quieter (runShell host ctx' line world) := by
  rw [runShell, runShell, hctx.shellLaunch?_eq]
  cases ctx.shellLaunch? line with
  | none => exact .fail hctx _ _
  | some launch => exact quieter_runProgram host hctx ..

/-- A command is echoed or run alike; only the line that announces it may be muted. -/
theorem quieter_runCommand (command : Command) (last : Bool) (world : σ) :
    (runCommand host ctx command last world).Quieter
      (runCommand host ctx' command last world) := by
  rw [runCommand, runCommand, hctx.lookup_eq, hctx.colour_eq, hctx.print_eq]
  cases command.echo ctx.lookup with
  | some text => exact (Outcome.Quieter.done hctx _).after (.refl _)
  | none =>
      refine (quieter_runShell host hctx _ _).after ?_
      split
      · exact .refl []
      · exact hctx.muted_info _

/-- The commands of a task agree one after the other, and only warnings about failures are muted. -/
theorem quieter_runCommands (name : String) (commands : List Command) (world : σ) :
    (runCommands host ctx name commands world).Quieter
      (runCommands host ctx' name commands world) := by
  induction commands generalizing ctx ctx' world with
  | nil => exact .done hctx _
  | cons command rest ih =>
      rw [runCommands, runCommands]
      have hcommand := quieter_runCommand host hctx command rest.isEmpty world
      refine ((hcommand.ofStep hctx _).tolerate hctx command).andThen ?_
      exact fun ctx ctx' world hlater => ih hlater world

/-- A program never sees the verbosity, and a callable that ignores it answers alike. -/
theorem quieter_handlerRun {externals : Externals σ} (hexternals : externals.IgnoreVerbosity)
    {task : String} {handler : Handler σ} (hhandler : externals.get? task = some handler)
    (given : List String) (world : σ) :
    (handler.run host ctx task given world).Quieter
      (handler.run host ctx' task given world) := by
  cases handler with
  | program name leading =>
      rw [Handler.run, Handler.run, hctx.launch_eq]
      exact quieter_runProgram host hctx ..
  | callable run =>
      have hanswer : run given ctx' world = run given ctx world := by
        obtain ⟨verbosity, _⟩ := hctx
        exact hexternals task run hhandler given ctx verbosity world
      rw [Handler.run, Handler.run, hanswer, hctx.vars_eq, hctx.event_eq]
      exact ⟨rfl, hctx, rfl, .refl _⟩

/-- **A TASK'S OWN WORK** is the same, but for what is told about it. -/
theorem quieter_runOwn {externals : Externals σ} (hexternals : externals.IgnoreVerbosity)
    (found : ResolvedTask) (given : List String) (world : σ) :
    (runOwn host externals ctx found given world).Quieter
      (runOwn host externals ctx' found given world) := by
  have hheader := hctx.muted_info (Display.taskHeader ctx.colour found.qualified given)
  rw [runOwn, runOwn, hctx.colour_eq]
  cases found.task.dispatch with
  | none =>
      refine (Outcome.Quieter.andThen (quieter_runCommands host hctx ..) ?_).after hheader
      exact fun _ _ world hlater => (Outcome.Quieter.done hlater world).after (hlater.muted_debug _)
  | some dispatch =>
      refine (Outcome.Quieter.ofStep ?_ hctx _).after hheader
      cases hhandler : externals.get? found.qualified with
      | none => exact .fail hctx _ _
      | some handler => exact quieter_handlerRun host hctx hexternals hhandler ..

/-- A whole task is the same, if its dependencies are. -/
theorem Outcome.Quieter.ofTask {externals : Externals σ}
    (hexternals : externals.IgnoreVerbosity) {found : ResolvedTask} {given : List String}
    {bound : Bound σ} {quiet loud : Outcome σ} (h : quiet.Quieter loud) :
    (Outcome.ofTask host externals ctx found given bound quiet).Quieter
      (Outcome.ofTask host externals ctx' found given bound loud) := by
  rw [Outcome.ofTask, Outcome.ofTask, (hctx.entered found bound).event_eq]
  have hown := h.andThen fun ctx ctx' world hlater =>
    quieter_runOwn host hlater hexternals found given world
  exact (hown.leave _).after (((hctx.muted_debug _).append (.refl _)).append (.refl _))

end

/-! ## Invocations -/

/-- **A QUIETER RUN DOES THE SAME**: in a quieter context a task is invoked, and so are
    dependencies, with the same result and the same effects, and less is told. -/
theorem quieter_invoke (file : TaskFile) (host : Host σ) {externals : Externals σ}
    (hexternals : externals.IgnoreVerbosity) :
    (∀ ctx found listed given world ctx', ctx.Quieter ctx' →
      (invoke file host externals ctx found listed given world).Quieter
        (invoke file host externals ctx' found listed given world)) ∧
    ∀ ctx source dependencies world ctx', ctx.Quieter ctx' →
      (invokeAll file host externals ctx source dependencies world).Quieter
        (invokeAll file host externals ctx' source dependencies world) := by
  have hboth := invocation_induction file host externals
    (fun ctx found given world o => ∀ listed ctx', ctx.Quieter ctx' →
      o.Quieter (invoke file host externals ctx' found listed given world))
    (fun ctx source dependencies world o => ∀ ctx', ctx.Quieter ctx' →
      o.Quieter (invokeAll file host externals ctx' source dependencies world))
    ?running ?entered ?nil ?missing ?failed ?next
  · exact ⟨fun ctx found listed given world => hboth.1 ctx found listed given world listed, hboth.2⟩
  case running =>
      intro ctx found given world hrunning listed ctx' hctx
      rw [invoke_of_running file host externals (hctx.stack_eq ▸ hrunning), hctx.callChain_eq]
      exact .fail hctx _ _
  case entered =>
      intro ctx found given world dependencies hnew _ ih listed ctx' hctx
      rw [invoke_of_new file host externals (hctx.stack_eq ▸ hnew)]
      rw [hctx.bindFrame_eq host]
      exact Outcome.Quieter.ofTask host hctx hexternals (ih _ (hctx.entered found _))
  case nil =>
      intro ctx source world ctx' hctx
      rw [invokeAll_nil]
      exact .done hctx _
  case missing =>
      intro ctx source dependency rest world hnone ctx' hctx
      rw [invokeAll_of_none file host externals hnone]
      exact (Outcome.Quieter.fail hctx _ _).ofStep hctx _
  case failed =>
      intro ctx source dependency rest world target first e htarget hfirst ih ctx' hctx
      have hquiet := ih (TaskFile.qualified_mem_names_of_resolveFrom htarget) ctx' hctx
      rw [invokeAll_of_failed file host externals htarget (hquiet.result.symm.trans hfirst)]
      exact hquiet.mapError _
  case next =>
      intro ctx source dependency rest world target first others htarget hfirst ihFirst ihRest
        ctx' hctx
      have hquiet := ihFirst (TaskFile.qualified_mem_names_of_resolveFrom htarget) ctx' hctx
      rw [invokeAll_of_ok file host externals htarget (hquiet.result.symm.trans hfirst),
        context_invoke, ← hquiet.world]
      exact (ihRest ctx' hctx).after hquiet.events

/-! ## Requests -/

namespace Runner

/-- The variables of a task file get the same values at every verbosity. -/
theorem setVariables_speaking (host : Host σ) (ctx : Context) (verbosity : Verbosity)
    (vars : List Variable) (world : σ) :
    setVariables host (ctx.speaking verbosity) world vars
      = ((setVariables host ctx world vars).1.speaking verbosity,
          (setVariables host ctx world vars).2) := by
  induction vars generalizing ctx world with
  | nil => rfl
  | cons v rest ih =>
      let valued := v.value.evaluate host ctx world
      have hrest := ih { ctx with vars := ctx.vars.insert v.name valued.value } valued.world
      rw [setVariables, setVariables, evaluate_speaking]
      exact congrArg (fun later : Context × σ × List Event =>
        (later.1, later.2.1, valued.events ++ later.2.2)) hrest

/-- The same runner at another verbosity. -/
def speaking (runner : Runner σ) (verbosity : Verbosity) : Runner σ :=
  { runner with context := runner.context.speaking verbosity }

/-- A request has the same outcome, but for what is told. -/
theorem quieter_outcome (host : Host σ) {runner : Runner σ} {ctx' : Context}
    (hctx : runner.context.Quieter ctx') (hexternals : runner.externals.IgnoreVerbosity)
    (name : String) (given : List String) (world : σ) :
    (runner.outcome host name given world).Quieter
      ({ runner with context := ctx' }.outcome host name given world) := by
  cases hfound : runner.file.resolve (requestedTask name) with
  | none =>
      rw [outcome_of_none hfound, outcome_of_none (by exact hfound)]
      exact .fail hctx _ _
  | some found =>
      rw [outcome_of_some hfound, outcome_of_some (by exact hfound)]
      exact (quieter_invoke runner.file host hexternals).1 _ _ _ _ _ _ hctx

/-- One request after the other, a quieter runner does the same. -/
theorem quieter_outcomes (host : Host σ) (runner : Runner σ) {ctx' : Context}
    (hctx : runner.context.Quieter ctx') (hexternals : runner.externals.IgnoreVerbosity)
    (requests : List Request) (world : σ) :
    List.Forall₂ Outcome.Quieter (runner.outcomes host world requests)
      ({ runner with context := ctx' }.outcomes host world requests) := by
  induction requests generalizing world with
  | nil => exact .nil
  | cons request rest ih =>
      have hfirst := quieter_outcome host hctx hexternals request.name request.given world
      rw [outcomes_cons, outcomes_cons, ← hfirst.world]
      exact .cons hfirst (ih _)

/-- A runner is made alike at every verbosity. -/
theorem registered_speaking (host : Host σ) (file : TaskFile) (ctx : Context)
    (verbosity : Verbosity) (callables : List (String × Callable σ)) (world : σ) :
    registered host file (ctx.speaking verbosity) callables world
      = ((registered host file ctx callables world).1.speaking verbosity,
          (registered host file ctx callables world).2) := by
  have hall : ∀ runner : Runner σ,
      callables.foldl (fun runner entry => runner.register entry.1 entry.2)
          (runner.speaking verbosity)
        = (callables.foldl (fun runner entry => runner.register entry.1 entry.2)
            runner).speaking verbosity := by
    induction callables with
    | nil => exact fun _ => rfl
    | cons entry rest ih => exact fun runner => ih (runner.register entry.1 entry.2)
  rw [registered, new, setVariables_speaking]
  exact congrArg (·, _) (hall (Runner.new host file ctx world).1)

/-- Dispatchers of the file are programs, so only the callables that are registered matter. -/
theorem ignoreVerbosity_registered (host : Host σ) (file : TaskFile) (ctx : Context)
    {callables : List (String × Callable σ)}
    (hcallables : ∀ entry ∈ callables, Callable.IgnoresVerbosity entry.2) (world : σ) :
    (registered host file ctx callables world).1.externals.IgnoreVerbosity := by
  intro name run hget
  obtain ⟨entry, hmem, rfl⟩ := mem_of_get?_registered hget
  exact hcallables entry hmem

/-! ## Sessions -/

/-- What happens while the variables of a task file get their values, and the outcomes of the
requests that are made then, one after the other on the same runner. -/
structure Session (σ : Type) where
  before : List Event
  outcomes : List (Outcome σ)

/-- Makes a runner, registers callables and makes requests. -/
def session (host : Host σ) (file : TaskFile) (callables : List (String × Callable σ))
    (requests : List Request) (ctx : Context) (world : σ) : Session σ :=
  let (runner, now) := registered host file ctx callables world
  ⟨(Runner.new host file ctx world).2.2, runner.outcomes host now requests⟩

/-- The pieces that are written to a stream during a session. -/
def Session.pieces (session : Session σ) (stream : Stream) : List Octets :=
  (session.before ++ session.outcomes.flatMap (·.events)).filterMap (Event.piece? stream)

/-- The events of all requests of a session are muted as those of each of them are. -/
theorem muted_session {before : List Event} {quiet loud : List (Outcome σ)}
    (h : List.Forall₂ Outcome.Quieter quiet loud) :
    Muted (before ++ quiet.flatMap (·.events)) (before ++ loud.flatMap (·.events)) := by
  refine (Muted.refl before).append ?_
  induction h with
  | nil => exact .refl []
  | cons hfirst _ ih => exact hfirst.events.append ih

section

variable (host : Host σ) (file : TaskFile) (ctx : Context)
  {callables : List (String × Callable σ)}
  (hcallables : ∀ entry ∈ callables, Callable.IgnoresVerbosity entry.2)
  (requests : List Request) (world : σ)

/-- Before the first request, everything is the same at every verbosity. -/
theorem before_session (a b : Verbosity) :
    (session host file callables requests (ctx.speaking a) world).before
      = (session host file callables requests (ctx.speaking b) world).before := by
  show (setVariables host (ctx.speaking a) world file.vars).2.2
    = (setVariables host (ctx.speaking b) world file.vars).2.2
  rw [setVariables_speaking, setVariables_speaking]

include hcallables

/-- Each request of a session is answered alike, since it starts in the world the one before has
left. -/
theorem quieter_session {a b : Verbosity} (h : a.level ≤ b.level) :
    List.Forall₂ Outcome.Quieter
      (session host file callables requests (ctx.speaking a) world).outcomes
      (session host file callables requests (ctx.speaking b) world).outcomes := by
  have hexternals := ignoreVerbosity_registered host file ctx hcallables world
  rw [session, session, registered_speaking, registered_speaking]
  exact quieter_outcomes host (Runner.speaking _ a) (.speaking b h) hexternals requests _

end

/-- **VERBOSITY IS ABOUT TELLING ONLY**: take a file, a context and any requests, with
    callables that ignore the verbosity, at two verbosities.  The runner is the same
    before the first request, and so is all that has happened and been written by then.
    Every request ends with the same result and leaves the same variables, stack and
    world; the same steps are taken, the same programs started with the same arguments,
    environment and directory, the same callables called, and the same failures logged, in
    the same order.  At the lower verbosity what is written to a stream, at each request
    and in all, is what is written to it at the other with some pieces left out. -/
theorem verbosity_is_telling_only (host : Host σ) (file : TaskFile) (ctx : Context)
    (callables : List (String × Callable σ))
    (hcallables : ∀ entry ∈ callables, Callable.IgnoresVerbosity entry.2)
    (requests : List Request) (world : σ) (a b : Verbosity) :
    let made := fun v => registered host file (ctx.speaking v) callables world
    let held := fun v => session host file callables requests (ctx.speaking v) world
    ((made a).1.context.speaking b = (made b).1.context ∧ (made a).2 = (made b).2 ∧
      (held a).before = (held b).before) ∧
    List.Forall₂ Outcome.SameButWritten (held a).outcomes (held b).outcomes ∧
    (a.level ≤ b.level → ∀ stream,
      ((held a).pieces stream).Sublist ((held b).pieces stream) ∧
      List.Forall₂ (fun quiet loud => (quiet.events.filterMap (Event.piece? stream)).Sublist
        (loud.events.filterMap (Event.piece? stream))) (held a).outcomes (held b).outcomes) := by
  intro made held
  have hquieter : ∀ {low high : Verbosity}, low.level ≤ high.level →
      List.Forall₂ Outcome.Quieter (held low).outcomes (held high).outcomes :=
    fun h => quieter_session host file ctx hcallables requests world h
  have hbefore : (held a).before = (held b).before := before_session ..
  refine ⟨⟨?_, ?_, hbefore⟩, ?_, ?_⟩
  · show ((registered host file (ctx.speaking a) callables world).1.context).speaking b
      = (registered host file (ctx.speaking b) callables world).1.context
    rw [registered_speaking, registered_speaking]
    rfl
  · show (registered host file (ctx.speaking a) callables world).2
      = (registered host file (ctx.speaking b) callables world).2
    rw [registered_speaking, registered_speaking]
  · -- the one or the other is the quieter one
    rcases Nat.le_total a.level b.level with hle | hle
    · exact (hquieter hle).imp fun _ _ h => h.sameButWritten
    · exact (hquieter hle).flip.imp fun _ _ h => h.sameButWritten.symm
  · intro hle stream
    constructor
    · rw [Session.pieces, Session.pieces, hbefore]
      exact (muted_session (hquieter hle)).pieces stream
    · exact (hquieter hle).imp fun _ _ h => h.events.pieces stream

/-- A call that succeeds and one that is refused end alike in silence and with every detail, of which
only the latter tells. -/
theorem counting_in_silence :
    Callable.IgnoresVerbosity counted ∧
      let held := fun v =>
        session counting counterFile [("gen", counted)] [⟨"gen", ["x"]⟩, ⟨"gen", []⟩]
          ((default : Context).speaking v) 0
      List.Forall₂ Outcome.SameButWritten (held .silent).outcomes (held .verbose).outcomes ∧
        (held .silent).pieces .err = [] ∧
        (held .verbose).pieces .err
          = List.replicate 2 (Utf8.encode "[DEBUG] Running task: gen\n".toList) := by
  have hcounted : Callable.IgnoresVerbosity counted := fun _ _ _ _ => rfl
  refine ⟨hcounted, ?_⟩
  intro held
  have hboth := verbosity_is_telling_only counting counterFile default [("gen", counted)]
    (fun entry hmem => by rw [List.mem_singleton.mp hmem]; exact hcounted)
    [⟨"gen", ["x"]⟩, ⟨"gen", []⟩] 0 .silent .verbose
  let runner := fun v => (registered counting counterFile ((default : Context).speaking v)
    [("gen", counted)] 0).1
  have hwritten : ∀ v (request : Request) world, request.name = "gen" →
      ((runner v).outcome counting request.name request.given world).events.filterMap
          (Event.piece? .err)
        = if v = .verbose then [Utf8.encode "[DEBUG] Running task: gen\n".toList] else [] := by
    intro v request world hname
    rw [hname, outcome_of_some rfl, invoke_of_new _ _ _ (by cases v <;> decide), invokeAll_nil]
    cases v <;> rfl
  have hpieces : ∀ v, (held v).pieces .err
      = if v = .verbose then List.replicate 2 (Utf8.encode "[DEBUG] Running task: gen\n".toList)
        else [] := by
    intro v
    show ((outcomes counting (runner v) 0 _).flatMap _).filterMap _ = _
    rw [outcomes_cons, outcomes_cons, outcomes, List.flatMap_cons, List.flatMap_cons,
      List.filterMap_append, List.filterMap_append, hwritten _ _ _ rfl, hwritten _ _ _ rfl]
    cases v <;> rfl
  exact ⟨hboth.2.1, hpieces .silent, hpieces .verbose⟩

end Runner

end TaskRunner
