import TaskRunner.Proofs.Dispatching
import TaskRunner.Proofs.ScheduledRuns

/-! # What stands behind an attempt

    A schedule is followed in what a run logs.  This module says that the log can be taken
    at its word: behind the attempt of a step stand the events of performing that very
    step, all of them and nothing in between, and the run goes on in the world that
    performing it left.

    **`Step.Performs`** is what performing a step comes to: a command is printed or given to
    the shell, an external task is given to its handler, and a dependency that nobody knows
    is an error and no more.  **`Log`** says how a log is put together from steps, from the
    values of variables and from lines that tell what is going on, and through which
    worlds it leads.  Parts of a run are logs that are put one behind the other
    (`Log.append`), and so a whole request is one (`Runner.log_outcome`), in a file with
    circles as well.

    Both directions are read off it: an attempt is followed by its step
    (**`Runner.attempts_are_performed`**), and a program that is started for the run, or a
    callable that is called, belongs to a step (**`Runner.work_belongs_to_steps`**). -/

namespace TaskRunner

variable {σ : Type}

/-! ## Steps -/

/-- The task that a step belongs to. -/
def Step.task : Step → String
  | .command task _ => task
  | .external task => task
  | .missing task _ => task

/-- Performing a step in a context and a world has this outcome. -/
inductive Step.Performs (host : Host σ) (externals : Externals σ) (ctx : Context) (world : σ) :
    Step → Outcome σ → Prop
  | command (task : String) (command : Command) (last : Bool) :
      Performs host externals ctx world (.command task command)
        (runCommand host ctx command last world)
  | handled (task : String) (given : List String) {handler : Handler σ}
      (registered : externals.get? task = some handler) :
      Performs host externals ctx world (.external task)
        (handler.run host ctx task given world)
  | unavailable {task : String} (nobody : externals.get? task = none) :
      Performs host externals ctx world (.external task)
        (Outcome.fail (.externalUnavailable task) ctx world)
  | missing (task dependency : String) :
      Performs host externals ctx world (.missing task dependency)
        (Outcome.fail (.dependencyFailed task dependency (.taskNotFound dependency)) ctx world)

/-- Nothing is attempted while a step is performed. -/
theorem Step.Performs.quiet {host : Host σ} {externals : Externals σ} {ctx : Context}
    {world : σ} {step : Step} {done : Outcome σ}
    (h : step.Performs host externals ctx world done) : Quiet done.events := by
  cases h with
  | command task command last => exact quiet_runCommand ..
  | handled task given registered => exact quiet_handlerRun ..
  | unavailable nobody => rfl
  | missing task dependency => rfl

/-- A step is performed where it is attempted, with nothing exported but the variables of its
context. -/
theorem Step.Performs.within {host : Host σ} {externals : Externals σ} {ctx : Context}
    {world : σ} {step : Step} {done : Outcome σ}
    (h : step.Performs host externals ctx world done) :
    Within ctx.stack (· = ctx.vars) done.events := by
  cases h with
  | command task command last => exact within_runCommand ..
  | handled task given registered => exact within_handlerRun ..
  | unavailable nobody => exact .nil
  | missing task dependency => exact .nil

/-- A command is printed by the run itself, which starts nothing, or its line is given to the shell,
and that is all that is started for it. -/
theorem Step.Performs.command_shows {host : Host σ} {externals : Externals σ} {ctx : Context}
    {world : σ} {task : String} {command : Command} {done : Outcome σ}
    (h : (Step.command task command).Performs host externals ctx world done) :
    (∃ text, command.echo ctx.lookup = some text ∧
      done.events = [ctx.print .out (Display.echoLine ctx.colour text)]) ∨
    (command.echo ctx.lookup = none ∧ ∃ started,
      done.events.filter Event.isWork
        = (ctx.shellLaunch? (command.render ctx.lookup)).toList.map fun launch =>
            ctx.event (.launched launch started)) := by
  cases h with
  | command task command last =>
      rw [runCommand]
      cases hecho : command.echo ctx.lookup with
      | some text => exact Or.inl ⟨text, rfl, rfl⟩
      | none =>
          refine Or.inr ⟨rfl, ?_⟩
          have hshown : ∀ line, (if command.silent then [] else ctx.info line).filter
              Event.isWork = [] := by
            intro line
            split
            · rfl
            · exact (within_info ..).no_work
          dsimp only
          rw [Outcome.events_after, List.filter_append, hshown, List.nil_append, runShell,
            Context.shellLaunch?]
          cases ctx.interpreter with
          | nil => exact ⟨false, rfl⟩
          | cons program leading => exact work_runProgram ..

/-! ## Logs -/

/-- An event that only tells: a task is entered, or something is written. -/
def Event.tells (event : Event) : Bool :=
  match event.action with
  | .entered => true
  | .wrote _ _ => true
  | _ => false

/-- Events that happen from one world to another, put together from events that only tell, from
what the values of variables take, and from steps: each is attempted while its task is the
innermost that is running, and is performed right then. -/
inductive Log (host : Host σ) (externals : Externals σ) : σ → List Event → σ → Prop
  | nil (world : σ) : Log host externals world [] world
  | told {event : Event} {world after : σ} {rest : List Event} (tells : event.tells = true)
      (more : Log host externals world rest after) : Log host externals world (event :: rest) after
  | valued (ctx : Context) (value : Value) {world after : σ} {rest : List Event}
      (more : Log host externals (value.evaluate host ctx world).world rest after) :
      Log host externals world ((value.evaluate host ctx world).events ++ rest) after
  | step {ctx : Context} {step : Step} {done : Outcome σ} {world after : σ} {rest : List Event}
      (running : ctx.stack.getLast? = some step.task)
      (performed : step.Performs host externals ctx world done)
      (more : Log host externals done.world rest after) :
      Log host externals world
        (ctx.event (.attempted step done.succeeded) :: (done.events ++ rest)) after

section

variable {host : Host σ} {externals : Externals σ}

/-- A log goes on where another one ends. -/
theorem Log.append {world middle after : σ} {events more : List Event}
    (h : Log host externals world events middle) (hmore : Log host externals middle more after) :
    Log host externals world (events ++ more) after := by
  induction h with
  | nil => exact hmore
  | told tells _ ih => exact .told tells (ih hmore)
  | valued ctx value _ ih =>
      rw [List.append_assoc]
      exact .valued ctx value (ih hmore)
  | step running performed _ ih =>
      rw [List.cons_append, List.append_assoc]
      exact .step running performed (ih hmore)

/-- An event that only tells leaves the world as it is. -/
theorem log_told {event : Event} (world : σ) (htells : event.tells = true) :
    Log host externals world [event] world :=
  .told htells (.nil world)

/-- What is told only where it is wanted is a log in any case. -/
theorem log_gated (wanted : Prop) [Decidable wanted] {event : Event} (htells : event.tells = true)
    (world : σ) : Log host externals world (if wanted then [event] else []) world := by
  split
  · exact log_told world htells
  · exact .nil world

/-- A line for the user is a log. -/
theorem log_info (ctx : Context) (line : String) (world : σ) :
    Log host externals world (ctx.info line) world := log_gated _ rfl world

/-- A warning is one too. -/
theorem log_warning (ctx : Context) (message : String) (world : σ) :
    Log host externals world (ctx.warning message) world := log_gated _ rfl world

/-- And so is a detail. -/
theorem log_debug (ctx : Context) (message : String) (world : σ) :
    Log host externals world (ctx.debug message) world := log_gated _ rfl world

/-- A step that is attempted is the log of itself. -/
theorem log_ofStep {ctx : Context} {step : Step} {done : Outcome σ} {world : σ}
    (hrunning : ctx.stack.getLast? = some step.task)
    (hperformed : step.Performs host externals ctx world done) :
    Log host externals world (done.ofStep ctx step).events (done.ofStep ctx step).world := by
  have hlog := Log.step hrunning hperformed (.nil done.world)
  rw [List.append_nil] at hlog
  exact hlog

/-- Two parts of a run are one log, if the second is one wherever the first ends. -/
theorem log_andThen {o : Outcome σ} {next : Context → σ → Outcome σ} {world : σ}
    (h : Log host externals world o.events o.world)
    (hnext : Log host externals o.world (next o.context o.world).events
      (next o.context o.world).world) :
    Log host externals world (o.andThen next).events (o.andThen next).world := by
  cases hresult : o.result with
  | error e =>
      rw [Outcome.andThen_of_error hresult]
      exact h
  | ok =>
      rw [Outcome.andThen_of_ok hresult]
      exact h.append hnext

end

/-! ## Runs are logs -/

section

variable (host : Host σ) (externals : Externals σ)

/-- The leave to fail adds at most a warning, behind the step. -/
theorem log_tolerate {ctx : Context} {o : Outcome σ} {world : σ}
    (h : Log host externals world o.events o.world) (command : Command) :
    Log host externals world (tolerate ctx command o).events
      (tolerate ctx command o).world := by
  rw [tolerate]
  split
  · exact h
  · split
    · exact h.append (log_warning ..)
    · exact h

/-- The commands of the innermost task are the steps of a log, one after the other. -/
theorem log_runCommands {ctx : Context} {name : String} (hrunning : ctx.stack.getLast? = some name)
    (commands : List Command) (world : σ) :
    Log host externals world (runCommands host ctx name commands world).events
      (runCommands host ctx name commands world).world := by
  induction commands generalizing world with
  | nil => exact .nil world
  | cons command rest ih =>
      let step : Step := .command name command
      have hperformed : step.Performs host externals ctx world
          (runCommand host ctx command rest.isEmpty world) := .command name command rest.isEmpty
      have hrunningStep : ctx.stack.getLast? = some step.task := hrunning
      rw [runCommands]
      refine log_andThen
        (log_tolerate host externals (log_ofStep hrunningStep hperformed) command) ?_
      rw [context_tolerate]
      rw [show (Outcome.ofStep ctx _ (runCommand host ctx command _ _)).context = ctx from
        context_runCommand ..]
      exact ih _

/-- What a task does itself is a log of its steps. -/
theorem log_runOwn {ctx : Context} {found : ResolvedTask}
    (hrunning : ctx.stack.getLast? = some found.qualified) (given : List String) (world : σ) :
    Log host externals world (runOwn host externals ctx found given world).events
      (runOwn host externals ctx found given world).world := by
  rw [runOwn]
  dsimp only
  cases found.task.dispatch with
  | some dispatch =>
      refine (log_info ..).append (log_ofStep hrunning ?_)
      cases hhandler : externals.get? found.qualified with
      | none => exact .unavailable hhandler
      | some handler => exact .handled found.qualified given hhandler
  | none =>
      refine (log_info ..).append (log_andThen (log_runCommands host externals hrunning ..) ?_)
      exact (log_debug ..).append (.nil _)

/-- Giving variables their values attempts no step, and is a log for each value. -/
theorem log_bindVariables (ctx : Context) (vars : List Variable) (world : σ) :
    Log host externals world (bindVariables host ctx world vars).events
      (bindVariables host ctx world vars).world := by
  induction vars generalizing ctx world with
  | nil => exact .nil world
  | cons v rest ih =>
      rw [bindVariables]
      exact .valued ctx v.value (ih ..)

/-- A task is entered, its dependencies are a log, and its own work is one behind them. -/
theorem log_ofTask {ctx : Context} {found : ResolvedTask} (given : List String) {world : σ}
    {dependencies : Outcome σ}
    (hcontext : dependencies.context = ctx.entered found (bindFrame host ctx found given world))
    (h : Log host externals (bindFrame host ctx found given world).world dependencies.events
      dependencies.world) :
    let o := Outcome.ofTask host externals ctx found given (bindFrame host ctx found given world)
      dependencies
    Log host externals world o.events o.world := by
  have hrunning : dependencies.context.stack.getLast? = some found.qualified := by
    rw [hcontext, Context.stack_entered, List.getLast?_concat]
  have hbound : Log host externals world
      (ctx.debug ("Running task: " ++ found.qualified)
        ++ (bindFrame host ctx found given world).events)
      (bindFrame host ctx found given world).world :=
    (log_debug ..).append (log_bindVariables ..)
  exact (hbound.append (log_told _ rfl)).append
    (log_andThen h (log_runOwn host externals hrunning ..))

/-- **AN INVOCATION IS A LOG**, from the world it starts in to the world it leaves. -/
theorem log_invoke (file : TaskFile) :
    ∀ ctx found listed given world,
      Log host externals world (invoke file host externals ctx found listed given world).events
        (invoke file host externals ctx found listed given world).world := by
  refine (invocation_induction file host externals
    (fun _ _ _ world o => Log host externals world o.events o.world)
    (fun ctx source _ world o => ctx.stack.getLast? = some source.qualified →
      Log host externals world o.events o.world)
    ?running ?entered ?nil ?missing ?failed ?next).1
  case running => exact fun ctx found given world _ => .nil world
  case entered =>
      intro ctx found given world dependencies _ hcontext ih
      refine log_ofTask host externals given hcontext (ih ?_)
      rw [Context.stack_entered, List.getLast?_concat]
  case nil => exact fun ctx source world _ => .nil world
  case missing =>
      intro ctx source dependency rest world _ hrunning
      exact log_ofStep hrunning (.missing source.qualified dependency)
  case failed =>
      intro ctx source dependency rest world target first e _ _ ih _
      exact ih
  case next =>
      intro ctx source dependency rest world target first others _ _ ihFirst ihRest hrunning
      exact ihFirst.append (ihRest hrunning)

end

/-- A request is a log. -/
theorem Runner.log_outcome (host : Host σ) (runner : Runner σ) (name : String)
    (given : List String) (world : σ) :
    Log host runner.externals world (runner.outcome host name given world).events
      (runner.outcome host name given world).world := by
  cases hfound : runner.file.resolve (requestedTask name) with
  | none =>
      rw [outcome_of_none hfound]
      exact .nil world
  | some found =>
      rw [outcome_of_some hfound]
      exact log_invoke host runner.externals runner.file ..

/-! ## Reading a log -/

/-- An attempt is not among events that attempt nothing, so it stands behind all of them. -/
theorem Quiet.exists_of_append_eq {events rest front back : List Event} {event : Event}
    {attempt : Step × Bool} (hquiet : Quiet events) (hattempt : event.attempt? = some attempt)
    (h : events ++ rest = front ++ event :: back) :
    ∃ more, front = events ++ more ∧ rest = more ++ event :: back := by
  rcases List.append_eq_append_iff.mp h with ⟨more, hfront, hrest⟩ | ⟨more, hevents, hback⟩
  · exact ⟨more, hfront, hrest⟩
  · cases more with
    | nil =>
        refine ⟨[], ?_, hback.symm⟩
        rw [hevents, List.append_nil, List.append_nil]
    | cons first more =>
        obtain ⟨rfl, -⟩ := List.cons.inj hback
        have hmem : attempt ∈ attempts events := by
          refine List.mem_filterMap.mpr ⟨event, ?_, hattempt⟩
          rw [hevents]
          exact List.mem_append_right front List.mem_cons_self
        rw [hquiet] at hmem
        exact absurd hmem List.not_mem_nil

variable {host : Host σ} {externals : Externals σ}

/-- Where a log has an attempt, it is a log up to there, the step is performed in the world it has
come to, and it goes on as a log from the world in which performing the step ends. -/
theorem Log.performs_of_attempted {world after : σ} {front rest : List Event}
    {stack : List String} {step : Step} {succeeded : Bool}
    (h : Log host externals world (front ++ ⟨stack, .attempted step succeeded⟩ :: rest) after) :
    ∃ ctx before done more, ctx.stack = stack ∧ stack.getLast? = some step.task ∧
      Log host externals world front before ∧ step.Performs host externals ctx before done ∧
      succeeded = done.succeeded ∧ rest = done.events ++ more ∧
      Log host externals done.world more after := by
  generalize hevents : front ++ _ = events at h
  induction h generalizing front with
  | nil world => exact absurd hevents (by simp)
  | @told event world after others tells more ih =>
      cases front with
      | nil =>
          obtain ⟨rfl, -⟩ := List.cons.inj hevents
          cases tells
      | cons first front =>
          obtain ⟨rfl, hrest⟩ := List.cons.inj hevents
          obtain ⟨ctx, before, done, last, hstack, htask, hfront, hmore⟩ := ih hrest
          exact ⟨ctx, before, done, last, hstack, htask, .told tells hfront, hmore⟩
  | @valued ctx value world after others more ih =>
      obtain ⟨middle, rfl, hmiddle⟩ :=
        (quiet_evaluate host ctx value world).exists_of_append_eq rfl hevents.symm
      obtain ⟨ctx', before, done, last, hstack, htask, hfront, hmore⟩ := ih hmiddle.symm
      exact ⟨ctx', before, done, last, hstack, htask, .valued ctx value hfront, hmore⟩
  | @step ctx other done world after others running performed more ih =>
      cases front with
      | nil =>
          obtain ⟨hevent, rfl⟩ := List.cons.inj hevents
          cases hevent
          exact ⟨ctx, world, done, others, rfl, running, .nil world, performed, rfl, rfl, more⟩
      | cons first front =>
          obtain ⟨rfl, hrest⟩ := List.cons.inj hevents
          obtain ⟨middle, rfl, hmiddle⟩ :=
            performed.quiet.exists_of_append_eq rfl hrest.symm
          obtain ⟨ctx', before, done', last, hstack, htask, hfront, hmore⟩ := ih hmiddle.symm
          exact ⟨ctx', before, done', last, hstack, htask, .step running performed hfront, hmore⟩

/-- Telling is not work. -/
theorem not_work_of_tells {event : Event} (h : event.tells = true) : event.isWork = false := by
  obtain ⟨stack, action⟩ := event
  cases action with
  | entered => rfl
  | wrote stream piece => rfl
  | _ => cases h

/-- An event is one of those that performing a step takes, and `events` have them all right behind
the attempt of the step. -/
def OfStep (host : Host σ) (externals : Externals σ) (events : List Event) (event : Event) :
    Prop :=
  ∃ (ctx : Context) (before : σ) (step : Step) (done : Outcome σ) (front more : List Event),
    events = front ++ ctx.event (.attempted step done.succeeded) :: (done.events ++ more) ∧
    step.Performs host externals ctx before done ∧ event ∈ done.events

/-- What comes before a step does not take its events away. -/
theorem OfStep.prepend {events : List Event} {event : Event}
    (h : OfStep host externals events event) (first : List Event) :
    OfStep host externals (first ++ events) event := by
  obtain ⟨ctx, before, step, done, front, more, rfl, hdone⟩ := h
  refine ⟨ctx, before, step, done, first ++ front, more, ?_, hdone⟩
  rw [List.append_assoc]

/-- What works for a run in a log belongs to a step. -/
theorem Log.ofStep_of_work {world after : σ} {events : List Event} {event : Event}
    (h : Log host externals world events after) (hmem : event ∈ events)
    (hwork : event.isWork = true) : OfStep host externals events event := by
  induction h with
  | nil => exact absurd hmem List.not_mem_nil
  | @told first world after rest tells more ih =>
      rcases List.mem_cons.mp hmem with rfl | hrest
      · exact absurd hwork (by simp [not_work_of_tells tells])
      · exact (ih hrest).prepend [first]
  | @valued ctx value world after rest more ih =>
      rcases List.mem_append.mp hmem with hvalue | hrest
      · have hnone := (within_evaluate host ctx value (fun _ => False) world).no_work
        exact absurd hwork (List.filter_eq_nil_iff.mp hnone event hvalue)
      · exact (ih hrest).prepend _
  | @step ctx step done world after rest running performed more ih =>
      rcases List.mem_cons.mp hmem with rfl | hothers
      · cases hwork
      · rcases List.mem_append.mp hothers with hdone | hrest
        · exact ⟨ctx, world, step, done, [], rest, rfl, performed, hdone⟩
        · exact (ih hrest).prepend (_ :: done.events)

namespace Runner

/-- **STEPS ARE WHAT IS LOGGED**: behind the attempt of a step, in a request on any runner, stand
    the events of performing that step, in the world that what comes before has led to,
    while its task is the innermost that is running; they happen where the step was
    attempted and export nothing but the variables there; the attempt says how it all
    ended; and the rest of the log starts in the world that the step left. -/
theorem attempts_are_performed (host : Host σ) (runner : Runner σ) (name : String)
    (given : List String) (world : σ) {front rest : List Event} {stack : List String}
    {step : Step} {succeeded : Bool}
    (h : (runner.run host name given world).1.events
      = front ++ ⟨stack, .attempted step succeeded⟩ :: rest) :
    ∃ ctx before done more, ctx.stack = stack ∧ stack.getLast? = some step.task ∧
      Log host runner.externals world front before ∧
      step.Performs host runner.externals ctx before done ∧
      succeeded = done.succeeded ∧ rest = done.events ++ more ∧
      Within stack (· = ctx.vars) done.events ∧
      Log host runner.externals done.world more (runner.run host name given world).1.world := by
  have hlog := runner.log_outcome host name given world
  rw [show (runner.outcome host name given world).events = _ from h] at hlog
  obtain ⟨ctx, before, done, more, rfl, htask, hfront, hperformed, hsucceeded, hrest, hmore⟩ :=
    hlog.performs_of_attempted
  exact ⟨ctx, before, done, more, rfl, htask, hfront, hperformed, hsucceeded, hrest,
    hperformed.within, hmore⟩

/-- **WORK BELONGS TO STEPS**: a program that a request starts, other than for the value of a
    variable, or a callable that it calls, is among the events of performing a step, which stand right
    behind the attempt of it. -/
theorem work_belongs_to_steps (host : Host σ) (runner : Runner σ) (name : String)
    (given : List String) (world : σ) {event : Event}
    (hmem : event ∈ (runner.run host name given world).1.events)
    (hwork : event.isWork = true) :
    OfStep host runner.externals (runner.run host name given world).1.events event :=
  (runner.log_outcome host name given world).ofStep_of_work hmem hwork

end Runner

end TaskRunner
