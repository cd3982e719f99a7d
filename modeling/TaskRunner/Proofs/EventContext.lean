import TaskRunner.Run.Runner

/-! # Where events happen

    Every event knows the tasks that were running when it happened, and an event that
    starts a program or calls a callable knows the variables that were **exported** to it.
    What a task does itself happens in the one context in which it does it
    (**`within_runOwn`**): the tasks of that context are running, and nothing but its
    variables is exported.  What happens while a task is being entered happens with the
    tasks of the caller running, and nothing is exported to a command or a callable at all
    (**`within_bindFrame`**): the programs that are started then are captured.

    `Within` is the one property behind both, and every function on the way has its
    lemma. -/

namespace TaskRunner

variable {σ : Type}

/-- The variables that are exported to a program or callable which runs for a command or an external
task.  A program whose output is captured runs for the value of a variable instead. -/
def Event.exported? (event : Event) : Option Bindings :=
  match event.action with
  | .launched launch _ => if launch.captured then none else some launch.vars
  | .called _ _ vars => some vars
  | _ => none

/-- All events happen while the tasks of `stack` are running, and export only variables that meet
`ok`. -/
structure Within (stack : List String) (ok : Bindings → Prop) (events : List Event) : Prop where
  stack_eq : ∀ event ∈ events, event.stack = stack
  exported : ∀ event ∈ events, ∀ vars, event.exported? = some vars → ok vars

namespace Within

variable {stack : List String} {ok : Bindings → Prop} {events more : List Event}

/-- Where nothing happens, nothing is exported. -/
theorem nil : Within stack ok [] :=
  ⟨fun _ hmem => absurd hmem List.not_mem_nil, fun _ hmem => absurd hmem List.not_mem_nil⟩

/-- Parts of a run that keep to their stack and their exports do so together. -/
theorem append (h : Within stack ok events) (hmore : Within stack ok more) :
    Within stack ok (events ++ more) := by
  constructor
  · intro event hmem
    rcases List.mem_append.mp hmem with hmem | hmem
    · exact h.stack_eq event hmem
    · exact hmore.stack_eq event hmem
  · intro event hmem
    rcases List.mem_append.mp hmem with hmem | hmem
    · exact h.exported event hmem
    · exact hmore.exported event hmem

/-- An event that exports nothing. -/
theorem private_event {ctx : Context} {action : Action}
    (h : (ctx.event action).exported? = none) : Within ctx.stack ok [ctx.event action] := by
  constructor
  · intro event hmem
    rw [List.mem_singleton.mp hmem, Context.event]
  · intro event hmem vars hvars
    rw [List.mem_singleton.mp hmem, h] at hvars
    cases hvars

/-- An event that exports variables. -/
theorem exporting_event {ctx : Context} {action : Action} {vars : Bindings}
    (h : (ctx.event action).exported? = some vars) (hok : ok vars) :
    Within ctx.stack ok [ctx.event action] := by
  constructor
  · intro event hmem
    rw [List.mem_singleton.mp hmem, Context.event]
  · intro event hmem other hother
    rw [List.mem_singleton.mp hmem, h] at hother
    obtain rfl := Option.some.inj hother
    exact hok

/-- What both parts keep to, the whole keeps to. -/
theorem andThen {o : Outcome σ} {next : Context → σ → Outcome σ}
    (h : Within stack ok o.events)
    (hnext : ∀ world, Within stack ok (next o.context world).events) :
    Within stack ok (o.andThen next).events := by
  cases hresult : o.result with
  | error e =>
      rw [Outcome.andThen_of_error hresult]
      exact h
  | ok =>
      rw [Outcome.andThen_of_ok hresult]
      exact h.append (hnext o.world)

end Within

/-! ## Lines that are written -/

section

variable (ctx : Context) (ok : Bindings → Prop)

/-- An event that exports nothing exports nothing where it is left out. -/
theorem within_gated (wanted : Prop) [Decidable wanted] {action : Action}
    (h : (ctx.event action).exported? = none) :
    Within ctx.stack ok (if wanted then [ctx.event action] else []) := by
  split
  · exact .private_event h
  · exact .nil

/-- Telling exports nothing. -/
theorem within_info (line : String) : Within ctx.stack ok (ctx.info line) :=
  within_gated ctx ok _ rfl

/-- Nor does warning. -/
theorem within_warning (message : String) : Within ctx.stack ok (ctx.warning message) :=
  within_gated ctx ok _ rfl

/-- Nor do details. -/
theorem within_debug (message : String) : Within ctx.stack ok (ctx.debug message) :=
  within_gated ctx ok _ rfl

/-- What a program writes was exported by nobody. -/
theorem within_piece (stream : Stream) (piece : Octets) :
    Within ctx.stack ok (ctx.piece stream piece) := by
  rw [Context.piece]
  split
  · exact .nil
  · exact .private_event rfl

end

/-! ## A task's own work -/

/-- A program that is started gets the variables of the context. -/
theorem within_runProgram (host : Host σ) (ctx : Context) (program : String)
    (arguments : List String) (startFailure : StartError → ExecutionError)
    (exitFailure : Exit → ExecutionError) (world : σ) :
    Within ctx.stack (· = ctx.vars)
      (runProgram host ctx (ctx.launch program arguments) startFailure exitFailure
        world).events := by
  have hlaunch : ∀ started, Within ctx.stack (· = ctx.vars)
      [ctx.event (.launched (ctx.launch program arguments) started)] :=
    fun started => .exporting_event rfl rfl
  rw [runProgram]
  split
  · exact (hlaunch false).append .nil
  · rename_i completion after hstart
    have hbefore := (hlaunch true).append
      ((within_piece ctx _ .out completion.out).append (within_piece ctx _ .err completion.err))
    dsimp only
    split
    · exact hbefore.append .nil
    · exact hbefore.append .nil

/-- The shell gets them, too. -/
theorem within_runShell (host : Host σ) (ctx : Context) (line : String) (world : σ) :
    Within ctx.stack (· = ctx.vars) (runShell host ctx line world).events := by
  rw [runShell, Context.shellLaunch?]
  cases ctx.interpreter with
  | nil => exact .nil
  | cons program leading => exact within_runProgram ..

/-- A command that is printed exports nothing, and any other is given to the shell. -/
theorem within_runCommand (host : Host σ) (ctx : Context) (command : Command) (last : Bool)
    (world : σ) :
    Within ctx.stack (· = ctx.vars) (runCommand host ctx command last world).events := by
  rw [runCommand]
  split
  · exact (Within.private_event rfl).append .nil
  · refine Within.append ?_ (within_runShell ..)
    split
    · exact .nil
    · exact within_info ..

/-- A step happens where its attempt does. -/
theorem within_ofStep {ok : Bindings → Prop} {ctx : Context} {o : Outcome σ}
    (h : Within ctx.stack ok o.events) (step : Step) :
    Within ctx.stack ok (o.ofStep ctx step).events :=
  (Within.private_event rfl).append h

/-- A failure that is tolerated adds at most a warning. -/
theorem within_tolerate {ok : Bindings → Prop} {ctx : Context} {o : Outcome σ}
    (h : Within ctx.stack ok o.events) (command : Command) :
    Within ctx.stack ok (tolerate ctx command o).events := by
  rw [tolerate]
  split
  · exact h
  · split
    · exact h.append (within_warning ..)
    · exact h

/-- Commands leave the context alone, so that the next one runs in the same. -/
theorem within_runCommands (host : Host σ) (ctx : Context) (name : String)
    (commands : List Command) (world : σ) :
    Within ctx.stack (· = ctx.vars) (runCommands host ctx name commands world).events := by
  induction commands generalizing world with
  | nil => exact .nil
  | cons command rest ih =>
      have hcommand := within_runCommand host ctx command rest.isEmpty world
      refine (within_tolerate (within_ofStep hcommand _) command).andThen fun world => ?_
      rw [context_tolerate]
      rw [show (Outcome.ofStep ctx _ (runCommand host ctx command _ _)).context = ctx from
        context_runCommand ..]
      exact ih world

/-- A callable sees the variables, and a program gets them. -/
theorem within_handlerRun (host : Host σ) (ctx : Context) (task : String) (given : List String)
    (world : σ) (handler : Handler σ) :
    Within ctx.stack (· = ctx.vars) (handler.run host ctx task given world).events := by
  cases handler with
  | program name leading =>
      rw [Handler.run]
      exact within_runProgram ..
  | callable run => exact .exporting_event rfl rfl

/-- **A TASK'S OWN WORK HAPPENS IN ITS CONTEXT**, and what is exported to the programs and
    callables that do it is the variables of that context. -/
theorem within_runOwn (host : Host σ) (externals : Externals σ) (ctx : Context)
    (found : ResolvedTask) (given : List String) (world : σ) :
    Within ctx.stack (· = ctx.vars) (runOwn host externals ctx found given world).events := by
  rw [runOwn]
  cases found.task.dispatch with
  | some dispatch =>
      refine (within_info ..).append (within_ofStep ?_ _)
      cases externals.get? found.qualified with
      | none => exact .nil
      | some handler => exact within_handlerRun ..
  | none =>
      refine (within_info ..).append ((within_runCommands ..).andThen fun world => ?_)
      rw [context_runCommands]
      exact (within_debug ..).append .nil

/-! ## Entering a task -/

/-- The shell that is captured runs for a value, so that it does not count. -/
theorem within_capture (host : Host σ) (ctx : Context) (line : String) (ok : Bindings → Prop)
    (world : σ) : Within ctx.stack ok (capture host ctx line world).events := by
  rw [capture, Context.shellLaunch?]
  cases ctx.interpreter with
  | nil => exact .nil
  | cons program leading =>
      dsimp only [Option.map_some]
      split
      · exact .private_event rfl
      · exact (Within.private_event rfl).append (within_piece ..)

/-- A value is had from the bindings, or by a capture. -/
theorem within_evaluate (host : Host σ) (ctx : Context) (value : Value) (ok : Bindings → Prop)
    (world : σ) : Within ctx.stack ok (value.evaluate host ctx world).events := by
  cases value with
  | literal text => exact .nil
  | multiline text => exact .nil
  | expression e => exact .nil
  | substitution command =>
      have hcapture := within_capture host ctx command ok world
      rw [Value.evaluate]
      split
      · exact hcapture
      · exact hcapture.append (.private_event rfl)

/-- Variables are bound one after the other, with the same tasks running. -/
theorem within_bindVariables (host : Host σ) (ctx : Context) (vars : List Variable)
    (ok : Bindings → Prop) (world : σ) :
    Within ctx.stack ok (bindVariables host ctx world vars).events := by
  induction vars generalizing ctx world with
  | nil => exact .nil
  | cons v rest ih =>
      let valued := v.value.evaluate host ctx world
      have hrest := ih { ctx with vars := (ctx.vars.bind v.name valued.value).1 } valued.world
      rw [bindVariables]
      exact (within_evaluate ..).append hrest

/-- **NOTHING IS EXPORTED ON THE WAY IN**: what happens while a task is being entered
    happens in the context of its caller, and no command or callable runs. -/
theorem within_bindFrame (host : Host σ) (ctx : Context) (found : ResolvedTask)
    (given : List String) (ok : Bindings → Prop) (world : σ) :
    Within ctx.stack ok (bindFrame host ctx found given world).events :=
  within_bindVariables ..

/-- What happens while a task is invoked happens on the way in, in one of its dependencies, or where
the task does its own work. -/
theorem mem_events_ofTask {host : Host σ} {externals : Externals σ} {ctx : Context}
    {found : ResolvedTask} {given : List String} {world : σ} {dependencies : Outcome σ}
    {event : Event}
    (hcontext : dependencies.context = ctx.entered found (bindFrame host ctx found given world))
    (h : event ∈ (Outcome.ofTask host externals ctx found given
      (bindFrame host ctx found given world) dependencies).events) :
    (event.stack = ctx.stack ∧ ∀ vars, event.exported? ≠ some vars) ∨
      event ∈ dependencies.events ∨
      (event.stack = ctx.stack ++ [found.qualified] ∧
        ∀ vars, event.exported? = some vars →
          vars = (bindFrame host ctx found given world).vars) := by
  have hbefore : Within ctx.stack (fun _ => False)
      (ctx.debug ("Running task: " ++ found.qualified)
        ++ (bindFrame host ctx found given world).events) :=
    (within_debug ..).append (within_bindFrame ..)
  have hwork : Within (ctx.stack ++ [found.qualified])
      (· = (bindFrame host ctx found given world).vars)
      (runOwn host externals dependencies.context found given dependencies.world).events := by
    rw [hcontext]
    exact within_runOwn host externals
      (ctx.entered found (bindFrame host ctx found given world)) found given dependencies.world
  rw [Outcome.ofTask, Outcome.events_after, Outcome.events_leave] at h
  rcases List.mem_append.mp h with hentry | hrest
  · rcases List.mem_append.mp hentry with hentry | hentered
    · exact Or.inl ⟨hbefore.stack_eq event hentry, fun vars => hbefore.exported event hentry vars⟩
    · rw [List.mem_singleton.mp hentered]
      refine Or.inr (Or.inr ⟨rfl, fun vars hvars => ?_⟩)
      cases hvars
  · cases hresult : dependencies.result with
    | error e =>
        rw [Outcome.andThen_of_error hresult] at hrest
        exact Or.inr (Or.inl hrest)
    | ok =>
        rw [Outcome.andThen_of_ok hresult] at hrest
        rcases List.mem_append.mp hrest with hdependency | hown
        · exact Or.inr (Or.inl hdependency)
        · exact Or.inr (Or.inr ⟨hwork.stack_eq event hown, hwork.exported event hown⟩)

/-- What happens at a request happens while the task that it means is invoked. -/
theorem Runner.mem_events_outcome {host : Host σ} {runner : Runner σ} {name : String}
    {given : List String} {world : σ} {event : Event}
    (h : event ∈ (runner.outcome host name given world).events) :
    ∃ found, ∃ hfound : runner.file.resolve (requestedTask name) = some found,
      event ∈ (invoke runner.file host runner.externals runner.context found
        (TaskFile.qualified_mem_names hfound) given world).events := by
  rcases (runner.file.resolve (requestedTask name)).eq_none_or_eq_some with
    hnone | ⟨found, hfound⟩
  · rw [outcome_of_none hnone] at h
    exact absurd h List.not_mem_nil
  · rw [outcome_of_some hfound] at h
    exact ⟨found, hfound, h⟩

end TaskRunner
