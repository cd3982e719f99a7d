import TaskRunner.Proofs.AcyclicRuns
import TaskRunner.Proofs.Schedule

/-! # A run follows its schedule

    A run goes through the steps of its task's schedule in order.  It stops right behind
    the first step that **`Halts`** it, one that fails and is not a command that may fail,
    and only there; a run without such a step goes through the whole schedule and ends
    well.  Nothing swallows the failure of a dependency: the leave to fail belongs to a
    command, and to no other step.

    The invariant is **`Outcome.Follows`**, what a part of a run has to do with its part of
    the schedule.  Each way of putting parts together has its lemma; a single step is
    where the leave to fail comes in (`follows_command`).  What else happens in a run, the
    writing, the binding and the programs that are started, attempts no step, which the
    lemmas on `attempts` say one by one. -/

namespace TaskRunner

variable {σ : Type}

/-! ## Attempts -/

/-- The step that an event attempts, and whether it succeeded. -/
def Event.attempt? (event : Event) : Option (Step × Bool) :=
  match event.action with
  | .attempted step succeeded => some (step, succeeded)
  | _ => none

/-- The steps that were attempted, in order, and whether they succeeded. -/
def attempts (events : List Event) : List (Step × Bool) := events.filterMap Event.attempt?

/-- Only a command can have leave to fail. -/
def Step.mayFail : Step → Bool
  | .command _ line => line.mayFail
  | _ => false

/-- A run does not go on behind this attempt: the step failed without leave. -/
def Halts (attempt : Step × Bool) : Prop := attempt.2 = false ∧ attempt.1.mayFail = false

/-- Steps are attempted part by part. -/
theorem attempts_append (events more : List Event) :
    attempts (events ++ more) = attempts events ++ attempts more :=
  List.filterMap_append

/-- Events that attempt no step. -/
def Quiet (events : List Event) : Prop := attempts events = []

/-- Quiet parts are quiet together. -/
theorem Quiet.append {events more : List Event} (h : Quiet events) (hmore : Quiet more) :
    Quiet (events ++ more) := by
  rw [Quiet, attempts_append, h, hmore]
  rfl

/-- An event that attempts nothing attempts nothing where it is left out. -/
theorem quiet_gated (wanted : Prop) [Decidable wanted] {event : Event}
    (h : event.attempt? = none) : Quiet (if wanted then [event] else []) := by
  split
  · rw [Quiet, attempts, List.filterMap_cons_none h]
    rfl
  · rfl

/-- Telling attempts nothing. -/
theorem quiet_info (ctx : Context) (line : String) : Quiet (ctx.info line) := quiet_gated _ rfl

/-- Nor does warning. -/
theorem quiet_warning (ctx : Context) (message : String) : Quiet (ctx.warning message) :=
  quiet_gated _ rfl

/-- Nor do details. -/
theorem quiet_debug (ctx : Context) (message : String) : Quiet (ctx.debug message) :=
  quiet_gated _ rfl

/-- What a program writes is no attempt. -/
theorem quiet_piece (ctx : Context) (stream : Stream) (piece : Octets) :
    Quiet (ctx.piece stream piece) := by
  rw [Context.piece]
  split <;> rfl

/-- Starting a program is what a step does, not a step. -/
theorem quiet_runProgram (host : Host σ) (ctx : Context) (launch : Launch)
    (startFailure : StartError → ExecutionError) (exitFailure : Exit → ExecutionError)
    (world : σ) : Quiet (runProgram host ctx launch startFailure exitFailure world).events := by
  have hpieces : ∀ completion : Completion,
      Quiet (ctx.piece .out completion.out ++ ctx.piece .err completion.err) :=
    fun _ => (quiet_piece ..).append (quiet_piece ..)
  rw [runProgram]
  split
  · rfl
  · dsimp only
    split
    · exact (hpieces _).append rfl
    · exact (hpieces _).append rfl

/-- So is running a command, printed or not. -/
theorem quiet_runCommand (host : Host σ) (ctx : Context) (command : Command) (last : Bool)
    (world : σ) : Quiet (runCommand host ctx command last world).events := by
  rw [runCommand]
  split
  · rfl
  · refine Quiet.append ?_ ?_
    · split
      · rfl
      · exact quiet_info ..
    · rw [runShell]
      split
      · rfl
      · exact quiet_runProgram ..

/-- And so is handing a task to its handler. -/
theorem quiet_handlerRun (host : Host σ) (ctx : Context) (task : String) (given : List String)
    (world : σ) (handler : Handler σ) :
    Quiet (handler.run host ctx task given world).events := by
  cases handler with
  | program name leading =>
      rw [Handler.run]
      exact quiet_runProgram ..
  | callable run => rfl

/-- A value may start a program, but that is no step of the schedule. -/
theorem quiet_evaluate (host : Host σ) (ctx : Context) (value : Value) (world : σ) :
    Quiet (value.evaluate host ctx world).events := by
  cases value with
  | literal text => rfl
  | multiline text => rfl
  | expression e => rfl
  | substitution command =>
      have hcapture : Quiet (capture host ctx command world).events := by
        rw [capture]
        split
        · rfl
        · split
          · rfl
          · exact quiet_piece ..
      rw [Value.evaluate]
      split
      · exact hcapture
      · exact hcapture.append rfl

/-- So no step is attempted while a task is being entered. -/
theorem quiet_bindVariables (host : Host σ) (ctx : Context) (vars : List Variable)
    (world : σ) : Quiet (bindVariables host ctx world vars).events := by
  induction vars generalizing ctx world with
  | nil => rfl
  | cons v rest ih =>
      rw [bindVariables]
      exact (quiet_evaluate ..).append (ih ..)

/-! ## Following a plan -/

/-- A part of a run follows a plan: if it ends well it went through the plan and nothing halted
it; if it ends in an error it went through a first part of the plan, and what halted it is the
last thing it attempted. -/
structure Outcome.Follows (o : Outcome σ) (plan : List Step) : Prop where
  passed : o.result = .ok () →
    (attempts o.events).map (·.1) = plan ∧ ∀ attempt ∈ attempts o.events, ¬ Halts attempt
  stopped : ∀ e, o.result = .error e → ∃ front last,
    attempts o.events = front ++ [last] ∧ Halts last ∧ (∀ attempt ∈ front, ¬ Halts attempt) ∧
      (front ++ [last]).map (·.1) <+: plan

namespace Outcome.Follows

variable {o : Outcome σ} {plan more : List Step}

/-- Nothing happens where nothing is planned. -/
theorem done (ctx : Context) (world : σ) : (Outcome.done ctx world).Follows [] := by
  constructor
  · intro _
    exact ⟨rfl, fun _ hmem => absurd hmem List.not_mem_nil⟩
  · intro e he
    cases he

/-- Quiet events in front do not change what is followed. -/
theorem after (h : o.Follows plan) {events : List Event} (hevents : Quiet events) :
    (o.after events).Follows plan := by
  have hattempts : attempts (o.after events).events = attempts o.events := by
    rw [events_after, attempts_append, hevents, List.nil_append]
  refine ⟨?_, ?_⟩
  · rw [hattempts]
    exact h.passed
  · rw [hattempts]
    exact h.stopped

/-- Nor does leaving the task. -/
theorem leave (h : o.Follows plan) (saved : List Bindings.Saved) :
    (o.leave saved).Follows plan :=
  ⟨h.passed, h.stopped⟩

/-- An error in another form stops the plan where it did. -/
theorem mapError {f : ExecutionError → ExecutionError} {e : ExecutionError}
    (h : o.Follows plan) (he : o.result = .error e) : (o.mapError f).Follows plan := by
  refine ⟨?_, fun _ _ => h.stopped e he⟩
  intro hok
  rw [result_mapError, he] at hok
  cases hok

/-- What stops in one plan stops in a longer one. -/
theorem extend {e : ExecutionError} (h : o.Follows plan) (he : o.result = .error e) :
    o.Follows (plan ++ more) := by
  refine ⟨fun hok => ?_, fun _ _ => ?_⟩
  · cases he.symm.trans hok
  · obtain ⟨front, last, hattempts, hhalts, hfront, hplan⟩ := h.stopped e he
    exact ⟨front, last, hattempts, hhalts, hfront, hplan.trans (List.prefix_append plan more)⟩

/-- Behind a part that ends well the next part follows the rest of the plan. -/
theorem followed {next : Outcome σ} (h : o.Follows plan) (hok : o.result = .ok ())
    (hnext : next.Follows more) : (next.after o.events).Follows (plan ++ more) := by
  obtain ⟨hplan, hclear⟩ := h.passed hok
  have hattempts : attempts (next.after o.events).events
      = attempts o.events ++ attempts next.events := attempts_append ..
  refine ⟨fun hdone => ?_, fun e he => ?_⟩
  · obtain ⟨hmore, hnextClear⟩ := hnext.passed hdone
    rw [hattempts, List.map_append, hplan, hmore]
    refine ⟨rfl, ?_⟩
    intro attempt hmem
    rcases List.mem_append.mp hmem with hmem | hmem
    · exact hclear attempt hmem
    · exact hnextClear attempt hmem
  · obtain ⟨front, last, hnextAttempts, hhalts, hfront, hplanned⟩ := hnext.stopped e he
    refine ⟨attempts o.events ++ front, last, ?_, hhalts, ?_, ?_⟩
    · rw [hattempts, hnextAttempts, List.append_assoc]
    · intro attempt hmem
      rcases List.mem_append.mp hmem with hmem | hmem
      · exact hclear attempt hmem
      · exact hfront attempt hmem
    · rw [List.append_assoc, List.map_append, hplan]
      exact (List.prefix_append_right_inj plan).mpr hplanned

/-- **PARTS FOLLOW PARTS**: the next part is gone through behind a part that ends well, and is left
out behind one that does not. -/
theorem andThen {next : Context → σ → Outcome σ} (h : o.Follows plan)
    (hnext : ∀ ctx world, (next ctx world).Follows more) :
    (o.andThen next).Follows (plan ++ more) := by
  cases hresult : o.result with
  | error e =>
      rw [andThen_of_error hresult]
      exact h.extend hresult
  | ok =>
      rw [andThen_of_ok hresult]
      exact h.followed hresult (hnext ..)

end Outcome.Follows

/-! ## Steps -/

/-- A step is attempted once. -/
theorem attempts_ofStep {o : Outcome σ} (hquiet : Quiet o.events) (ctx : Context) (step : Step) :
    attempts (o.ofStep ctx step).events = [(step, o.succeeded)] := by
  rw [Outcome.ofStep, Outcome.events_after, attempts_append, hquiet]
  rfl

/-- A step without leave to fail halts the run if it fails. -/
theorem follows_ofStep {o : Outcome σ} (hquiet : Quiet o.events) (ctx : Context) {step : Step}
    (hstrict : step.mayFail = false) : (o.ofStep ctx step).Follows [step] := by
  have hattempts := attempts_ofStep hquiet ctx step
  refine ⟨fun hok => ?_, fun e he => ?_⟩
  · have hsucceeded : o.succeeded = true := congrArg Except.isOk hok
    rw [hattempts, hsucceeded]
    refine ⟨rfl, ?_⟩
    intro attempt hmem
    rw [List.mem_singleton.mp hmem]
    rintro ⟨hfailed, -⟩
    cases hfailed
  · have hfailed : o.succeeded = false := congrArg Except.isOk he
    refine ⟨[], (step, o.succeeded), hattempts, ⟨hfailed, hstrict⟩, ?_, List.prefix_refl _⟩
    exact fun _ hmem => absurd hmem List.not_mem_nil

/-- Tolerating a failure attempts nothing more. -/
theorem attempts_tolerate (ctx : Context) (command : Command) (o : Outcome σ) :
    attempts (tolerate ctx command o).events = attempts o.events := by
  rw [tolerate]
  split
  · rfl
  · split
    · rw [attempts_append, quiet_warning, List.append_nil]
    · rfl

/-- A command halts the run if it fails, unless it has leave to. -/
theorem follows_command {o : Outcome σ} (hquiet : Quiet o.events) (ctx : Context)
    (name : String) (command : Command) :
    (tolerate ctx command (o.ofStep ctx (.command name command))).Follows
      [.command name command] := by
  cases hmay : command.mayFail with
  | false =>
      rw [tolerate_of_strict hmay]
      exact follows_ofStep hquiet ctx hmay
  | true =>
      have hattempts := (attempts_tolerate ctx command _).trans
        (attempts_ofStep hquiet ctx (.command name command))
      refine ⟨fun _ => ?_, fun e he => ?_⟩
      · rw [hattempts]
        refine ⟨rfl, ?_⟩
        intro attempt hmem hhalts
        obtain rfl := List.mem_singleton.mp hmem
        have hstrict : command.mayFail = false := hhalts.2
        exact absurd (hmay.symm.trans hstrict) (by simp)
      · rw [result_tolerate hmay] at he
        exact absurd he (by simp)

/-- The commands of a task are attempted in order. -/
theorem follows_runCommands (host : Host σ) (ctx : Context) (name : String)
    (commands : List Command) (world : σ) :
    (runCommands host ctx name commands world).Follows (commands.map (.command name)) := by
  induction commands generalizing ctx world with
  | nil => exact .done ctx world
  | cons command rest ih =>
      rw [runCommands, List.map_cons, ← List.singleton_append]
      exact (follows_command (quiet_runCommand ..) ctx name command).andThen ih

/-- What a task does itself follows its own steps. -/
theorem follows_runOwn (host : Host σ) (externals : Externals σ) (ctx : Context)
    (found : ResolvedTask) (given : List String) (world : σ) :
    (runOwn host externals ctx found given world).Follows found.ownSteps := by
  rw [runOwn, ResolvedTask.ownSteps]
  dsimp only
  cases found.task.dispatch with
  | some dispatch =>
      refine (follows_ofStep ?_ ctx rfl).after (quiet_info ..)
      cases externals.get? found.qualified with
      | none => rfl
      | some handler => exact quiet_handlerRun ..
  | none =>
      have hcommands := follows_runCommands host ctx found.qualified found.task.commands world
      rw [← List.append_nil (found.task.commands.map _)]
      refine (hcommands.andThen ?_).after (quiet_info ..)
      exact fun ctx world => (Outcome.Follows.done ctx world).after (quiet_debug ..)

/-! ## Invocations -/

section

variable (file : TaskFile) (host : Host σ) (externals : Externals σ)

/-- In an acyclic file an invocation follows the schedule of its task. -/
theorem follows_invoke (hacyclic : file.Acyclic) :
    ∀ ctx found listed given world, file.resolve found.qualified = some found →
      file.LeadTo ctx.stack found.qualified →
        (invoke file host externals ctx found listed given world).Follows
          (file.schedule found) := by
  refine acyclic_induction file host externals hacyclic
    (fun found o => o.Follows (file.schedule found))
    (fun source dependencies o =>
      o.Follows (dependencies.flatMap (file.dependencySteps source)))
    ?entered ?nil ?missing ?failed ?next
  case entered =>
      intro ctx found given world dependencies hfound ih
      have hbefore : Quiet (ctx.debug ("Running task: " ++ found.qualified)
          ++ (bindFrame host ctx found given world).events
          ++ [(ctx.entered found (bindFrame host ctx found given world)).event .entered]) :=
        ((quiet_debug ..).append (quiet_bindVariables ..)).append rfl
      rw [TaskFile.schedule_eq hacyclic hfound]
      refine Outcome.Follows.after (.leave (ih.andThen ?_) _) hbefore
      intro ctx world
      exact follows_runOwn host externals ctx found given world
  case nil => exact fun ctx _ world => .done ctx world
  case missing =>
      intro ctx source dependency rest world hnone
      have hquiet : Quiet (Outcome.fail
          (.dependencyFailed source.qualified dependency (.taskNotFound dependency)) ctx
          world).events := rfl
      rw [List.flatMap_cons, TaskFile.dependencySteps_of_none hnone]
      exact (follows_ofStep hquiet ctx rfl).extend rfl
  case failed =>
      intro source dependency rest target first e htarget hfirst ih
      rw [List.flatMap_cons, TaskFile.dependencySteps_of_some htarget]
      exact (ih.extend hfirst).mapError hfirst
  case next =>
      intro source dependency rest target first others htarget hfirst ihFirst ihRest
      rw [List.flatMap_cons, TaskFile.dependencySteps_of_some htarget]
      exact ihFirst.followed hfirst ihRest

end

namespace Outcome.Follows

variable {o : Outcome σ} {plan : List Step}

/-- A part of a run goes through a first part of its plan. -/
theorem prefix_plan (h : o.Follows plan) : (attempts o.events).map (·.1) <+: plan := by
  cases hresult : o.result with
  | error e =>
      obtain ⟨front, last, hattempts, -, -, hplan⟩ := h.stopped e hresult
      rw [hattempts]
      exact hplan
  | ok =>
      obtain ⟨hplan, -⟩ := h.passed hresult
      exact hplan ▸ List.prefix_refl _

/-- Behind an attempt that halts there is no other. -/
theorem eq_nil_of_halts (h : o.Follows plan) {front back : List (Step × Bool)}
    {attempt : Step × Bool} (hattempts : attempts o.events = front ++ attempt :: back)
    (hhalts : Halts attempt) : back = [] := by
  have hmem : attempt ∈ attempts o.events := by
    rw [hattempts]
    exact List.mem_append_right front List.mem_cons_self
  cases hresult : o.result with
  | error e =>
      obtain ⟨before, last, hlast, -, hbefore, -⟩ := h.stopped e hresult
      rcases List.eq_nil_or_concat back with hnil | ⟨more, final, rfl⟩
      · exact hnil
      · -- all but the last attempt are among those that do not halt
        rw [hlast, List.concat_eq_append, ← List.cons_append, ← List.append_assoc] at hattempts
        obtain ⟨rfl, -⟩ := List.append_inj' hattempts rfl
        exact absurd hhalts (hbefore attempt (List.mem_append_right front List.mem_cons_self))
  | ok => exact absurd hhalts ((h.passed hresult).2 attempt hmem)

/-- A part of a run ends well if and only if it goes through all of its plan and nothing halts
it. -/
theorem result_eq_ok_iff (h : o.Follows plan) :
    o.result = .ok () ↔
      (attempts o.events).map (·.1) = plan ∧ ∀ attempt ∈ attempts o.events, ¬ Halts attempt := by
  constructor
  · exact h.passed
  · rintro ⟨-, hclear⟩
    cases hresult : o.result with
    | error e =>
        obtain ⟨front, last, hattempts, hhalts, -, -⟩ := h.stopped e hresult
        refine absurd hhalts (hclear last ?_)
        rw [hattempts]
        exact List.mem_append_right front List.mem_cons_self
    | ok => rfl

end Outcome.Follows

namespace Runner

/-- A request on an idle runner follows the schedule of the task it means. -/
theorem follows_outcome {runner : Runner σ} (hacyclic : runner.file.Acyclic)
    (hidle : runner.context.stack = []) {name : String} {found : ResolvedTask}
    (hfound : runner.file.resolve (requestedTask name) = some found) (host : Host σ)
    (given : List String) (world : σ) :
    (runner.outcome host name given world).Follows (runner.file.schedule found) := by
  rw [outcome_of_some hfound]
  refine follows_invoke runner.file host runner.externals hacyclic runner.context found _
    given world (TaskFile.resolve_qualified hfound) ?_
  rw [hidle]
  exact TaskFile.leadTo_nil _ _

/-- **A RUN FOLLOWS ITS SCHEDULE**: in a file that has passed the check the schedule of a task
    consists of the schedules of its dependencies, in the order they are listed, and its own
    steps.  A request on an idle runner, whatever the started programs do, attempts a first
    part of it, in order; behind a step that fails without leave it attempts nothing; it ends
    well if and only if it has attempted every step and none has failed without leave; and
    when it ends in an error, the last step it attempted has. -/
theorem run_follows_schedule (host : Host σ) (runner : Runner σ)
    (hvalid : runner.file.validate = .ok ()) (hidle : runner.context.stack = [])
    (name : String) {found : ResolvedTask}
    (hfound : runner.file.resolve (requestedTask name) = some found) (given : List String)
    (world : σ) :
    (∀ known source, runner.file.resolve known = some source →
      runner.file.schedule source
        = (source.task.dependencies.flatMap fun dependency =>
            match runner.file.resolveFrom source dependency with
            | none => [.missing source.qualified dependency]
            | some target => runner.file.schedule target) ++ source.ownSteps) ∧
    let o := (runner.run host name given world).1
    let tried := attempts o.events
    tried.map (·.1) <+: runner.file.schedule found ∧
    (∀ front attempt back, tried = front ++ attempt :: back → Halts attempt → back = []) ∧
    (o.result = .ok () ↔
      tried.map (·.1) = runner.file.schedule found ∧ ∀ attempt ∈ tried, ¬ Halts attempt) ∧
    ∀ e, o.result = .error e → ∃ front last, tried = front ++ [last] ∧ Halts last := by
  have hacyclic := TaskFile.acyclic_of_validate hvalid
  have hfollows := follows_outcome hacyclic hidle hfound host given world
  refine ⟨?_, hfollows.prefix_plan, ?_, hfollows.result_eq_ok_iff, ?_⟩
  · intro known source hsource
    exact TaskFile.schedule_eq hacyclic (TaskFile.resolve_qualified hsource)
  · intro front attempt back hattempts hhalts
    exact hfollows.eq_nil_of_halts hattempts hhalts
  · intro e he
    obtain ⟨front, last, hattempts, hhalts, -, -⟩ := hfollows.stopped e he
    exact ⟨front, last, hattempts, hhalts⟩

/-- A runner of three tasks.  `all` waits for two that others run, and nobody is there for the second
of them. -/
def shipping : Runner Unit where
  file :=
    { tasks := [
        { name := "all", dependencies := ["lib", "docs"],
          commands := [⟨[.text "ship"], false, false⟩] },
        { name := "lib", dispatch := some ⟨"", none⟩ },
        { name := "docs", dispatch := some ⟨"", none⟩ }] }
  context := { workingDir := Path.ofString "/", verbosity := .silent }
  externals := ⟨[("lib", .callable fun _ _ world => (.ok (), world))]⟩

/-- A host on which every program ends well. -/
def obliging : Host Unit where
  start _ world := (.ok {}, world)

/-- Of three scheduled steps two are attempted. -/
theorem shipping_stops_at_docs :
    shipping.file.validate = .ok () ∧ shipping.context.stack = [] ∧
      ∃ found, shipping.file.resolve (requestedTask "all") = some found ∧
        (shipping.file.schedule found).length = 3 ∧
        let o := (shipping.run obliging "all" [] ()).1
        (attempts o.events).length = 2 ∧
        (attempts o.events).map (·.1) <+: shipping.file.schedule found ∧
        o.result ≠ .ok () := by
  have hvalid : shipping.file.validate = .ok () := by cbv
  have htried : (attempts (shipping.run obliging "all" [] ()).1.events).length = 2 := by cbv
  obtain ⟨found, hfound, hthree⟩ : ∃ found,
      shipping.file.resolve (requestedTask "all") = some found ∧
        (shipping.file.schedule found).length = 3 := ⟨_, rfl, by cbv⟩
  obtain ⟨-, hplanned, -, hok, -⟩ :=
    run_follows_schedule obliging shipping hvalid rfl "all" hfound [] ()
  refine ⟨hvalid, rfl, found, hfound, hthree, htried, hplanned, ?_⟩
  intro hdone
  have hlength := congrArg List.length (hok.mp hdone).1
  rw [List.length_map, htried, hthree] at hlength
  exact absurd hlength (by decide)

end Runner

end TaskRunner
