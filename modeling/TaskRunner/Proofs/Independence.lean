import TaskRunner.Proofs.Restoration

/-! # Requests do not depend on the ones before

    A host and a callable are **`Fixed`** when what they answer is a function of what they
    are given, and not of the world they are asked in.  Then the world is of no account
    for a whole run: the route is that of a logical relation.  Two outcomes **`Agree`**
    when they differ in nothing but the world they leave; every way of putting outcomes
    together keeps the agreement, so every function of a run does, up to `invoke`
    (`agrees_invoke`).

    Since a request also leaves the context as it was (`runner_of_run`), nothing carries
    over from one request to the next: **`requests_are_independent`**. -/

namespace TaskRunner

variable {σ : Type}

/-- What programs do depends on how they are started only. -/
def Host.Fixed (host : Host σ) : Prop :=
  ∀ launch world world', (host.start launch world).1 = (host.start launch world').1

/-- What a callable answers depends on its arguments and the context only. -/
def Callable.Fixed (run : Callable σ) : Prop :=
  ∀ given ctx world world', (run given ctx world).1 = (run given ctx world').1

/-- All callables among the externals are fixed. -/
def Externals.Fixed (externals : Externals σ) : Prop :=
  ∀ name run, externals.get? name = some (.callable run) → Callable.Fixed run

/-! ## Agreement of outcomes -/

/-- Two outcomes that differ in nothing but the world. -/
structure Outcome.Agrees (o o' : Outcome σ) : Prop where
  result : o.result = o'.result
  context : o.context = o'.context
  events : o.events = o'.events

namespace Outcome.Agrees

variable {o o' : Outcome σ}

/-- Outcomes that agree do so behind the same events. -/
theorem after (h : o.Agrees o') (events : List Event) :
    (o.after events).Agrees (o'.after events) :=
  ⟨h.result, h.context, congrArg (events ++ ·) h.events⟩

/-- Errors that agree do so in another form. -/
theorem mapError (h : o.Agrees o') (f : ExecutionError → ExecutionError) :
    (o.mapError f).Agrees (o'.mapError f) :=
  ⟨congrArg (Except.mapError f) h.result, h.context, h.events⟩

/-- And tasks are left alike. -/
theorem leave (h : o.Agrees o') (saved : List Bindings.Saved) :
    (o.leave saved).Agrees (o'.leave saved) :=
  ⟨h.result, congrArg (fun ctx : Context => ctx.pop.2.restore saved) h.context, h.events⟩

/-- A step that ends alike is attempted alike. -/
theorem ofStep (h : o.Agrees o') (ctx : Context) (step : Step) :
    (o.ofStep ctx step).Agrees (o'.ofStep ctx step) := by
  have hsucceeded : o.succeeded = o'.succeeded := congrArg Except.isOk h.result
  rw [Outcome.ofStep, Outcome.ofStep, hsucceeded]
  exact h.after _

/-- The next parts may start in different worlds. -/
theorem andThen (h : o.Agrees o') {next next' : Context → σ → Outcome σ}
    (hnext : ∀ ctx world world', (next ctx world).Agrees (next' ctx world')) :
    (o.andThen next).Agrees (o'.andThen next') := by
  cases hresult : o.result with
  | error e =>
      rw [andThen_of_error hresult, andThen_of_error (h.result ▸ hresult)]
      exact h
  | ok =>
      rw [andThen_of_ok hresult, andThen_of_ok (h.result ▸ hresult), ← h.context, ← h.events]
      exact (hnext ..).after _

/-- A failure is tolerated in both or in none. -/
theorem tolerate (h : o.Agrees o') (ctx : Context) (command : Command) :
    (tolerate ctx command o).Agrees (tolerate ctx command o') := by
  rw [TaskRunner.tolerate, TaskRunner.tolerate, ← h.result]
  split
  · exact h
  · split
    · exact ⟨rfl, h.context, congrArg (· ++ _) h.events⟩
    · exact h

end Outcome.Agrees

/-! ## Programs and commands -/

section

variable {host : Host σ} (hhost : host.Fixed)

include hhost

/-- A fixed host answers the same in every world. -/
theorem agrees_runProgram (ctx : Context) (launch : Launch)
    (startFailure : StartError → ExecutionError) (exitFailure : Exit → ExecutionError)
    (world world' : σ) :
    (runProgram host ctx launch startFailure exitFailure world).Agrees
      (runProgram host ctx launch startFailure exitFailure world') := by
  have hstart := hhost launch world world'
  rw [runProgram, runProgram]
  rcases h : host.start launch world with ⟨started, after⟩
  rcases h' : host.start launch world' with ⟨started', after'⟩
  rw [h, h'] at hstart
  obtain rfl : started = started' := hstart
  cases started with
  | error cause => exact ⟨rfl, rfl, rfl⟩
  | ok completion =>
      by_cases hexit : completion.exit.isSuccess = true
      · simp only [if_pos hexit]
        exact ⟨rfl, rfl, rfl⟩
      · simp only [if_neg hexit]
        exact ⟨rfl, rfl, rfl⟩

/-- So does its shell. -/
theorem agrees_runShell (ctx : Context) (line : String) (world world' : σ) :
    (runShell host ctx line world).Agrees (runShell host ctx line world') := by
  rw [runShell, runShell]
  cases ctx.shellLaunch? line with
  | none => exact ⟨rfl, rfl, rfl⟩
  | some launch => exact agrees_runProgram hhost ..

/-- And so a command runs alike. -/
theorem agrees_runCommand (ctx : Context) (command : Command) (last : Bool)
    (world world' : σ) :
    (runCommand host ctx command last world).Agrees
      (runCommand host ctx command last world') := by
  rw [runCommand, runCommand]
  cases command.echo ctx.lookup with
  | some text => exact ⟨rfl, rfl, rfl⟩
  | none => exact (agrees_runShell hhost ..).after _

/-- The commands of a task run alike, one after the other. -/
theorem agrees_runCommands (ctx : Context) (name : String) (commands : List Command)
    (world world' : σ) :
    (runCommands host ctx name commands world).Agrees
      (runCommands host ctx name commands world') := by
  induction commands generalizing ctx world world' with
  | nil => exact ⟨rfl, rfl, rfl⟩
  | cons command rest ih =>
      rw [runCommands, runCommands]
      have hcommand := agrees_runCommand hhost ctx command rest.isEmpty world world'
      exact ((hcommand.ofStep ctx _).tolerate ctx command).andThen ih

/-- A handler that is fixed answers alike. -/
theorem agrees_handlerRun {externals : Externals σ} (hexternals : externals.Fixed)
    {task : String} {handler : Handler σ} (hhandler : externals.get? task = some handler)
    (ctx : Context) (given : List String) (world world' : σ) :
    (handler.run host ctx task given world).Agrees
      (handler.run host ctx task given world') := by
  cases handler with
  | program name leading =>
      rw [Handler.run, Handler.run]
      exact agrees_runProgram hhost ..
  | callable run => exact ⟨hexternals task run hhandler given ctx world world', rfl, rfl⟩

/-- A task does its own work alike. -/
theorem agrees_runOwn {externals : Externals σ} (hexternals : externals.Fixed) (ctx : Context)
    (found : ResolvedTask) (given : List String) (world world' : σ) :
    (runOwn host externals ctx found given world).Agrees
      (runOwn host externals ctx found given world') := by
  rw [runOwn, runOwn]
  cases found.task.dispatch with
  | none =>
      refine (Outcome.Agrees.andThen (agrees_runCommands hhost ..) ?_).after _
      exact fun ctx world world' => ⟨rfl, rfl, rfl⟩
  | some dispatch =>
      refine (Outcome.Agrees.ofStep ?_ ctx _).after _
      cases hhandler : externals.get? found.qualified with
      | none => exact ⟨rfl, rfl, rfl⟩
      | some handler => exact agrees_handlerRun hhost hexternals hhandler ..

/-! ## Values and bindings -/

/-- What a command line writes is captured alike. -/
theorem capture_eq (ctx : Context) (line : String) (world world' : σ) :
    (capture host ctx line world).result = (capture host ctx line world').result ∧
      (capture host ctx line world).events = (capture host ctx line world').events := by
  rw [capture, capture]
  cases (ctx.shellLaunch? line).map Launch.capturing with
  | none => exact ⟨rfl, rfl⟩
  | some launch =>
      have hstart := hhost launch world world'
      rcases h : host.start launch world with ⟨started, after⟩
      rcases h' : host.start launch world' with ⟨started', after'⟩
      rw [h, h'] at hstart
      obtain rfl : started = started' := hstart
      cases started with
      | error cause => exact ⟨by simp only [h, h'], by simp only [h, h']⟩
      | ok completion => exact ⟨by simp only [h, h'], by simp only [h, h']⟩

/-- A value is the same in every world. -/
theorem evaluate_eq (ctx : Context) (value : Value) (world world' : σ) :
    (value.evaluate host ctx world).value = (value.evaluate host ctx world').value ∧
      (value.evaluate host ctx world).events = (value.evaluate host ctx world').events := by
  cases value with
  | literal text => exact ⟨rfl, rfl⟩
  | multiline text => exact ⟨rfl, rfl⟩
  | expression e => exact ⟨rfl, rfl⟩
  | substitution command =>
      obtain ⟨hresult, hevents⟩ := capture_eq hhost ctx command world world'
      rw [Value.evaluate, Value.evaluate]
      simp only [hresult, hevents]
      split <;> exact ⟨rfl, rfl⟩

end

/-- Two ways of binding names that differ in nothing but the world. -/
structure Bound.Agrees (b b' : Bound σ) : Prop where
  vars : b.vars = b'.vars
  saved : b.saved = b'.saved
  events : b.events = b'.events

section

variable {host : Host σ} (hhost : host.Fixed)

include hhost

/-- So variables are bound alike. -/
theorem agrees_bindVariables (ctx : Context) (vars : List Variable) (world world' : σ) :
    (bindVariables host ctx world vars).Agrees
      (bindVariables host ctx world' vars) := by
  induction vars generalizing ctx world world' with
  | nil => exact ⟨rfl, rfl, rfl⟩
  | cons v rest ih =>
      obtain ⟨hvalue, hevents⟩ := evaluate_eq hhost ctx v.value world world'
      rw [bindVariables, bindVariables]
      simp only [hvalue, hevents]
      obtain ⟨hvars, hsaved, hmore⟩ := ih
        { ctx with
          vars := (ctx.vars.bind v.name
            (v.value.evaluate host ctx world').value).1 }
        (v.value.evaluate host ctx world).world
        (v.value.evaluate host ctx world').world
      exact ⟨hvars, congrArg (_ :: ·) hsaved, congrArg (_ ++ ·) hmore⟩

/-- A task is entered alike. -/
theorem agrees_bindFrame (ctx : Context) (found : ResolvedTask) (given : List String)
    (world world' : σ) :
    (bindFrame host ctx found given world).Agrees
      (bindFrame host ctx found given world') := by
  obtain ⟨hvars, hsaved, hevents⟩ :=
    agrees_bindVariables hhost ctx (found.scopes.flatMap (·.vars)) world world'
  rw [bindFrame, bindFrame]
  refine ⟨?_, ?_, hevents⟩
  · show (Bindings.bindAll _ _).1 = (Bindings.bindAll _ _).1
    rw [hvars]
  · show _ ++ (Bindings.bindAll _ _).2 = _ ++ (Bindings.bindAll _ _).2
    rw [hvars, hsaved]

/-! ## Invocations -/

/-- A task ends alike if its dependencies do. -/
theorem Outcome.Agrees.ofTask {externals : Externals σ} (hexternals : externals.Fixed)
    {ctx : Context} {found : ResolvedTask} {given : List String} {bound bound' : Bound σ}
    {o o' : Outcome σ} (hbound : bound.Agrees bound') (h : o.Agrees o') :
    (Outcome.ofTask host externals ctx found given bound o).Agrees
      (Outcome.ofTask host externals ctx found given bound' o') := by
  obtain ⟨vars, saved, world, events⟩ := bound
  obtain ⟨vars', saved', world', events'⟩ := bound'
  obtain ⟨rfl, rfl, rfl⟩ := hbound
  refine ((h.andThen ?_).leave _).after _
  intro ctx world world'
  exact agrees_runOwn hhost hexternals ctx found given world world'

/-- **THE WORLD IS OF NO ACCOUNT**: with a fixed host and fixed callables, invoking a task
    leaves the same in every world. -/
theorem agrees_invoke (file : TaskFile) {externals : Externals σ}
    (hexternals : externals.Fixed) :
    (∀ ctx found listed given world listed' world',
      (invoke file host externals ctx found listed given world).Agrees
        (invoke file host externals ctx found listed' given world')) ∧
    ∀ ctx source dependencies world world',
      (invokeAll file host externals ctx source dependencies world).Agrees
        (invokeAll file host externals ctx source dependencies world') := by
  refine invocation_induction file host externals
    (fun ctx found given _ o => ∀ listed world',
      o.Agrees (invoke file host externals ctx found listed given world'))
    (fun ctx source dependencies _ o => ∀ world',
      o.Agrees (invokeAll file host externals ctx source dependencies world'))
    ?running ?entered ?nil ?missing ?failed ?next
  case running =>
      intro ctx found given world hrunning listed world'
      rw [invoke_of_running file host externals hrunning]
      exact ⟨rfl, rfl, rfl⟩
  case entered =>
      intro ctx found given world dependencies hnew _ ih listed world'
      rw [invoke_of_new file host externals hnew]
      have hbound := agrees_bindFrame hhost ctx found given world world'
      have hentered : ctx.entered found (bindFrame host ctx found given world)
          = ctx.entered found (bindFrame host ctx found given world') := by
        rw [Context.entered, Context.entered, hbound.vars]
      refine Outcome.Agrees.ofTask hhost hexternals hbound ?_
      rw [← hentered]
      exact ih _
  case nil =>
      intro ctx source world world'
      rw [invokeAll_nil]
      exact ⟨rfl, rfl, rfl⟩
  case missing =>
      intro ctx source dependency rest world hnone world'
      rw [invokeAll_of_none file host externals hnone]
      exact ⟨rfl, rfl, rfl⟩
  case failed =>
      intro ctx source dependency rest world target first e htarget hfirst ih world'
      have hagrees := ih (TaskFile.qualified_mem_names_of_resolveFrom htarget) world'
      rw [invokeAll_of_failed file host externals htarget (hagrees.result.symm.trans hfirst)]
      exact hagrees.mapError _
  case next =>
      intro ctx source dependency rest world target first others htarget hfirst ihFirst ihRest
        world'
      have hagrees := ihFirst (TaskFile.qualified_mem_names_of_resolveFrom htarget) world'
      rw [invokeAll_of_ok file host externals htarget (hagrees.result.symm.trans hfirst),
        context_invoke, ← hagrees.events]
      exact (ihRest _).after _

/-! ## Requests -/

namespace Runner

/-- A request is answered alike in every world. -/
theorem agrees_outcome {runner : Runner σ} (hexternals : runner.externals.Fixed)
    (name : String) (given : List String) (world world' : σ) :
    (runner.outcome host name given world).Agrees
      (runner.outcome host name given world') := by
  cases hfound : runner.file.resolve (requestedTask name) with
  | none =>
      rw [outcome_of_none hfound, outcome_of_none hfound]
      exact ⟨rfl, rfl, rfl⟩
  | some found =>
      rw [outcome_of_some hfound, outcome_of_some hfound]
      exact (agrees_invoke hhost runner.file hexternals).1 ..

/-- The variables of a task file get the same values in every world. -/
theorem setVariables_eq (ctx : Context) (vars : List Variable) (world world' : σ) :
    (setVariables host ctx world vars).1 = (setVariables host ctx world' vars).1 := by
  induction vars generalizing ctx world world' with
  | nil => rfl
  | cons v rest ih =>
      rw [setVariables, setVariables]
      simp only [(evaluate_eq hhost ctx v.value world world').1]
      exact ih ..

end Runner

end

/-! ## Registered callables -/

namespace Externals

/-- A callable that is registered for a task runs it from then on, and nothing else changes. -/
theorem get?_register (externals : Externals σ) (name : String) (run : Callable σ)
    (other : String) :
    (externals.register name run).get? other
      = if name = other then some (.callable run) else externals.get? other := by
  rw [register, get?, List.reverse_concat, List.find?_cons]
  by_cases h : name = other
  · rw [beq_iff_eq.mpr h, if_pos h]
    rfl
  · rw [beq_eq_false_iff_ne.mpr h, if_neg h]
    rfl

/-- The dispatchers that a task file names are programs. -/
theorem program_of_get?_ofTaskFile {file : TaskFile} {name : String} {handler : Handler σ}
    (h : (ofTaskFile file : Externals σ).get? name = some handler) :
    ∃ program leading, handler = .program program leading := by
  rw [get?, ofTaskFile] at h
  obtain ⟨entry, hentry, rfl⟩ := Option.map_eq_some_iff.mp h
  have hmem := List.mem_reverse.mp (List.mem_of_find?_eq_some hentry)
  obtain ⟨listed, -, hlisted⟩ := List.mem_filterMap.mp hmem
  obtain ⟨words, -, rfl⟩ := Option.map_eq_some_iff.mp hlisted
  exact ⟨words.1, words.2, rfl⟩

end Externals

namespace Runner

/-- The runner of a task file in a context, with callables registered one after the other, and the
world after its variables have their values. -/
def registered (host : Host σ) (file : TaskFile) (ctx : Context)
    (callables : List (String × Callable σ)) (world : σ) : Runner σ × σ :=
  let (runner, world, _) := Runner.new host file ctx world
  (callables.foldl (fun runner entry => runner.register entry.1 entry.2) runner, world)

/-- What is found after callables have been registered one after the other: the last of a name, or
else what was there before. -/
theorem get?_register_all (callables : List (String × Callable σ)) (runner : Runner σ)
    (name : String) :
    (callables.foldl (fun runner entry => runner.register entry.1 entry.2)
        runner).externals.get? name
      = ((callables.findRev? (·.1 = name)).map fun entry => .callable entry.2).or
          (runner.externals.get? name) := by
  induction callables generalizing runner with
  | nil => rfl
  | cons entry rest ih =>
      rw [List.foldl_cons, ih, register, Externals.get?_register, List.findRev?]
      cases hrest : rest.findRev? (·.1 = name) with
      | some last => rfl
      | none =>
          by_cases hname : entry.1 = name
          · simp [hname]
          · simp [hname]

/-- Who runs a task of a runner: the callable that was registered for it last, or else the
dispatcher that the file names. -/
theorem get?_registered (host : Host σ) (file : TaskFile) (ctx : Context)
    (callables : List (String × Callable σ)) (world : σ) (name : String) :
    (registered host file ctx callables world).1.externals.get? name
      = ((callables.findRev? (·.1 = name)).map fun entry => .callable entry.2).or
          ((Externals.ofTaskFile file).get? name) :=
  get?_register_all ..

/-- A callable that runs a task is one of those that were registered. -/
theorem mem_of_get?_registered {host : Host σ} {file : TaskFile} {ctx : Context}
    {callables : List (String × Callable σ)} {world : σ} {name : String} {run : Callable σ}
    (h : (registered host file ctx callables world).1.externals.get? name
      = some (.callable run)) : ∃ entry ∈ callables, entry.2 = run := by
  rw [get?_registered] at h
  cases hlast : callables.findRev? (·.1 = name) with
  | some entry =>
      rw [hlast] at h
      rw [List.findRev?_eq_find?_reverse] at hlast
      refine ⟨entry, List.mem_reverse.mp (List.mem_of_find?_eq_some hlast), ?_⟩
      simpa using h
  | none =>
      rw [hlast] at h
      obtain ⟨program, leading, hprogram⟩ := Externals.program_of_get?_ofTaskFile h
      cases hprogram

/-- Dispatchers start programs, so only the callables must be fixed. -/
theorem fixed_registered (host : Host σ) (file : TaskFile) (ctx : Context)
    {callables : List (String × Callable σ)}
    (hcallables : ∀ entry ∈ callables, Callable.Fixed entry.2) (world : σ) :
    (registered host file ctx callables world).1.externals.Fixed := by
  intro name run hget
  obtain ⟨entry, hmem, rfl⟩ := mem_of_get?_registered hget
  exact hcallables entry hmem

/-- With a fixed host, a runner is the same in whatever world it is made. -/
theorem registered_eq {host : Host σ} (hhost : host.Fixed) (file : TaskFile) (ctx : Context)
    (callables : List (String × Callable σ)) (world world' : σ) :
    (registered host file ctx callables world).1
      = (registered host file ctx callables world').1 := by
  have hnew : (Runner.new host file ctx world).1 = (Runner.new host file ctx world').1 := by
    rw [Runner.new, Runner.new]
    simp only [setVariables_eq hhost ctx file.vars world world']
  show callables.foldl _ (Runner.new host file ctx world).1 = _
  rw [hnew]
  rfl

/-- **REQUESTS LEAVE NO TRACE**: a runner, with its variables and its stack, is after every
    request what it was before, however the request ends.  Hence, if programs and
    callables are fixed, each of any number of requests on one runner ends in the same way
    and goes through the same events as when it is made alone, on a runner that was made
    just for it. -/
theorem requests_are_independent (host : Host σ) :
    (∀ (runner : Runner σ) (name : String) (given : List String) (world : σ),
      (runner.run host name given world).2 = runner) ∧
    (host.Fixed → ∀ (file : TaskFile) (ctx : Context) (callables : List (String × Callable σ)),
      (∀ entry ∈ callables, Callable.Fixed entry.2) →
      ∀ (world fresh : σ) (requests : List Request),
        let shared := registered host file ctx callables world
        let alone := registered host file ctx callables fresh
        (shared.1.outcomes host shared.2 requests).map (fun o => (o.result, o.events))
          = requests.map fun request =>
              let o := (alone.1.run host request.name request.given alone.2).1
              (o.result, o.events)) := by
  refine ⟨runner_of_run host, ?_⟩
  intro hhost file ctx callables hcallables world fresh requests shared alone
  have hrunner : shared.1 = alone.1 := registered_eq hhost file ctx callables world fresh
  have hfixed : alone.1.externals.Fixed := fixed_registered host file ctx hcallables fresh
  rw [hrunner]
  generalize shared.2 = now
  induction requests generalizing now with
  | nil => rfl
  | cons request rest ih =>
      have hagrees := agrees_outcome hhost hfixed request.name request.given now alone.2
      rw [outcomes_cons, List.map_cons, List.map_cons, ih, hagrees.result, hagrees.events]
      rfl

/-- A host that counts the programs it starts, which all end well. -/
def counting : Host Nat where
  start _ count := (.ok {}, count + 1)

/-- A callable that counts its calls and refuses when it gets no arguments. -/
def counted : Callable Nat := fun given _ count =>
  (if given.isEmpty then .error (.external "gen" "no arguments") else .ok (), count + 1)

/-- A file of two tasks, one of which others run. -/
def counterFile : TaskFile where
  tasks := [
    { name := "all", dependencies := ["gen"], commands := [⟨[.text "make"], false, false⟩] },
    { name := "gen", dispatch := some ⟨"", none⟩ }]

/-- Three requests, of which the second fails, are answered alike in the worlds that they find and
each on its own. -/
theorem counting_requests_are_independent :
    counting.Fixed ∧ Callable.Fixed counted ∧
      let requests : List Request := [⟨"gen", ["x"]⟩, ⟨"all", []⟩, ⟨"gen", ["x"]⟩]
      let shared := registered counting counterFile default [("gen", counted)] 7
      let alone := registered counting counterFile default [("gen", counted)] 0
      (shared.1.outcomes counting shared.2 requests).map (fun o => (o.result, o.events))
        = requests.map fun request =>
            let o := (alone.1.run counting request.name request.given alone.2).1
            (o.result, o.events) := by
  have hhost : counting.Fixed := fun _ _ _ => rfl
  have hcounted : Callable.Fixed counted := fun _ _ _ _ => rfl
  refine ⟨hhost, hcounted, ?_⟩
  refine (requests_are_independent counting).2 hhost counterFile default _ ?_ 7 0 _
  intro entry hmem
  rw [List.mem_singleton.mp hmem]
  exact hcounted

end Runner

end TaskRunner
