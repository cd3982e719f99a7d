import TaskRunner.Proofs.EventContext
import TaskRunner.Proofs.ScheduledRuns

/-! # Dynamic scope

    A task sees the variables of whoever invoked it, with its own bindings before them.
    The variables are one map, bound and restored in place; what it amounts to is a stack
    of frames.

    A **`Call`** is a task that is invoked, with the context, the arguments and the world
    it is invoked in, and its `frame` is what it binds: the variables of the namespaces
    around the task, then its arguments.  A call **`Makes`** another if that is one of its
    dependencies, invoked after those before it have succeeded, in the context of the
    caller, whatever those before it have bound, and without arguments.

    Whatever is exported is exported at the end of a chain of calls that are running, and
    it is what the first call found with the frames of the chain before it, the later the
    further in front (`reaches_of_event`).  For a runner that means: **the variables that
    its file has set, overlaid with the frames of the running tasks**
    (`exported_variables_are_scoped`). -/

namespace TaskRunner

variable {σ : Type}

/-! ## Bindings in front of bindings -/

namespace Bindings

/-- The bindings with entries before them, each in place of what its name held so far. -/
def extend (b : Bindings) (entries : List Entry) : Bindings :=
  entries.foldl (fun b entry => b.insert entry.1 entry.2) b

theorem extend_append (b : Bindings) (entries more : List Entry) :
    b.extend (entries ++ more) = (b.extend entries).extend more :=
  List.foldl_append

/-- The last entry of a name counts, or else what the name held before. -/
theorem get?_extend (b : Bindings) (entries : List Entry) (name : String) :
    (b.extend entries).get? name
      = ((entries.findRev? (·.1 = name)).map (·.2)).or (b.get? name) := by
  induction entries generalizing b with
  | nil => rfl
  | cons entry rest ih =>
      show ((b.insert entry.1 entry.2).extend rest).get? name = _
      rw [ih, get?_insert, List.findRev?]
      cases hrest : rest.findRev? (·.1 = name) with
      | some last => rfl
      | none =>
          by_cases hname : entry.1 = name
          · simp [hname]
          · simp [hname]

theorem bindAll_eq_extend (b : Bindings) (entries : List Entry) :
    (b.bindAll entries).1 = b.extend entries := by
  induction entries generalizing b with
  | nil => rfl
  | cons entry rest ih => exact ih (b.insert entry.1 entry.2)

end Bindings

/-! ## Frames -/

/-- What variables are bound to, one after the other, each with its value among those before. -/
def variableEntries (host : Host σ) (ctx : Context) (world : σ) : List Variable → List Entry
  | [] => []
  | v :: rest =>
    let valued := v.value.evaluate host ctx world
    (v.name, valued.value)
      :: variableEntries host { ctx with vars := ctx.vars.insert v.name valued.value }
          valued.world rest

theorem names_variableEntries (host : Host σ) (ctx : Context) (world : σ)
    (vars : List Variable) :
    (variableEntries host ctx world vars).map (·.1) = vars.map (·.name) := by
  induction vars generalizing ctx world with
  | nil => rfl
  | cons v rest ih =>
      rw [variableEntries, List.map_cons, List.map_cons, ih]

theorem vars_bindVariables (host : Host σ) (ctx : Context) (world : σ) (vars : List Variable) :
    (bindVariables host ctx world vars).vars
      = ctx.vars.extend (variableEntries host ctx world vars) := by
  induction vars generalizing ctx world with
  | nil => rfl
  | cons v rest ih => exact ih _ _

/-- Each argument is what is given in its place, or empty. -/
theorem argumentEntries_eq_mapIdx (arguments given : List String) :
    argumentEntries arguments given
      = arguments.mapIdx fun place name => (name, given[place]?.getD "") := by
  induction arguments generalizing given with
  | nil => rfl
  | cons name rest ih =>
      rw [argumentEntries, ih, List.mapIdx_cons]
      cases given with
      | nil => rfl
      | cons value given => rfl

/-- Where nothing is given, all arguments are empty. -/
theorem argumentEntries_nil (arguments : List String) :
    argumentEntries arguments [] = arguments.map fun name => (name, "") := by
  induction arguments with
  | nil => rfl
  | cons name rest ih => exact congrArg _ ih

/-! ## Calls -/

/-- A task that is invoked, and what it is invoked in. -/
structure Call (σ : Type) where
  context : Context
  found : ResolvedTask
  given : List String
  world : σ

namespace Call

/-- What the call binds before anything else happens. -/
def bound (host : Host σ) (call : Call σ) : Bound σ :=
  bindFrame host call.context call.found call.given call.world

/-- The variables of the namespaces around the task, outermost first, and their values. -/
def scopeEntries (host : Host σ) (call : Call σ) : List Entry :=
  variableEntries host call.context call.world (call.found.scopes.flatMap (·.vars))

/-- The arguments of the task and their values. -/
def givenEntries (call : Call σ) : List Entry :=
  argumentEntries call.found.task.arguments call.given

/-- What the call binds, in the order in which it is bound: the variables, then the arguments. -/
def frame (host : Host σ) (call : Call σ) : List Entry :=
  call.scopeEntries host ++ call.givenEntries

theorem vars_bound (host : Host σ) (call : Call σ) :
    (call.bound host).vars = call.context.vars.extend (call.frame host) := by
  rw [frame, Bindings.extend_append, scopeEntries, ← vars_bindVariables,
    ← Bindings.bindAll_eq_extend]
  rfl

end Call

section

variable (file : TaskFile) (host : Host σ) (externals : Externals σ)

/-- The calls that are made for dependencies of `source`, in one context: that of the first, and
those of the ones behind it in the world that it leaves, if it succeeds. -/
inductive DependencyCall (source : ResolvedTask) (ctx : Context) :
    List String → σ → Call σ → Prop
  | here {dependency : String} {rest : List String} {world : σ} {target : ResolvedTask} :
      file.resolveFrom source dependency = some target →
      DependencyCall source ctx (dependency :: rest) world ⟨ctx, target, [], world⟩
  | later {dependency : String} {rest : List String} {world : σ} {target : ResolvedTask}
      {call : Call σ} (h : file.resolveFrom source dependency = some target) :
      (invoke file host externals ctx target (TaskFile.qualified_mem_names_of_resolveFrom h)
        [] world).result = .ok () →
      DependencyCall source ctx rest
        (invoke file host externals ctx target (TaskFile.qualified_mem_names_of_resolveFrom h)
          [] world).world call →
      DependencyCall source ctx (dependency :: rest) world call

/-- A call of a task that was not running makes the calls for its dependencies. -/
def Call.Makes (caller call : Call σ) : Prop :=
  caller.found.qualified ∉ caller.context.stack ∧
    DependencyCall file host externals caller.found
      (caller.context.entered caller.found (caller.bound host))
      caller.found.task.dependencies (caller.bound host).world call

/-- From a call, a chain of calls goes on in which just the tasks of `stack` are running and the
variables are `vars`. -/
def Call.Reaches (first : Call σ) (stack : List String) (vars : Bindings) : Prop :=
  ∃ rest, (first :: rest).IsChain (Call.Makes file host externals) ∧
    (∀ call ∈ rest, call.given = []) ∧
    stack = first.context.stack ++ (first :: rest).map (·.found.qualified) ∧
    vars = first.context.vars.extend ((first :: rest).flatMap (·.frame host))

variable {file host externals}

theorem DependencyCall.context_eq {source : ResolvedTask} {ctx : Context}
    {dependencies : List String} {world : σ} {call : Call σ}
    (h : DependencyCall file host externals source ctx dependencies world call) :
    call.context = ctx ∧ call.given = [] := by
  induction h with
  | here => exact ⟨rfl, rfl⟩
  | later _ _ _ ih => exact ih

/-- Where a task does its own work, only its call has been added. -/
theorem Call.reaches_self (call : Call σ) :
    call.Reaches file host externals (call.context.stack ++ [call.found.qualified])
      (call.bound host).vars := by
  refine ⟨[], .singleton call, fun _ hmem => absurd hmem List.not_mem_nil, rfl, ?_⟩
  rw [Call.vars_bound, List.flatMap_singleton]

/-- What a call reaches its caller reaches. -/
theorem Call.Makes.reaches {caller call : Call σ} (h : caller.Makes file host externals call)
    {stack : List String} {vars : Bindings} (hreach : call.Reaches file host externals stack vars) :
    caller.Reaches file host externals stack vars := by
  obtain ⟨rest, hchain, hgiven, hstack, hvars⟩ := hreach
  obtain ⟨hcontext, hnone⟩ := h.2.context_eq
  refine ⟨call :: rest, .cons_cons h hchain, ?_, ?_, ?_⟩
  · intro other hother
    rcases List.mem_cons.mp hother with rfl | hother
    · exact hnone
    · exact hgiven other hother
  · rw [hstack, hcontext, Context.stack_entered, List.append_assoc]
    rfl
  · -- the caller's frame lies behind those of the calls that it makes
    have hinner : vars = (caller.bound host).vars.extend
        ((call :: rest).flatMap (·.frame host)) := by
      rw [hvars, hcontext]
      rfl
    rw [hinner, Call.vars_bound, ← Bindings.extend_append]
    rfl

variable (file host externals)

/-- A task that depends on nothing is entered and does its own work. -/
theorem invoke_of_leaf {ctx : Context} {found : ResolvedTask} (hnew : found.qualified ∉ ctx.stack)
    (hleaf : found.task.dependencies = []) (listed : found.qualified ∈ file.names)
    (given : List String) (world : σ) :
    invoke file host externals ctx found listed given world
      = .ofTask host externals ctx found given (bindFrame host ctx found given world)
          (.done (ctx.entered found (bindFrame host ctx found given world))
            (bindFrame host ctx found given world).world) := by
  rw [invoke_of_new file host externals hnew, hleaf, invokeAll_nil]

/-- **WHAT IS EXPORTED IS REACHED** by a chain of calls from the one that is made. -/
theorem reaches_of_event :
    (∀ ctx found listed given world,
      ∀ event ∈ (invoke file host externals ctx found listed given world).events,
        ∀ vars, event.exported? = some vars →
          Call.Reaches file host externals ⟨ctx, found, given, world⟩ event.stack vars) ∧
    ∀ ctx source dependencies world,
      ∀ event ∈ (invokeAll file host externals ctx source dependencies world).events,
        ∀ vars, event.exported? = some vars →
          ∃ call, DependencyCall file host externals source ctx dependencies world call ∧
            call.Reaches file host externals event.stack vars := by
  refine invokeBalanced.mutual_induct file host externals
    (fun ctx found listed given world =>
      ∀ event ∈ (invoke file host externals ctx found listed given world).events,
        ∀ vars, event.exported? = some vars →
          Call.Reaches file host externals ⟨ctx, found, given, world⟩ event.stack vars)
    (fun ctx source dependencies world =>
      ∀ event ∈ (invokeAll file host externals ctx source dependencies world).events,
        ∀ vars, event.exported? = some vars →
          ∃ call, DependencyCall file host externals source ctx dependencies world call ∧
            call.Reaches file host externals event.stack vars)
    ?running ?entered ?nil ?missing ?failed ?next
  case running =>
      intro ctx found listed given world hrunning event hmem
      rw [invoke_of_running file host externals hrunning] at hmem
      exact absurd hmem List.not_mem_nil
  case entered =>
      intro ctx found listed given world hnew _ bound ih _ event hmem vars hvars
      rw [invoke_of_new file host externals hnew] at hmem
      rcases mem_events_ofTask (context_invokeAll ..) hmem with
        ⟨-, hprivate⟩ | hdependency | ⟨hstack, hown⟩
      · exact absurd hvars (hprivate vars)
      · obtain ⟨call, hcall, hreach⟩ := ih event hdependency vars hvars
        exact Call.Makes.reaches ⟨hnew, hcall⟩ hreach
      · rw [hstack, hown vars hvars]
        exact Call.reaches_self ⟨ctx, found, given, world⟩
  case nil =>
      intro ctx source world event hmem
      rw [invokeAll_nil] at hmem
      exact absurd hmem List.not_mem_nil
  case missing =>
      intro ctx source dependency rest world hnone event hmem vars hvars
      rw [invokeAll_of_none file host externals hnone] at hmem
      rw [show event = _ from List.mem_singleton.mp hmem] at hvars
      cases hvars
  case failed =>
      intro ctx source dependency rest world target htarget first e he ih event hmem vars hvars
      rw [invokeAll_of_failed file host externals htarget he] at hmem
      exact ⟨_, .here htarget, ih event hmem vars hvars⟩
  case next =>
      intro ctx source dependency rest world target htarget first hok _ ihFirst ihRest _
        event hmem vars hvars
      rw [invokeAll_of_ok file host externals htarget hok, context_invoke] at hmem
      -- the rest starts in the context that the first dependency started in
      rw [show first.1.context = ctx from context_invoke ..] at ihRest
      rcases List.mem_append.mp hmem with hfirst | hrest
      · exact ⟨_, .here htarget, ihFirst event hfirst vars hvars⟩
      · obtain ⟨call, hcall, hreach⟩ := ihRest event hrest vars hvars
        exact ⟨call, .later htarget hok hcall, hreach⟩

end

/-! ## Requests -/

namespace Runner

/-- **DYNAMIC SCOPE**: of requests on one runner, each is answered with the variables that
    the runner starts with.  What is exported to a command or an external task is these
    variables, overlaid with one frame for each running task, from the requested one to
    the one that does the work: the last entry of a name counts.  A frame has the variables
    of the namespaces around the task, outermost first, each namespace's in the order of
    their declarations, and behind them the arguments.  Those of the requested task are what
    is given in their places, and empty where nothing is given; those of all other tasks
    are empty.  Every task is called in the context of the one before it, so nothing of a
    dependency that has come to its end is left. -/
theorem exported_variables_are_scoped (host : Host σ) (runner : Runner σ)
    (requests : List Request) (world : σ) {k : Nat} {o : Outcome σ}
    (ho : (runner.outcomes host world requests)[k]? = some o) :
    ∃ request now, requests[k]? = some request ∧
      o = runner.outcome host request.name request.given now ∧
      ∀ event ∈ o.events, ∀ vars, event.exported? = some vars →
        ∃ first rest, runner.file.resolve (requestedTask request.name) = some first.found ∧
          first = ⟨runner.context, first.found, request.given, now⟩ ∧
          (first :: rest).IsChain (Call.Makes runner.file host runner.externals) ∧
          event.stack = runner.context.stack ++ (first :: rest).map (·.found.qualified) ∧
          vars = runner.context.vars.extend ((first :: rest).flatMap (·.frame host)) ∧
          (∀ name, vars.get? name =
            ((((first :: rest).flatMap (·.frame host)).findRev? (·.1 = name)).map (·.2)).or
              (runner.context.vars.get? name)) ∧
          (∀ call ∈ first :: rest, (call.scopeEntries host).map (·.1)
            = (call.found.scopes.flatMap (·.vars)).map (·.name)) ∧
          first.givenEntries = first.found.task.arguments.mapIdx
            (fun place name => (name, request.given[place]?.getD "")) ∧
          ∀ call ∈ rest,
            call.givenEntries = call.found.task.arguments.map fun name => (name, "") := by
  obtain ⟨request, now, hrequest, rfl⟩ := exists_getElem_outcomes host runner ho
  refine ⟨request, now, hrequest, rfl, ?_⟩
  intro event hmem vars hvars
  obtain ⟨found, hfound, hevent⟩ := mem_events_outcome hmem
  obtain ⟨rest, hchain, hgiven, hstack, hextended⟩ :=
    (reaches_of_event runner.file host runner.externals).1 _ _ _ _ _ event hevent vars hvars
  refine ⟨_, rest, hfound, rfl, hchain, hstack, hextended, ?_, ?_, ?_, ?_⟩
  · intro name
    rw [hextended, Bindings.get?_extend]
  · intro call _
    exact names_variableEntries ..
  · exact argumentEntries_eq_mapIdx ..
  · intro call hcall
    rw [Call.givenEntries, hgiven call hcall, argumentEntries_nil]

/-- A runner with a variable that a namespace sets anew, for all that is called from there. -/
def deploying : Runner Unit where
  file :=
    { tasks := [
        { name := "where", arguments := ["tag"], commands := [⟨[.text "show"], false, false⟩] }]
      namespaces := [{
        name := "deploy", vars := [⟨"REGION", .literal "eu"⟩]
        tasks := [
          { name := "prod", arguments := ["tag"], dependencies := ["where"],
            commands := [⟨[.text "show"], false, false⟩] }] }] }
  context :=
    { workingDir := Path.ofString "/", vars := .ofList [("REGION", "global")],
      verbosity := .silent }
  externals := ⟨[]⟩

/-- The top-level task sees the region of its caller, but not what its caller is given. -/
theorem deploying_is_scoped :
    let o := deploying.outcome obliging "deploy:prod" ["v1", "v2"] ()
    (o.events.filterMap Event.exported?).map (fun vars => (vars.get? "REGION", vars.get? "tag"))
      = [(some "eu", some ""), (some "eu", some "v1")] ∧
      ∀ event ∈ o.events, ∀ vars, event.exported? = some vars →
        ∃ chain : List (Call Unit), event.stack = chain.map (·.found.qualified) ∧
          vars = deploying.context.vars.extend (chain.flatMap (·.frame obliging)) := by
  intro o
  have hfirst : (deploying.outcomes obliging () [⟨"deploy:prod", ["v1", "v2"]⟩])[0]? = some o := by
    rw [outcomes_cons]
    rfl
  constructor
  · show (List.filterMap _ (deploying.outcome obliging _ _ _).events).map _ = _
    rw [outcome_of_some rfl, invoke_of_new _ _ _ (by decide),
      invokeAll_of_ok _ _ _ rfl (by rw [invoke_of_leaf _ _ _ (by decide) rfl]; rfl),
      invokeAll_nil, invoke_of_leaf _ _ _ (by decide) rfl]
    decide +kernel
  · intro event hmem vars hvars
    obtain ⟨request, now, -, -, hscoped⟩ :=
      exported_variables_are_scoped obliging deploying _ () hfirst
    obtain ⟨first, rest, -, -, -, hstack, hextended, -⟩ := hscoped event hmem vars hvars
    exact ⟨first :: rest, hstack, hextended⟩

end Runner

end TaskRunner
