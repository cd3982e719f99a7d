import TaskRunner.Run.Runner

/-! # What an invocation leaves behind

    An invocation binds names, puts its task on the stack, runs whatever it runs, and
    takes both back.  Bindings are undone in the opposite order, so names that repeat,
    in one scope or across scopes, come out as they went in
    (`restore_bindFrame`), and the stack loses just the task that was put there.  Hence
    **the context comes back unchanged**, on every way out (`context_invoke`).

    With that, the next dependency starts in the very context that the first one had.
    `invocation_induction` is the induction over invocations in this form: one rule for
    each way an invocation goes, in one context. -/

namespace TaskRunner

variable {σ : Type}

/-- Leaving a task undoes its entry. -/
theorem pop_entered (ctx : Context) (found : ResolvedTask) (bound : Bound σ) :
    (ctx.entered found bound).pop.2 = { ctx with vars := bound.vars } := by
  rw [Context.pop, Context.stack_entered, List.dropLast_concat]
  rfl

/-- A task whose dependencies leave the context as it was entered leaves it as it was before. -/
theorem context_ofTask (host : Host σ) (externals : Externals σ) {ctx : Context}
    {found : ResolvedTask} (given : List String) {bound : Bound σ} {dependencies : Outcome σ}
    (h : dependencies.context = ctx.entered found bound)
    (hbound : bound.vars.restore bound.saved = ctx.vars) :
    (Outcome.ofTask host externals ctx found given bound dependencies).context = ctx := by
  have hown : (dependencies.andThen fun ctx world =>
      runOwn host externals ctx found given world).context = ctx.entered found bound :=
    (Outcome.context_andThen id _ _ fun ctx world => context_runOwn ..).trans h
  show Context.restore (Context.pop _).2 bound.saved = ctx
  rw [hown, pop_entered, Context.restore, hbound]

section

variable (file : TaskFile) (host : Host σ) (externals : Externals σ)

/-- **THE CONTEXT COMES BACK**: however an invocation ends, variables and stack are what
    they were, and so they are after any number of dependencies. -/
theorem context_invocation :
    (∀ ctx found listed given world,
      (invoke file host externals ctx found listed given world).context = ctx) ∧
    ∀ ctx source dependencies world,
      (invokeAll file host externals ctx source dependencies world).context = ctx := by
  refine invokeBalanced.mutual_induct file host externals
    (fun ctx found listed given world =>
      (invoke file host externals ctx found listed given world).context = ctx)
    (fun ctx source dependencies world =>
      (invokeAll file host externals ctx source dependencies world).context = ctx)
    ?running ?entered ?nil ?missing ?failed ?next
  case running =>
      intro ctx found listed given world hrunning
      rw [invoke_of_running file host externals hrunning]
      rfl
  case entered =>
      intro ctx found listed given world hnew _ bound ih _
      rw [invoke_of_new file host externals hnew]
      exact context_ofTask host externals given ih (restore_bindFrame ..)
  case nil =>
      intro ctx source world
      rw [invokeAll_nil]
      rfl
  case missing =>
      intro ctx source dependency rest world hnone
      rw [invokeAll_of_none file host externals hnone]
      rfl
  case failed =>
      intro ctx source dependency rest world target htarget first e he ih
      rw [invokeAll_of_failed file host externals htarget he]
      exact ih
  case next =>
      intro ctx source dependency rest world target htarget first hok _ ihFirst ihRest _
      rw [invokeAll_of_ok file host externals htarget hok]
      exact ihRest.trans ihFirst

theorem context_invoke (ctx : Context) (found : ResolvedTask)
    (listed : found.qualified ∈ file.names) (given : List String) (world : σ) :
    (invoke file host externals ctx found listed given world).context = ctx :=
  (context_invocation file host externals).1 ctx found listed given world

theorem context_invokeAll (ctx : Context) (source : ResolvedTask) (dependencies : List String)
    (world : σ) : (invokeAll file host externals ctx source dependencies world).context = ctx :=
  (context_invocation file host externals).2 ctx source dependencies world

/-! ## Invocations in one context -/

/-- **INDUCTION OVER INVOCATIONS**, one rule for each way they go: a task that is running,
    a task that is entered, no dependencies, a dependency that means no task, one that
    fails, and one that is followed by others.  `P` speaks of a task and what invoking it
    leaves, `Q` of a task, some of its dependencies and what invoking them leaves. -/
theorem invocation_induction
    (P : Context → ResolvedTask → List String → σ → Outcome σ → Prop)
    (Q : Context → ResolvedTask → List String → σ → Outcome σ → Prop)
    (running : ∀ ctx found given world, found.qualified ∈ ctx.stack →
      P ctx found given world
        (Outcome.fail (.circularDependency (ctx.callChain found.qualified)) ctx world))
    (entered : ∀ ctx found given world dependencies, found.qualified ∉ ctx.stack →
      dependencies.context = ctx.entered found (bindFrame host ctx found given world) →
      Q (ctx.entered found (bindFrame host ctx found given world)) found
        found.task.dependencies (bindFrame host ctx found given world).world dependencies →
      P ctx found given world (.ofTask host externals ctx found given
        (bindFrame host ctx found given world) dependencies))
    (nil : ∀ ctx source world, Q ctx source [] world (Outcome.done ctx world))
    (missing : ∀ ctx source dependency rest world,
      file.resolveFrom source dependency = none →
      Q ctx source (dependency :: rest) world
        ((Outcome.fail
          (.dependencyFailed source.qualified dependency (.taskNotFound dependency))
          ctx world).ofStep ctx (.missing source.qualified dependency)))
    (failed : ∀ ctx source dependency rest world target first e,
      file.resolveFrom source dependency = some target → first.result = .error e →
      P ctx target [] world first →
      Q ctx source (dependency :: rest) world
        (first.mapError (.dependencyFailed source.qualified dependency)))
    (next : ∀ ctx source dependency rest world target first others,
      file.resolveFrom source dependency = some target → first.result = .ok () →
      P ctx target [] world first → Q ctx source rest first.world others →
      Q ctx source (dependency :: rest) world (others.after first.events)) :
    (∀ ctx found listed given world,
      P ctx found given world (invoke file host externals ctx found listed given world)) ∧
    ∀ ctx source dependencies world,
      Q ctx source dependencies world
        (invokeAll file host externals ctx source dependencies world) := by
  refine invokeBalanced.mutual_induct file host externals
    (fun ctx found listed given world =>
      P ctx found given world (invoke file host externals ctx found listed given world))
    (fun ctx source dependencies world =>
      Q ctx source dependencies world
        (invokeAll file host externals ctx source dependencies world))
    ?running ?entered ?nil ?missing ?failed ?next
  case running =>
      intro ctx found listed given world hrunning
      rw [invoke_of_running file host externals hrunning]
      exact running ctx found given world hrunning
  case entered =>
      intro ctx found listed given world hnew _ bound ih _
      rw [invoke_of_new file host externals hnew]
      exact entered ctx found given world _ hnew (context_invokeAll ..) ih
  case nil =>
      intro ctx source world
      rw [invokeAll_nil]
      exact nil ctx source world
  case missing =>
      intro ctx source dependency rest world hnone
      rw [invokeAll_of_none file host externals hnone]
      exact missing ctx source dependency rest world hnone
  case failed =>
      intro ctx source dependency rest world target htarget first e he ih
      rw [invokeAll_of_failed file host externals htarget he]
      exact failed ctx source dependency rest world target _ e htarget he ih
  case next =>
      intro ctx source dependency rest world target htarget first hok _ ihFirst ihRest _
      rw [invokeAll_of_ok file host externals htarget hok, context_invoke]
      -- the rest starts in the context that the first dependency started in
      rw [show first.1.context = ctx from context_invoke ..] at ihRest
      exact next ctx source dependency rest world target _ _ htarget hok ihFirst ihRest

end

/-! ## Requests on one runner -/

namespace Runner

/-- A request leaves the context of its runner as it was. -/
theorem context_outcome (host : Host σ) (runner : Runner σ) (name : String)
    (given : List String) (world : σ) :
    (runner.outcome host name given world).context = runner.context := by
  cases h : runner.file.resolve (requestedTask name) with
  | none => rw [outcome_of_none h, Outcome.fail]
  | some found => rw [outcome_of_some h, context_invoke]

/-- A runner is the same after a request as before. -/
theorem runner_of_run (host : Host σ) (runner : Runner σ) (name : String)
    (given : List String) (world : σ) : (runner.run host name given world).2 = runner := by
  rw [run, context_outcome]

/-- A request: the name of a task, empty for the default task, and arguments. -/
structure Request where
  name : String
  given : List String := []
deriving DecidableEq, Repr

/-- The outcomes of requests that are made one after the other on one runner, whether the ones
    before succeed or not. -/
def outcomes (host : Host σ) (runner : Runner σ) (world : σ) :
    List Request → List (Outcome σ)
  | [] => []
  | request :: rest =>
    let (outcome, next) := runner.run host request.name request.given world
    outcome :: next.outcomes host outcome.world rest

theorem outcomes_cons (host : Host σ) (runner : Runner σ) (world : σ) (request : Request)
    (rest : List Request) :
    runner.outcomes host world (request :: rest)
      = runner.outcome host request.name request.given world
        :: runner.outcomes host (runner.outcome host request.name request.given world).world
            rest := by
  rw [outcomes]
  show _ :: (runner.run host request.name request.given world).2.outcomes _ _ _ = _
  rw [runner_of_run]

/-- In a sequence of requests each is answered by the runner that the first one met, only in a
    world that those before have changed. -/
theorem exists_getElem_outcomes (host : Host σ) (runner : Runner σ) {requests : List Request}
    {world : σ} {k : Nat} {o : Outcome σ}
    (h : (runner.outcomes host world requests)[k]? = some o) :
    ∃ request later, requests[k]? = some request ∧
      o = runner.outcome host request.name request.given later := by
  induction requests generalizing world k with
  | nil => cases h
  | cons request rest ih =>
      rw [outcomes_cons] at h
      cases k with
      | zero => exact ⟨request, world, rfl, (Option.some.inj h).symm⟩
      | succ k => exact ih h

end Runner

end TaskRunner
