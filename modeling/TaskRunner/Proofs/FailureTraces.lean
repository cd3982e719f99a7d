import TaskRunner.Proofs.DynamicScope

/-! # Where an error comes from

    An error that reaches the user has come up through every task that failed because of
    it.  Its **`layers`** are the failed dependencies on the way, outermost first, and
    beneath them is its `root`; the two put together are the error (`foldr_layers`).

    The layers are written while the calls return, the chain of a circular dependency is
    read off the stack at the bottom.  `Call.Fails` ties both to the calls themselves: it
    has one rule for each way in which a call fails, and every error of an invocation
    comes by these rules (`fails_of_invoke`).  By induction over them the layers are a
    **`Way`** through the file, from the requested task to the one that failed, and the
    root is what became of that task (`failures_are_traced`). -/

namespace TaskRunner

variable {σ : Type}

/-! ## Layers -/

namespace ExecutionError

/-- The failed dependencies that an error has come through, outermost first: the name of the task
    that waited, and the dependency as it is written there. -/
def layers : ExecutionError → List (String × String)
  | dependencyFailed task dependency source => (task, dependency) :: source.layers
  | _ => []

/-- An error is its root in its layers. -/
theorem foldr_layers (e : ExecutionError) :
    e.layers.foldr (fun layer source => dependencyFailed layer.1 layer.2 source) e.root = e := by
  induction e with
  | dependencyFailed task dependency source ih => exact congrArg _ ih
  | _ => rfl

end ExecutionError

/-- Layers lead from one task to another: each has the name of a task, which means that very task,
    and one of its dependencies; what the dependency means there is the next task. -/
inductive TaskFile.Way (file : TaskFile) :
    ResolvedTask → List (String × String) → ResolvedTask → Prop
  | here {task : ResolvedTask} : file.resolve task.qualified = some task → Way file task [] task
  | step {source target last : ResolvedTask} {dependency : String}
      {layers : List (String × String)} :
      file.resolve source.qualified = some source →
      dependency ∈ source.task.dependencies →
      file.resolveFrom source dependency = some target →
      Way file target layers last →
      Way file source ((source.qualified, dependency) :: layers) last

/-- All callables among the externals report what goes wrong as their own failure. -/
def Externals.FailAsExternal (externals : Externals σ) : Prop :=
  ∀ name run, externals.get? name = some (.callable run) →
    ∀ given ctx world e, (run given ctx world).1 = .error e →
      ∃ task message, e = .external task message

section

variable (file : TaskFile) (host : Host σ) (externals : Externals σ)

/-! ## How calls fail -/

/-- How a call fails: the task is running already, a dependency means no task, the call that is
    made for a dependency fails, or the task's own work does. -/
inductive Call.Fails : Call σ → ExecutionError → Prop
  | running {call : Call σ} :
      call.found.qualified ∈ call.context.stack →
      Fails call (.circularDependency (call.context.callChain call.found.qualified))
  | missing {call : Call σ} {dependency : String} :
      dependency ∈ call.found.task.dependencies →
      file.resolveFrom call.found dependency = none →
      Fails call (.dependencyFailed call.found.qualified dependency (.taskNotFound dependency))
  | dependency {caller call : Call σ} {dependency : String} {e : ExecutionError} :
      caller.Makes file host externals call →
      dependency ∈ caller.found.task.dependencies →
      file.resolveFrom caller.found dependency = some call.found →
      Fails call e →
      Fails caller (.dependencyFailed caller.found.qualified dependency e)
  | own {call : Call σ} {e : ExecutionError} :
      OwnError externals (call.context.entered call.found (call.bound host)) call.found
        call.given e →
      Fails call e

/-- **EVERY FAILURE FOLLOWS A RULE**: an invocation that ends in an error is a call that fails
    so; of dependencies, the error is that of one which means no task or whose call fails. -/
theorem fails_of_invoke :
    (∀ ctx found listed given world e,
      (invoke file host externals ctx found listed given world).result = .error e →
        Call.Fails file host externals ⟨ctx, found, given, world⟩ e) ∧
    ∀ ctx source dependencies world e,
      (invokeAll file host externals ctx source dependencies world).result = .error e →
        ∃ dependency ∈ dependencies, ∃ cause,
          e = .dependencyFailed source.qualified dependency cause ∧
          ((file.resolveFrom source dependency = none ∧ cause = .taskNotFound dependency) ∨
            ∃ call, DependencyCall file host externals source ctx dependencies world call ∧
              file.resolveFrom source dependency = some call.found ∧
              call.Fails file host externals cause) := by
  refine invokeBalanced.mutual_induct file host externals
    (fun ctx found listed given world => ∀ e,
      (invoke file host externals ctx found listed given world).result = .error e →
        Call.Fails file host externals ⟨ctx, found, given, world⟩ e)
    (fun ctx source dependencies world => ∀ e,
      (invokeAll file host externals ctx source dependencies world).result = .error e →
        ∃ dependency ∈ dependencies, ∃ cause,
          e = .dependencyFailed source.qualified dependency cause ∧
          ((file.resolveFrom source dependency = none ∧ cause = .taskNotFound dependency) ∨
            ∃ call, DependencyCall file host externals source ctx dependencies world call ∧
              file.resolveFrom source dependency = some call.found ∧
              call.Fails file host externals cause))
    ?running ?entered ?nil ?missing ?failed ?next
  case running =>
      intro ctx found listed given world hrunning e he
      rw [invoke_of_running file host externals hrunning] at he
      obtain rfl := Except.error.inj he
      exact .running hrunning
  case entered =>
      intro ctx found listed given world hnew _ bound ih _ e he
      rw [invoke_of_new file host externals hnew] at he
      rcases Outcome.error_of_ofTask he with hdependencies | hown
      · obtain ⟨dependency, hmem, cause, rfl, hcause⟩ := ih e hdependencies
        rcases hcause with ⟨hnone, rfl⟩ | ⟨call, hcall, htarget, hfails⟩
        · exact .missing hmem hnone
        · exact .dependency ⟨hnew, hcall⟩ hmem htarget hfails
      · rw [context_invokeAll] at hown
        exact .own hown
  case nil =>
      intro ctx source world e he
      rw [invokeAll_nil] at he
      cases he
  case missing =>
      intro ctx source dependency rest world hnone e he
      rw [invokeAll_of_none file host externals hnone] at he
      exact ⟨dependency, List.mem_cons_self, _, (Except.error.inj he).symm, .inl ⟨hnone, rfl⟩⟩
  case failed =>
      intro ctx source dependency rest world target htarget first cause hcause ih e he
      rw [invokeAll_of_failed file host externals htarget hcause, Outcome.result_mapError] at he
      rw [show (invoke file host externals ctx target _ [] world).result = .error cause
        from hcause] at he
      exact ⟨dependency, List.mem_cons_self, cause, (Except.error.inj he).symm,
        .inr ⟨_, .here htarget, htarget, ih cause hcause⟩⟩
  case next =>
      intro ctx source dependency rest world target htarget first hok _ _ ihRest _ e he
      rw [invokeAll_of_ok file host externals htarget hok, context_invoke] at he
      -- the rest starts in the context that the first dependency started in
      rw [show first.1.context = ctx from context_invoke ..] at ihRest
      obtain ⟨other, hmem, cause, rfl, hcause⟩ := ihRest e he
      refine ⟨other, List.mem_cons_of_mem _ hmem, cause, rfl, hcause.imp_right ?_⟩
      rintro ⟨call, hcall, hother⟩
      exact ⟨call, .later htarget hok hcall, hother⟩

/-! ## What an error says -/

/-- What an error says of a call that was made while the tasks `above` were running: its layers
    are a way from the task that is called, and its root is what went wrong at its end.

    - A task that is not found is the last dependency, which means no task there.
    - What the last dependency of a circular chain means is running already; the chain has the
      tasks `above`, those on the way, and that one again.
    - A command line that failed is that of a command of the last task that may not fail, as it
      reads with the variables that the calls on the way have bound.
    - A task that nobody is there to run is the last task, known by its name.
    - What others report comes from the last task, which they run. -/
def Call.Explained (above : List String) (call : Call σ) (e : ExecutionError) : Prop :=
  match e.root with
  | .taskNotFound name =>
    ∃ before last, file.Way call.found before last ∧ e.layers = before ++ [(last.qualified, name)] ∧
      name ∈ last.task.dependencies ∧ file.resolveFrom last name = none
  | .circularDependency chain =>
    ∃ before last dependency again, file.Way call.found before last ∧
      e.layers = before ++ [(last.qualified, dependency)] ∧
      dependency ∈ last.task.dependencies ∧ file.resolveFrom last dependency = some again ∧
      again.qualified ∈ above ++ e.layers.map (·.1) ∧
      chain = above ++ e.layers.map (·.1) ++ [again.qualified]
  | .commandFailed line _ =>
    ∃ last vars, file.Way call.found e.layers last ∧
      call.Reaches file host externals (above ++ e.layers.map (·.1) ++ [last.qualified]) vars ∧
      ∃ command ∈ last.task.commands, command.mayFail = false ∧
        line = command.render { call.context with vars }.lookup
  | .externalUnavailable name =>
    ∃ last, file.Way call.found e.layers last ∧ name = last.qualified ∧
      last.task.dispatch ≠ none ∧ externals.get? name = none
  | .external _ _ =>
    ∃ last, file.Way call.found e.layers last ∧ last.task.dispatch ≠ none
  | .dependencyFailed .. => False

variable {file host externals}

/-- A task's own failure explains itself. -/
theorem Call.explained_of_own {call : Call σ} {e : ExecutionError}
    (hknown : file.resolve call.found.qualified = some call.found)
    (hcallables : externals.FailAsExternal)
    (h : OwnError externals (call.context.entered call.found (call.bound host)) call.found
      call.given e) :
    call.Explained file host externals call.context.stack e := by
  cases h with
  | command command code own mem strict =>
      refine ⟨call.found, _, .here hknown, ?_, command, mem, strict, rfl⟩
      show call.Reaches file host externals (call.context.stack ++ [] ++ [call.found.qualified]) _
      rw [List.append_nil]
      exact call.reaches_self
  | unavailable dispatch others nobody =>
      exact ⟨call.found, .here hknown, rfl, by simp [others], nobody⟩
  | program name leading message dispatch others handler =>
      exact ⟨call.found, .here hknown, by simp [others]⟩
  | callable run world e dispatch others handler refusal =>
      obtain ⟨task, message, rfl⟩ := hcallables _ run handler _ _ world e refusal
      exact ⟨call.found, .here hknown, by simp [others]⟩

/-- What explains the failure of a call explains that of its caller, one layer further. -/
theorem Call.Explained.wrap {caller call : Call σ} {dependency : String} {e : ExecutionError}
    (hmakes : caller.Makes file host externals call)
    (hknown : file.resolve caller.found.qualified = some caller.found)
    (hmem : dependency ∈ caller.found.task.dependencies)
    (htarget : file.resolveFrom caller.found dependency = some call.found)
    (h : call.Explained file host externals (caller.context.stack ++ [caller.found.qualified]) e) :
    caller.Explained file host externals caller.context.stack
      (.dependencyFailed caller.found.qualified dependency e) := by
  have hway {layers last} (hrest : file.Way call.found layers last) :
      file.Way caller.found ((caller.found.qualified, dependency) :: layers) last :=
    .step hknown hmem htarget hrest
  simp only [Explained, ExecutionError.root, ExecutionError.layers, List.map_cons] at h ⊢
  cases hroot : e.root with
  | taskNotFound name =>
      rw [hroot] at h
      obtain ⟨before, last, hrest, hlayers, hend⟩ := h
      exact ⟨_, last, hway hrest, congrArg _ hlayers, hend⟩
  | dependencyFailed task dependency source =>
      rw [hroot] at h
      exact h
  | commandFailed line code =>
      rw [hroot] at h
      obtain ⟨last, vars, hrest, hreach, command, hown, hstrict, hline⟩ := h
      refine ⟨last, vars, hway hrest, ?_, command, hown, hstrict, ?_⟩
      · rw [List.append_cons caller.context.stack]
        exact hmakes.reaches hreach
      · -- a call differs from its caller's context only in variables and stack
        rw [hline, hmakes.2.context_eq.1]
        rfl
  | circularDependency chain =>
      rw [hroot] at h
      obtain ⟨before, last, other, again, hrest, hlayers, hother, hagain, hmem', hchain⟩ := h
      rw [← List.append_cons] at hmem' hchain
      exact ⟨_, last, other, again, hway hrest, congrArg _ hlayers, hother, hagain, hmem', hchain⟩
  | externalUnavailable name =>
      rw [hroot] at h
      obtain ⟨last, hrest, hend⟩ := h
      exact ⟨last, hway hrest, hend⟩
  | external name message =>
      rw [hroot] at h
      obtain ⟨last, hrest, hend⟩ := h
      exact ⟨last, hway hrest, hend⟩

/-- **FAILURES EXPLAIN THEMSELVES**: a call that fails either finds its task running, or its
    error says what went wrong. -/
theorem Call.Fails.explained {call : Call σ} {e : ExecutionError}
    (h : call.Fails file host externals e) (hcallables : externals.FailAsExternal)
    (hknown : file.resolve call.found.qualified = some call.found) :
    (call.found.qualified ∈ call.context.stack ∧
      e = .circularDependency (call.context.stack ++ [call.found.qualified])) ∨
    call.Explained file host externals call.context.stack e := by
  induction h with
  | running hrunning => exact .inl ⟨hrunning, rfl⟩
  | missing hmem hnone => exact .inr ⟨[], _, .here hknown, rfl, hmem, hnone⟩
  | @dependency caller call dependency e hmakes hmem htarget _ ih =>
      refine .inr ?_
      have hstack : call.context.stack = caller.context.stack ++ [caller.found.qualified] := by
        rw [hmakes.2.context_eq.1, Context.stack_entered]
      rw [hstack] at ih
      rcases ih (TaskFile.resolve_qualified_of_resolveFrom htarget) with
        ⟨hrunning, rfl⟩ | hexplained
      · exact ⟨[], caller.found, dependency, call.found, .here hknown, rfl, hmem, htarget,
          hrunning, rfl⟩
      · exact hexplained.wrap hmakes hknown hmem htarget
  | own hown => exact .inr (explained_of_own hknown hcallables hown)

end

/-! ## Requests -/

namespace Runner

/-- **FAILURES ARE TRACED**: when a request fails while no task is running, its error is its root
    in its layers, and either the requested name means no task and the error says so, with no
    layers, or it means a task from which the layers lead to the one that failed, and the
    root says what became of that. -/
theorem failures_are_traced (host : Host σ) (runner : Runner σ)
    (hidle : runner.context.stack = []) (hcallables : runner.externals.FailAsExternal)
    (name : String) (given : List String) (world : σ) {e : ExecutionError}
    (h : (runner.outcome host name given world).result = .error e) :
    e = e.layers.foldr (fun layer source => .dependencyFailed layer.1 layer.2 source) e.root ∧
    ((runner.file.resolve (requestedTask name) = none ∧ e = .taskNotFound (requestedTask name)) ∨
      ∃ first, runner.file.resolve (requestedTask name) = some first ∧
        Call.Explained runner.file host runner.externals []
          ⟨runner.context, first, given, world⟩ e) := by
  refine ⟨e.foldr_layers.symm, ?_⟩
  cases hfirst : runner.file.resolve (requestedTask name) with
  | none =>
      rw [outcome_of_none hfirst] at h
      exact .inl ⟨rfl, (Except.error.inj h).symm⟩
  | some first =>
      rw [outcome_of_some hfirst] at h
      have hfails := (fails_of_invoke runner.file host runner.externals).1 _ _ _ _ _ e h
      refine .inr ⟨first, rfl, ?_⟩
      rcases hfails.explained hcallables (TaskFile.resolve_qualified hfirst) with
        ⟨hrunning, -⟩ | hexplained
      · rw [hidle] at hrunning
        exact absurd hrunning List.not_mem_nil
      · rwa [hidle] at hexplained

/-- A runner of a task that waits for one in a namespace, which sets the tool for its commands, and
    for one that a callable refuses to run. -/
def releasing : Runner Unit where
  file :=
    { tasks := [
        { name := "release", dependencies := ["docs:build", "notify"] },
        { name := "notify", dispatch := some ⟨"", none⟩ }]
      namespaces := [{
        name := "docs", vars := [⟨"TOOL", .literal "mk"⟩]
        tasks := [
          { name := "build", arguments := ["page"]
            commands := [⟨[.variable "TOOL", .text " all", .variable "page"], false, false⟩] }] }] }
  context := { workingDir := Path.ofString "/", verbosity := .silent }
  externals := ⟨[("notify", .callable fun _ _ _ => (.error (.external "notify" "offline"), ()))]⟩

theorem failAsExternal_releasing : releasing.externals.FailAsExternal := by
  intro name run hget given ctx world e he
  obtain ⟨entry, hentry, hhandler⟩ := Option.map_eq_some_iff.mp hget
  obtain rfl := List.mem_singleton.mp (List.mem_reverse.mp (List.mem_of_find?_eq_some hentry))
  obtain rfl := Handler.callable.inj hhandler
  exact ⟨_, _, (Except.error.inj he).symm⟩

/-- Where no shell starts, the command of the dependency fails, as it reads with the tool of its
namespace and without a page. -/
theorem releasing_is_traced :
    releasing.context.stack = [] ∧ releasing.externals.FailAsExternal ∧
      ∃ e, (releasing.outcome barren "release" ["v1"] ()).result = .error e ∧
        e.layers = [("release", "docs:build")] ∧ e.root = .commandFailed "mk all" none ∧
        ∃ first, releasing.file.resolve "release" = some first ∧
          Call.Explained releasing.file barren releasing.externals []
            ⟨releasing.context, first, ["v1"], ()⟩ e := by
  have herror : (releasing.outcome barren "release" ["v1"] ()).result = .error
      (.dependencyFailed "release" "docs:build" (.commandFailed "mk all" none)) := by
    rw [outcome_of_some rfl, invoke_of_new _ _ _ (by decide),
      invokeAll_of_failed _ _ _ rfl (by rw [invoke_of_leaf _ _ _ (by decide) rfl]; rfl),
      invoke_of_leaf _ _ _ (by decide) rfl]
    decide +kernel
  refine ⟨rfl, failAsExternal_releasing, _, herror, rfl, rfl, ?_⟩
  obtain ⟨-, hnone | hexplained⟩ :=
    failures_are_traced barren releasing rfl failAsExternal_releasing "release" ["v1"] () herror
  · cases hnone.2
  · exact hexplained

end Runner

end TaskRunner
