import Mathlib.Data.List.Dedup
import Mathlib.Data.List.Perm.Subperm
import TaskRunner.Proofs.EventContext
import TaskRunner.Proofs.AcyclicRuns

/-! # How deep a run goes

    Dependencies may be cyclic, and a file that has not been checked may list a name
    twice: that every run ends nevertheless rests on the stack.  A task is not entered
    while it is running, and whatever a name means is listed, so at every moment the stack
    is **`Simple`**: its names are listed and distinct (`simple_of_invoke`).

    `invokeWithin` follows the same rules with nothing to guarantee that it ends, but a
    bound on how deep invocations may be nested; where they go deeper it has no outcome.
    A simple stack is no longer than there are distinct names (`Simple.length_le`), and so
    one level more than there are distinct names is enough for every request on every file
    (**`runs_end_at_bounded_depth`**). -/

namespace TaskRunner

variable {σ : Type}

/-! ## Simple stacks -/

namespace TaskFile

variable {file : TaskFile}

/-- Listed names, none of them twice. -/
structure Simple (file : TaskFile) (stack : List String) : Prop where
  nodup : stack.Nodup
  listed : ∀ name ∈ stack, name ∈ file.names

theorem simple_nil (file : TaskFile) : file.Simple [] :=
  ⟨List.nodup_nil, fun _ hmem => absurd hmem List.not_mem_nil⟩

/-- A listed name that is not on a simple stack may be put there. -/
theorem Simple.concat {stack : List String} {name : String} (h : file.Simple stack)
    (hlisted : name ∈ file.names) (hnew : name ∉ stack) : file.Simple (stack ++ [name]) := by
  constructor
  · exact List.nodup_append.mpr ⟨h.nodup, List.nodup_singleton name, by
      intro earlier hearlier last hlast heq
      rw [List.mem_singleton.mp hlast] at heq
      exact hnew (heq ▸ hearlier)⟩
  · intro other hother
    rcases List.mem_append.mp hother with hstack | hlast
    · exact h.listed other hstack
    · rwa [List.mem_singleton.mp hlast]

/-- The number of distinct names that a file lists. -/
def distinctNames (file : TaskFile) : Nat := file.names.dedup.length

theorem Simple.length_le {stack : List String} (h : file.Simple stack) :
    stack.length ≤ file.distinctNames := by
  refine (List.subperm_of_subset h.nodup fun name hmem => ?_).length_le
  exact List.mem_dedup.mpr (h.listed name hmem)

end TaskFile

section

variable (file : TaskFile) (host : Host σ) (externals : Externals σ)

/-- **THE STACK IS SIMPLE** whenever anything happens, if it is when a listed task is
    invoked. -/
theorem simple_of_invoke :
    (∀ ctx found listed given world, file.Simple ctx.stack →
      ∀ event ∈ (invoke file host externals ctx found listed given world).events,
        file.Simple event.stack) ∧
    ∀ ctx source dependencies world, file.Simple ctx.stack →
      ∀ event ∈ (invokeAll file host externals ctx source dependencies world).events,
        file.Simple event.stack := by
  have hinduction := invocation_induction file host externals
    (fun ctx found _ _ o => found.qualified ∈ file.names → file.Simple ctx.stack →
      ∀ event ∈ o.events, file.Simple event.stack)
    (fun ctx _ _ _ o => file.Simple ctx.stack → ∀ event ∈ o.events, file.Simple event.stack)
    ?running ?entered ?nil ?missing ?failed ?next
  · refine ⟨fun ctx found listed given world hstack => ?_, hinduction.2⟩
    exact hinduction.1 ctx found listed given world listed hstack
  case running =>
      intro ctx found given world _ _ _ event hmem
      exact absurd hmem List.not_mem_nil
  case entered =>
      intro ctx found given world dependencies hnew hcontext ih hlisted hstack event hmem
      have hinner : file.Simple (ctx.stack ++ [found.qualified]) := hstack.concat hlisted hnew
      rcases mem_events_ofTask hcontext hmem with ⟨heq, -⟩ | hdependency | ⟨heq, -⟩
      · rw [heq]
        exact hstack
      · exact ih hinner event hdependency
      · rw [heq]
        exact hinner
  case nil =>
      intro ctx source world _ event hmem
      exact absurd hmem List.not_mem_nil
  case missing =>
      intro ctx source dependency rest world _ hstack event hmem
      rw [show event = _ from List.mem_singleton.mp hmem]
      exact hstack
  case failed =>
      intro ctx source dependency rest world target first e htarget _ ih hstack
      exact ih (TaskFile.qualified_mem_names_of_resolveFrom htarget) hstack
  case next =>
      intro ctx source dependency rest world target first others htarget _ ihFirst ihRest hstack
        event hmem
      rcases List.mem_append.mp hmem with hfirst | hothers
      · exact ihFirst (TaskFile.qualified_mem_names_of_resolveFrom htarget) hstack event hfirst
      · exact ihRest hstack event hothers

/-! ## Invocations of bounded depth -/

/-- Invokes the dependencies of the task `source`, one after the other, each by `invokeOne` and in
the context that the one before left. -/
def invokeEach (invokeOne : Context → ResolvedTask → List String → σ → Option (Outcome σ))
    (source : ResolvedTask) : Context → List String → σ → Option (Outcome σ)
  | ctx, [], world => some (Outcome.done ctx world)
  | ctx, dependency :: rest, world =>
    match file.resolveFrom source dependency with
    | none =>
      some ((Outcome.fail
        (.dependencyFailed source.qualified dependency (.taskNotFound dependency))
        ctx world).ofStep ctx (.missing source.qualified dependency))
    | some target =>
      (invokeOne ctx target [] world).bind fun first =>
        match first.result with
        | .error _ => some (first.mapError (.dependencyFailed source.qualified dependency))
        | .ok () =>
          (invokeEach invokeOne source first.context rest first.world).map
            (·.after first.events)

/-- Invokes a task, where invocations may be nested as deep as the first argument says. -/
def invokeWithin : Nat → Context → ResolvedTask → List String → σ → Option (Outcome σ)
  | 0, _, _, _, _ => none
  | depth + 1, ctx, found, given, world =>
    if found.qualified ∈ ctx.stack then
      some (Outcome.fail (.circularDependency (ctx.callChain found.qualified)) ctx world)
    else
      let bound := bindFrame host ctx found given world
      (invokeEach file (invokeWithin depth) found (ctx.entered found bound)
        found.task.dependencies bound.world).map (.ofTask host externals ctx found given bound)

/-- **DEPTH IS BOUNDED**: on a simple stack, the levels that are left up to one more than there
    are distinct names are enough to invoke a task. -/
theorem invokeWithin_eq :
    (∀ ctx found listed given world, file.Simple ctx.stack →
      ∀ depth, file.distinctNames < depth + ctx.stack.length →
        invokeWithin file host externals depth ctx found given world
          = some (invoke file host externals ctx found listed given world)) ∧
    ∀ ctx source dependencies world, file.Simple ctx.stack →
      ∀ depth, file.distinctNames < depth + ctx.stack.length →
        invokeEach file (invokeWithin file host externals depth) source ctx dependencies world
          = some (invokeAll file host externals ctx source dependencies world) := by
  have hinduction := invocation_induction file host externals
    (fun ctx found given world o => o.context = ctx ∧
      (found.qualified ∈ file.names → file.Simple ctx.stack →
        ∀ depth, file.distinctNames < depth + ctx.stack.length →
          invokeWithin file host externals depth ctx found given world = some o))
    (fun ctx source dependencies world o => file.Simple ctx.stack →
      ∀ depth, file.distinctNames < depth + ctx.stack.length →
        invokeEach file (invokeWithin file host externals depth) source ctx dependencies world
          = some o)
    ?running ?entered ?nil ?missing ?failed ?next
  · refine ⟨fun ctx found listed given world hstack => ?_, hinduction.2⟩
    exact (hinduction.1 ctx found listed given world).2 listed hstack
  case running =>
      intro ctx found given world hrunning
      refine ⟨rfl, fun _ hstack depth hdepth => ?_⟩
      have hlength := hstack.length_le
      cases depth with
      | zero => omega
      | succ depth => rw [invokeWithin, if_pos hrunning]
  case entered =>
      intro ctx found given world dependencies hnew hcontext ih
      refine ⟨context_ofTask host externals given hcontext (restore_bindFrame ..), ?_⟩
      intro hlisted hstack depth hdepth
      have hlength := hstack.length_le
      have hinner := hstack.concat hlisted hnew
      cases depth with
      | zero => omega
      | succ depth =>
          rw [invokeWithin, if_neg hnew]
          have hdependencies := ih hinner depth (by
            rw [Context.stack_entered, List.length_append, List.length_singleton]
            omega)
          dsimp only
          rw [hdependencies, Option.map_some]
  case nil =>
      intro ctx source world _ depth _
      rw [invokeEach]
  case missing =>
      intro ctx source dependency rest world hnone _ depth _
      rw [invokeEach, hnone]
  case failed =>
      intro ctx source dependency rest world target first e htarget he ih hstack depth hdepth
      have hlisted := TaskFile.qualified_mem_names_of_resolveFrom htarget
      rw [invokeEach, htarget]
      dsimp only
      rw [ih.2 hlisted hstack depth hdepth, Option.bind_some, he]
  case next =>
      intro ctx source dependency rest world target first others htarget hok ihFirst ihRest hstack
        depth hdepth
      have hlisted := TaskFile.qualified_mem_names_of_resolveFrom htarget
      rw [invokeEach, htarget]
      dsimp only
      rw [ihFirst.2 hlisted hstack depth hdepth, Option.bind_some, hok]
      dsimp only
      rw [ihFirst.1, ihRest hstack depth hdepth, Option.map_some]

end

/-! ## Requests -/

namespace Runner

/-- The outcome of a request, where invocations may be nested `depth` deep. -/
def outcomeWithin (host : Host σ) (depth : Nat) (runner : Runner σ) (request : Request)
    (world : σ) : Option (Outcome σ) :=
  match runner.file.resolve (requestedTask request.name) with
  | none =>
    some (Outcome.fail (.taskNotFound (requestedTask request.name)) runner.context world)
  | some found =>
    invokeWithin runner.file host runner.externals depth runner.context found request.given world

/-- The outcomes of requests that are made one after the other on one runner, where invocations may
be nested `depth` deep. -/
def outcomesWithin (host : Host σ) (depth : Nat) (runner : Runner σ) (world : σ) :
    List Request → Option (List (Outcome σ))
  | [] => some []
  | request :: rest =>
    (runner.outcomeWithin host depth request world).bind fun outcome =>
      (outcomesWithin host depth { runner with context := outcome.context } outcome.world
        rest).map (outcome :: ·)

theorem outcomeWithin_eq (host : Host σ) {runner : Runner σ} (hidle : runner.context.stack = [])
    {depth : Nat} (hdepth : runner.file.distinctNames < depth) (request : Request) (world : σ) :
    runner.outcomeWithin host depth request world
      = some (runner.outcome host request.name request.given world) := by
  rw [outcomeWithin]
  cases hfound : runner.file.resolve (requestedTask request.name) with
  | none => rw [outcome_of_none hfound]
  | some found =>
      rw [outcome_of_some hfound]
      refine (invokeWithin_eq runner.file host runner.externals).1 _ _ _ _ _ ?_ _ ?_
      · rw [hidle]
        exact TaskFile.simple_nil _
      · rw [hidle]
        exact hdepth

theorem outcomesWithin_eq (host : Host σ) {runner : Runner σ} (hidle : runner.context.stack = [])
    {depth : Nat} (hdepth : runner.file.distinctNames < depth) (requests : List Request)
    (world : σ) :
    runner.outcomesWithin host depth world requests
      = some (runner.outcomes host world requests) := by
  induction requests generalizing world with
  | nil => rfl
  | cons request rest ih =>
      rw [outcomesWithin, outcomeWithin_eq host hidle hdepth, Option.bind_some, context_outcome,
        ih, Option.map_some, outcomes_cons]

theorem simple_of_outcome {runner : Runner σ} (hidle : runner.context.stack = []) (host : Host σ)
    (name : String) (given : List String) (world : σ) :
    ∀ event ∈ (runner.outcome host name given world).events,
      runner.file.Simple event.stack := by
  intro event hmem
  obtain ⟨found, _, hevent⟩ := mem_events_outcome hmem
  refine (simple_of_invoke runner.file host runner.externals).1 _ _ _ _ _ ?_ event hevent
  rw [hidle]
  exact TaskFile.simple_nil _

/-- **RUNS END AT A BOUNDED DEPTH**: whatever file a runner has, checked or not, and whatever
    requests are made one after the other while no task is running, the stack is empty again
    after each, and whenever anything happens the names on it are distinct and listed.  No
    request needs invocations nested deeper than one level more than there are distinct
    names: with that bound on the depth, and nothing else to make them end, all requests have
    their outcomes. -/
theorem runs_end_at_bounded_depth (host : Host σ) (runner : Runner σ)
    (hidle : runner.context.stack = []) (requests : List Request) (world : σ) :
    (∀ o ∈ runner.outcomes host world requests, o.context.stack = [] ∧
      ∀ event ∈ o.events, event.stack.Nodup ∧
        ∀ name ∈ event.stack, name ∈ runner.file.qualifiedTasks.map (·.1)) ∧
    runner.outcomesWithin host ((runner.file.qualifiedTasks.map (·.1)).dedup.length + 1) world
        requests
      = some (runner.outcomes host world requests) := by
  refine ⟨?_, outcomesWithin_eq host hidle (Nat.lt_succ_self _) requests world⟩
  intro o ho
  obtain ⟨k, hk⟩ := List.mem_iff_getElem?.mp ho
  obtain ⟨request, later, -, rfl⟩ := exists_getElem_outcomes host runner hk
  refine ⟨by rw [context_outcome, hidle], ?_⟩
  intro event hmem
  have hsimple := simple_of_outcome hidle host request.name request.given later event hmem
  exact ⟨hsimple.nodup, hsimple.listed⟩

/-- A runner of two tasks that wait for each other.  The first is listed twice. -/
def circling : Runner Unit where
  file :=
    { tasks := [
        { name := "a", dependencies := ["b"] },
        { name := "b", dependencies := ["a"] },
        { name := "a" }] }
  context := { workingDir := Path.ofString "/", verbosity := .silent }
  externals := ⟨[]⟩

/-- With two names a third level is needed to find out that `a` is running already, and no more. -/
theorem circling_runs_end :
    circling.context.stack = [] ∧ circling.file.validate = .error (.duplicateTask "a") ∧
      let requests : List Request := [⟨"a", []⟩, ⟨"b", ["x"]⟩]
      circling.outcomesWithin barren 2 () requests = none ∧
      circling.outcomesWithin barren 3 () requests = some (circling.outcomes barren () requests) ∧
      (circling.outcomes barren () requests).map (·.result.isOk) = [false, false] ∧
      ∀ o ∈ circling.outcomes barren () requests, ∀ event ∈ o.events, event.stack.Nodup := by
  have hinvalid : circling.file.validate = .error (.duplicateTask "a") := by cbv
  obtain ⟨hstacks, hends⟩ :=
    runs_end_at_bounded_depth barren circling rfl [⟨"a", []⟩, ⟨"b", ["x"]⟩] ()
  refine ⟨rfl, hinvalid, rfl, hends, by cbv, ?_⟩
  exact fun o ho event hmem => ((hstacks o ho).2 event hmem).1

end Runner

end TaskRunner
