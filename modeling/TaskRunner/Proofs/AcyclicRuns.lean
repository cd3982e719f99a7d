import TaskRunner.Proofs.CycleSearch
import TaskRunner.Proofs.OwnWork
import TaskRunner.Proofs.Restoration

/-! # A file that passes the check never runs in a circle

    The check walks names and looks each one up again; a run walks the tasks that it has
    found, with the names of the running ones on a stack.  Both follow the same graph:
    whatever a dependency means is found again under the name it is known by, so a step
    of a run is a step of `TaskFile.DependsOn`.

    The invariant is that every running task leads to the task that is invoked next
    (`TaskFile.LeadTo`).  Were that task running, it would lead to itself; in an acyclic
    file no name does.  `acyclic_induction` is the induction over invocations with this
    invariant built in.  By it **`validated_runs_never_circular`**: in a file that passes
    the check no request, after whatever other requests, ends in a circular
    dependency. -/

namespace TaskRunner

variable {σ : Type}

/-- The error is that of a circular dependency, whatever tasks failed because of it. -/
def ExecutionError.IsCircular (e : ExecutionError) : Prop :=
  ∃ chain, e.root = .circularDependency chain

/-- No callable among the externals says that a dependency is circular. -/
def Externals.NeverCircular (externals : Externals σ) : Prop :=
  ∀ name run, externals.get? name = some (.callable run) →
    ∀ given ctx world e, (run given ctx world).1 = .error e → ¬ e.IsCircular

/-- What a task does itself is never circular. -/
theorem OwnError.not_isCircular {externals : Externals σ} {ctx : Context} {found : ResolvedTask}
    {given : List String} {e : ExecutionError} (h : OwnError externals ctx found given e)
    (hcallables : externals.NeverCircular) : ¬ e.IsCircular := by
  cases h with
  | command command code own mem strict =>
      rintro ⟨chain, hroot⟩
      cases hroot
  | unavailable dispatch others nobody =>
      rintro ⟨chain, hroot⟩
      cases hroot
  | program name leading message dispatch others handler =>
      rintro ⟨chain, hroot⟩
      cases hroot
  | callable run world e dispatch others handler refusal =>
      exact hcallables found.qualified run handler given ctx world e refusal

section

variable (file : TaskFile) (host : Host σ) (externals : Externals σ)

/-- **INDUCTION IN AN ACYCLIC FILE**: where every running task leads to the one that is invoked,
    no task is found running, and the tasks that are entered are those that their names
    mean.  The rules are those of `invocation_induction` without the first. -/
theorem acyclic_induction (hacyclic : file.Acyclic)
    (P : ResolvedTask → Outcome σ → Prop)
    (Q : ResolvedTask → List String → Outcome σ → Prop)
    (entered : ∀ ctx found given world dependencies,
      file.resolve found.qualified = some found →
      Q found found.task.dependencies dependencies →
      P found (.ofTask host externals ctx found given
        (bindFrame host ctx found given world) dependencies))
    (nil : ∀ ctx source world, Q source [] (Outcome.done ctx world))
    (missing : ∀ ctx source dependency rest world,
      file.resolveFrom source dependency = none →
      Q source (dependency :: rest)
        ((Outcome.fail
          (.dependencyFailed source.qualified dependency (.taskNotFound dependency))
          ctx world).ofStep ctx (.missing source.qualified dependency)))
    (failed : ∀ source dependency rest target first e,
      file.resolveFrom source dependency = some target → first.result = .error e →
      P target first →
      Q source (dependency :: rest)
        (first.mapError (.dependencyFailed source.qualified dependency)))
    (next : ∀ source dependency rest target first others,
      file.resolveFrom source dependency = some target → first.result = .ok () →
      P target first → Q source rest others →
      Q source (dependency :: rest) (others.after first.events)) :
    ∀ ctx found listed given world, file.resolve found.qualified = some found →
      file.LeadTo ctx.stack found.qualified →
        P found (invoke file host externals ctx found listed given world) := by
  refine (invocation_induction file host externals
    (fun ctx found _ _ o => file.resolve found.qualified = some found →
      file.LeadTo ctx.stack found.qualified → P found o)
    (fun ctx source dependencies _ o => file.LeadToAll ctx.stack source dependencies →
      Q source dependencies o)
    ?running ?entered ?nil ?missing ?failed ?next).1
  case running =>
      intro ctx found given world hrunning _ hstack
      exact absurd hrunning (hstack.not_mem hacyclic)
  case entered =>
      intro ctx found given world dependencies _ _ ih hfound hstack
      exact entered ctx found given world dependencies hfound (ih (hstack.all hfound))
  case nil => exact fun ctx source world _ => nil ctx source world
  case missing =>
      intro ctx source dependency rest world hnone _
      exact missing ctx source dependency rest world hnone
  case failed =>
      intro ctx source dependency rest world target first e htarget he ih hstack
      have hknown := TaskFile.resolve_qualified_of_resolveFrom htarget
      exact failed source dependency rest target first e htarget he
        (ih hknown (hstack.head htarget))
  case next =>
      intro ctx source dependency rest world target first others htarget hok ihFirst ihRest
        hstack
      have hknown := TaskFile.resolve_qualified_of_resolveFrom htarget
      exact next source dependency rest target first others htarget hok
        (ihFirst hknown (hstack.head htarget)) (ihRest hstack.tail)

/-- In an acyclic file no invocation is circular. -/
theorem not_isCircular_of_invoke (hacyclic : file.Acyclic)
    (hcallables : externals.NeverCircular) :
    ∀ ctx found listed given world, file.resolve found.qualified = some found →
      file.LeadTo ctx.stack found.qualified →
      ∀ e, (invoke file host externals ctx found listed given world).result = .error e →
        ¬ e.IsCircular := by
  refine acyclic_induction file host externals hacyclic
    (fun _ o => ∀ e, o.result = .error e → ¬ e.IsCircular)
    (fun _ _ o => ∀ e, o.result = .error e → ¬ e.IsCircular)
    ?entered ?nil ?missing ?failed ?next
  case entered =>
      intro ctx found given world dependencies _ ih e he
      rcases Outcome.error_of_ofTask he with hdependencies | hown
      · exact ih e hdependencies
      · exact hown.not_isCircular hcallables
  case nil =>
      intro _ _ _ _ h
      cases h
  case missing =>
      intro ctx source dependency rest world _ e he
      obtain rfl := Except.error.inj he
      rintro ⟨chain, hroot⟩
      cases hroot
  case failed =>
      intro source dependency rest target first e _ hfirst ih e' he'
      rw [Outcome.result_mapError, hfirst] at he'
      obtain rfl := Except.error.inj he'
      exact ih e hfirst
  case next => exact fun _ _ _ _ _ _ _ _ _ ih => ih

end

namespace Runner

/-- A request that no task waits for is not circular in an acyclic file. -/
theorem not_isCircular_of_outcome {runner : Runner σ} (hacyclic : runner.file.Acyclic)
    (hidle : runner.context.stack = []) (hcallables : runner.externals.NeverCircular)
    {host : Host σ} {name : String} {given : List String} {world : σ} {e : ExecutionError}
    (h : (runner.outcome host name given world).result = .error e) : ¬ e.IsCircular := by
  cases hfound : runner.file.resolve (requestedTask name) with
  | none =>
      rw [outcome_of_none hfound] at h
      obtain rfl := Except.error.inj h
      rintro ⟨chain, hroot⟩
      cases hroot
  | some found =>
      rw [outcome_of_some hfound] at h
      refine not_isCircular_of_invoke runner.file host runner.externals hacyclic hcallables
        runner.context found _ given world (TaskFile.resolve_qualified hfound) ?_ e h
      rw [hidle]
      exact TaskFile.leadTo_nil _ _

/-- **NO RUN IN A CIRCLE**: when a file has passed the check, no request on an idle runner
    ends in a circular dependency, whatever the started programs do, whichever task with
    whichever arguments is requested, and whatever was requested before. -/
theorem validated_runs_never_circular (host : Host σ) (runner : Runner σ)
    (hvalid : runner.file.validate = .ok ()) (hidle : runner.context.stack = [])
    (hcallables : runner.externals.NeverCircular) (requests : List Request) (world : σ) :
    ∀ o ∈ runner.outcomes host world requests, ∀ e, o.result = .error e →
      ∀ chain, e.root ≠ .circularDependency chain := by
  intro o ho e he chain hroot
  obtain ⟨k, hk⟩ := List.mem_iff_getElem?.mp ho
  obtain ⟨request, later, -, rfl⟩ := exists_getElem_outcomes host runner hk
  exact not_isCircular_of_outcome (TaskFile.acyclic_of_validate hvalid) hidle hcallables he
    ⟨chain, hroot⟩

/-- A host on which no program starts. -/
def barren : Host Unit where
  start _ world := (.error .notExecutable, world)

/-- A runner of three tasks.  Two wait for the third, which a callable refuses to run. -/
def refusing : Runner Unit where
  file :=
    { tasks := [
        { name := "all", dependencies := ["lib", "gen"] },
        { name := "lib", dependencies := ["gen"], commands := [⟨[.text "make"], false, false⟩] },
        { name := "gen", dispatch := some ⟨"", none⟩ }] }
  context := { workingDir := Path.ofString "/" }
  externals := ⟨[("gen", .callable fun _ _ _ => (.error (.external "gen" "refused"), ()))]⟩

theorem neverCircular_refusing : refusing.externals.NeverCircular := by
  intro name run hget given ctx world e he
  obtain ⟨entry, hentry, hhandler⟩ := Option.map_eq_some_iff.mp hget
  obtain rfl := List.mem_singleton.mp (List.mem_reverse.mp (List.mem_of_find?_eq_some hentry))
  obtain rfl := Handler.callable.inj hhandler
  obtain rfl := Except.error.inj he
  rintro ⟨chain, hroot⟩
  cases hroot

/-- Requests that fail, one after the other, on a runner of three tasks. -/
theorem refusing_never_circular :
    refusing.file.validate = .ok () ∧ refusing.context.stack = [] ∧
      refusing.externals.NeverCircular ∧
      (refusing.outcomes barren () [⟨"all", []⟩, ⟨"lib", ["x"]⟩]).map (·.result.isOk)
        = [false, false] ∧
      ∀ o ∈ refusing.outcomes barren () [⟨"all", []⟩, ⟨"lib", ["x"]⟩], ∀ e,
        o.result = .error e → ∀ chain, e.root ≠ .circularDependency chain := by
  have hvalid : refusing.file.validate = .ok () := by cbv
  refine ⟨hvalid, rfl, neverCircular_refusing, by cbv, ?_⟩
  exact validated_runs_never_circular barren refusing hvalid rfl neverCircular_refusing _ ()

end Runner

end TaskRunner
