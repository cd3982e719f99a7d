import TaskRunner.Proofs.DependencyGraph
import TaskRunner.Run.Event
import TaskRunner.TaskFile.CallStack

/-! # The schedule of a task

    What a task will do can be read off its file: the steps of each of its dependencies,
    in the order they are listed, and then its own commands, or its one external call.  A
    dependency that means no task is a step of its own.  Nothing is done once and
    remembered: a task that two others wait for is scheduled twice.

    In a file with cycles this would never end, so `scheduleFrom` follows a chain only as
    far as names do not repeat.  In an acyclic file they never do, whatever chain leads to
    a task (`scheduleFrom_congr`), and the schedule satisfies the equation that defines it
    (**`schedule_eq`**). -/

namespace TaskRunner

/-- What a task does after its dependencies, in order. -/
def ResolvedTask.ownSteps (found : ResolvedTask) : List Step :=
  match found.task.dispatch with
  | some _ => [.external found.qualified]
  | none => found.task.commands.map (.command found.qualified)

namespace TaskFile

mutual

/-- The steps of a task that is reached by `chain`, none if it stands on the chain already. -/
def scheduleFrom (file : TaskFile) (chain : List String) (found : ResolvedTask) : List Step :=
  if new : found.qualified ∈ file.names ∧ found.qualified ∉ chain then
    have : file.remaining (chain ++ [found.qualified]) < file.remaining chain :=
      remaining_concat_lt new.1 new.2
    file.scheduleAll (chain ++ [found.qualified]) found found.task.dependencies
      ++ found.ownSteps
  else []
termination_by (file.remaining chain, 0)

/-- The steps of the dependencies of `source`, one after the other. -/
def scheduleAll (file : TaskFile) (chain : List String) (source : ResolvedTask) :
    List String → List Step
  | [] => []
  | dependency :: rest =>
    match file.resolveFrom source dependency with
    | none => .missing source.qualified dependency :: file.scheduleAll chain source rest
    | some target => file.scheduleFrom chain target ++ file.scheduleAll chain source rest
termination_by dependencies => (file.remaining chain, dependencies.length + 1)

end

/-- The steps of a task. -/
def schedule (file : TaskFile) (found : ResolvedTask) : List Step := file.scheduleFrom [] found

/-- The steps of one dependency of the task `source`. -/
def dependencySteps (file : TaskFile) (source : ResolvedTask) (dependency : String) :
    List Step :=
  match file.resolveFrom source dependency with
  | none => [.missing source.qualified dependency]
  | some target => file.schedule target

variable {file : TaskFile}

theorem dependencySteps_of_none {source : ResolvedTask} {dependency : String}
    (h : file.resolveFrom source dependency = none) :
    file.dependencySteps source dependency = [.missing source.qualified dependency] := by
  rw [dependencySteps, h]

theorem dependencySteps_of_some {source target : ResolvedTask} {dependency : String}
    (h : file.resolveFrom source dependency = some target) :
    file.dependencySteps source dependency = file.schedule target := by
  rw [dependencySteps, h]

/-! ## The equation of a schedule -/

/-- A task that no chain passes yet has the steps of its dependencies and its own. -/
theorem scheduleFrom_of_new {chain : List String} {found : ResolvedTask}
    (hlisted : found.qualified ∈ file.names) (hnew : found.qualified ∉ chain) :
    file.scheduleFrom chain found
      = file.scheduleAll (chain ++ [found.qualified]) found found.task.dependencies
        ++ found.ownSteps := by
  rw [scheduleFrom, dif_pos ⟨hlisted, hnew⟩]

/-- In an acyclic file the steps of a task are the same behind all chains that lead to it. -/
theorem scheduleFrom_congr (hacyclic : file.Acyclic) :
    (∀ chain found, file.resolve found.qualified = some found →
      file.LeadTo chain found.qualified → ∀ other, file.LeadTo other found.qualified →
        file.scheduleFrom chain found = file.scheduleFrom other found) ∧
    ∀ chain source dependencies, file.LeadToAll chain source dependencies →
      ∀ other, file.LeadToAll other source dependencies →
        file.scheduleAll chain source dependencies
          = file.scheduleAll other source dependencies := by
  refine scheduleFrom.mutual_induct_unfolding file
    (fun chain found steps => file.resolve found.qualified = some found →
      file.LeadTo chain found.qualified → ∀ other, file.LeadTo other found.qualified →
        steps = file.scheduleFrom other found)
    (fun chain source dependencies steps => file.LeadToAll chain source dependencies →
      ∀ other, file.LeadToAll other source dependencies →
        steps = file.scheduleAll other source dependencies)
    ?new ?repeated ?nil ?missing ?dependency
  case new =>
      intro chain found hnew _ ih hfound hchain other hother
      rw [scheduleFrom_of_new hnew.1 (hother.not_mem hacyclic)]
      rw [ih (hchain.all hfound) _ (hother.all hfound)]
  case repeated =>
      intro chain found hold hfound hchain other hother
      exact absurd ⟨qualified_mem_names hfound, hchain.not_mem hacyclic⟩ hold
  case nil =>
      intro chain source _ other _
      rw [scheduleAll]
  case missing =>
      intro chain source dependency rest hnone ih hchain other hother
      rw [scheduleAll, hnone, ih hchain.tail other hother.tail]
  case dependency =>
      intro chain source dependency rest target htarget ihTarget ihRest hchain other hother
      have hknown := resolve_qualified_of_resolveFrom htarget
      rw [scheduleAll, htarget, ihRest hchain.tail other hother.tail]
      rw [ihTarget hknown (hchain.head htarget) other (hother.head htarget)]

/-- Behind a chain that leads to them, dependencies have the steps they have on their own. -/
theorem scheduleAll_eq (hacyclic : file.Acyclic) {chain dependencies : List String}
    {source : ResolvedTask} (h : file.LeadToAll chain source dependencies) :
    file.scheduleAll chain source dependencies
      = dependencies.flatMap (file.dependencySteps source) := by
  induction dependencies with
  | nil => rw [scheduleAll, List.flatMap_nil]
  | cons dependency rest ih =>
      rw [scheduleAll, List.flatMap_cons, ih h.tail]
      cases htarget : file.resolveFrom source dependency with
      | none => rw [dependencySteps_of_none htarget, List.singleton_append]
      | some target =>
          have hsteps := (scheduleFrom_congr hacyclic).1 chain target
            (resolve_qualified_of_resolveFrom htarget) (h.head htarget) [] (leadTo_nil file _)
          rw [dependencySteps_of_some htarget, schedule, ← hsteps]

/-- **THE EQUATION OF A SCHEDULE**: in an acyclic file the steps of a task are those of its
    dependencies, in the order they are listed, followed by its own. -/
theorem schedule_eq (hacyclic : file.Acyclic) {found : ResolvedTask}
    (hfound : file.resolve found.qualified = some found) :
    file.schedule found
      = found.task.dependencies.flatMap (file.dependencySteps found) ++ found.ownSteps := by
  rw [schedule, scheduleFrom_of_new (qualified_mem_names hfound) List.not_mem_nil]
  rw [scheduleAll_eq hacyclic ((leadTo_nil file found.qualified).all hfound)]

end TaskFile

end TaskRunner
