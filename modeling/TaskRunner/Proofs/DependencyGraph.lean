import Mathlib.Logic.Relation
import TaskRunner.TaskFile.Resolution

/-! # The graph of dependencies

    A name leads to the names of the tasks that the dependencies of its task mean:
    that is the one relation (`TaskFile.DependsOn`) behind every search and every run.
    A file is **`Acyclic`** when no name leads back to itself.

    The route to acyclicity is by names that are **`Clear`**, from which no cycle can be
    reached.  A name is clear as soon as all names it leads to are
    (`clear_of_next`), and a cycle only ever passes listed names, so a file is acyclic
    once its listed names are clear (`acyclic_of_clear_names`).

    What acyclicity is used for is that a chain of names that **`LeadTo`** a task, each in
    one step or in many, does not hold the task itself (`LeadTo.not_mem`). -/

namespace TaskRunner

open Relation

namespace TaskFile

variable {file : TaskFile}

/-- The task that `name` means has a dependency that means the task known as `next`. -/
def DependsOn (file : TaskFile) (name next : String) : Prop :=
  ∃ source, file.resolve name = some source ∧
    ∃ dependency ∈ source.task.dependencies, ∃ target,
      file.resolveFrom source dependency = some target ∧ target.qualified = next

/-- No name leads back to itself, in one step or in many. -/
def Acyclic (file : TaskFile) : Prop := ∀ name, ¬ TransGen file.DependsOn name name

/-- No cycle can be reached from a name. -/
def Clear (file : TaskFile) (name : String) : Prop :=
  ∀ reached, ReflTransGen file.DependsOn name reached →
    ¬ TransGen file.DependsOn reached reached

/-- A step from a task that its own name means. -/
theorem dependsOn_of_resolveFrom {source target : ResolvedTask} {dependency : String}
    (hsource : file.resolve source.qualified = some source)
    (hmem : dependency ∈ source.task.dependencies)
    (htarget : file.resolveFrom source dependency = some target) :
    file.DependsOn source.qualified target.qualified :=
  ⟨source, hsource, dependency, hmem, target, htarget, rfl⟩

/-- Every step ends at a listed name. -/
theorem DependsOn.mem_names {name next : String} (h : file.DependsOn name next) :
    next ∈ file.names := by
  obtain ⟨source, -, dependency, -, target, htarget, rfl⟩ := h
  exact qualified_mem_names_of_resolveFrom htarget

/-- A name is clear if all names it leads to are. -/
theorem clear_of_next {name : String}
    (h : ∀ next, file.DependsOn name next → file.Clear next) : file.Clear name := by
  intro reached hreach hcycle
  rcases ReflTransGen.cases_head hreach with rfl | ⟨next, hstep, hrest⟩
  · -- a cycle through the name itself passes its first successor
    obtain ⟨next, hstep, hback⟩ := TransGen.head'_iff.mp hcycle
    exact h next hstep next .refl (TransGen.tail' hback hstep)
  · exact h next hstep reached hrest hcycle

/-- A name that means no task is clear. -/
theorem clear_of_resolve_none {name : String} (h : file.resolve name = none) :
    file.Clear name := by
  refine clear_of_next ?_
  rintro next ⟨source, hsource, -⟩
  exact absurd (h.symm.trans hsource) (by simp)

/-- Listed names are enough: a cycle passes no others. -/
theorem acyclic_of_clear_names (h : ∀ name ∈ file.names, file.Clear name) : file.Acyclic := by
  intro name hcycle
  obtain ⟨before, -, hstep⟩ := TransGen.tail'_iff.mp hcycle
  exact h name hstep.mem_names name .refl hcycle

/-! ## Chains that lead to a task -/

/-- Every name on a chain leads to `name`, in one step or in many. -/
def LeadTo (file : TaskFile) (chain : List String) (name : String) : Prop :=
  ∀ earlier ∈ chain, TransGen file.DependsOn earlier name

theorem leadTo_nil (file : TaskFile) (name : String) : file.LeadTo [] name :=
  fun _ hmem => absurd hmem List.not_mem_nil

/-- In an acyclic file a chain does not lead to a name that stands on it. -/
theorem LeadTo.not_mem {chain : List String} {name : String} (h : file.LeadTo chain name)
    (hacyclic : file.Acyclic) : name ∉ chain :=
  fun hmem => hacyclic name (h name hmem)

/-- A chain that leads to a task leads, with the task, to its dependencies. -/
theorem LeadTo.concat {chain : List String} {source target : ResolvedTask}
    {dependency : String} (h : file.LeadTo chain source.qualified)
    (hsource : file.resolve source.qualified = some source)
    (hmem : dependency ∈ source.task.dependencies)
    (htarget : file.resolveFrom source dependency = some target) :
    file.LeadTo (chain ++ [source.qualified]) target.qualified := by
  have hstep := dependsOn_of_resolveFrom hsource hmem htarget
  intro earlier hearlier
  rcases List.mem_append.mp hearlier with hchain | hlast
  · exact (h earlier hchain).tail hstep
  · rw [List.mem_singleton.mp hlast]
    exact .single hstep

/-- A chain may be followed to every dependency of `source` among the given ones. -/
def LeadToAll (file : TaskFile) (chain : List String) (source : ResolvedTask)
    (dependencies : List String) : Prop :=
  ∀ dependency ∈ dependencies, ∀ target,
    file.resolveFrom source dependency = some target → file.LeadTo chain target.qualified

theorem LeadToAll.head {chain rest : List String} {source target : ResolvedTask}
    {dependency : String} (h : file.LeadToAll chain source (dependency :: rest))
    (htarget : file.resolveFrom source dependency = some target) :
    file.LeadTo chain target.qualified :=
  h dependency List.mem_cons_self target htarget

theorem LeadToAll.tail {chain rest : List String} {source : ResolvedTask} {dependency : String}
    (h : file.LeadToAll chain source (dependency :: rest)) : file.LeadToAll chain source rest :=
  fun other hmem => h other (List.mem_cons_of_mem _ hmem)

theorem LeadTo.all {chain : List String} {source : ResolvedTask}
    (h : file.LeadTo chain source.qualified)
    (hsource : file.resolve source.qualified = some source) :
    file.LeadToAll (chain ++ [source.qualified]) source source.task.dependencies :=
  fun _ hmem _ htarget => h.concat hsource hmem htarget

end TaskFile

end TaskRunner
