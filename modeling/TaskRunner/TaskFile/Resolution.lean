import TaskRunner.TaskFile.Basic

/-!
# Finding the task that a name means

A name means a top-level task of that very name, if there is one. Else it is cut at
its colons: a name whose first segment is the file's own namespace means the
top-level task called like the other segments, and otherwise the segments lead from
namespace to namespace to a task. `TaskFile.resolve` finds the task, the name it is
known by and the namespaces around it. `TaskFile.resolveFrom` looks a dependency up
from inside a task: in the task's own namespace first, then as it is written.

What is found is listed: its name and task are an entry of the qualified tasks
(`mem_qualifiedTasks_of_resolve`). So however long a chain of tasks gets, its names
come from a finite list. And what is found is found again under the name it is known
by (`resolve_qualified`), whatever alias led to it.
-/

namespace TaskRunner

/-- A task that was found under a name: the name it is known by, the task, and the namespaces
around it, outermost first. -/
structure ResolvedTask where
  qualified : String
  task : Task
  scopes : List Namespace
deriving Repr, Inhabited

-- ── Names and their segments ─────────────────────────────────────────────────

/-- What stands between the colons of a name. -/
def segments (name : String) : List String := (name.toList.splitOn ':').map String.ofList

/-- The name with the given segments. -/
def joinSegments (segments : List String) : String :=
  String.ofList ([':'].intercalate (segments.map String.toList))

/-- A name is its segments with colons between them. -/
theorem joinSegments_segments (name : String) : joinSegments (segments name) = name := by
  have h : (String.toList ∘ String.ofList) = id := by funext s; exact String.toList_ofList
  simp [joinSegments, segments, List.map_map, h, List.intercalate_splitOn]

theorem segments_ne_nil (name : String) : segments name ≠ [] := by
  simp [segments, List.splitOn, List.splitOnP_ne_nil]

/-- A path with one more segment is the path qualified by that segment. -/
theorem joinSegments_concat {path : List String} (hpath : path ≠ []) (name : String) :
    joinSegments (path ++ [name]) = qualify (joinSegments path) name := by
  apply String.toList_injective
  induction path with
  | nil => exact absurd rfl hpath
  | cons first rest ih =>
    cases rest with
    | nil => simp [joinSegments, qualify, List.intercalate]
    | cons second rest =>
      have := ih (by simp)
      simp [joinSegments, qualify, List.intercalate] at this ⊢
      exact this

-- ── Walking the namespaces ───────────────────────────────────────────────────

/-- The first namespace of the given name. -/
def findNamespace? (namespaces : List Namespace) (name : String) : Option Namespace :=
  namespaces.find? fun ns => ns.name == name

/-- The first task of the given name. -/
def findTask? (tasks : List Task) (name : String) : Option Task :=
  tasks.find? fun task => task.name == name

/-- The namespaces that the segments of a path lead through, outermost first. -/
def walk (namespaces : List Namespace) : List String → Option (List Namespace)
  | [] => some []
  | name :: path =>
    match findNamespace? namespaces name with
    | none => none
    | some ns => (walk ns.namespaces path).map (ns :: ·)

namespace TaskFile

/-- The task that the segments of a name lead to, through the namespaces of all but the last. -/
def resolvePath (file : TaskFile) (name : String) : Option ResolvedTask :=
  let path := (segments name).dropLast
  match walk file.namespaces path with
  | none => none
  | some scopes =>
    match scopes.getLast?, (segments name).getLast? with
    | some ns, some last =>
      (findTask? ns.tasks last).map fun task => ⟨name, task, scopes⟩
    | _, _ => none

/-- The top-level task that a name means when its first segment is the file's own namespace. -/
def resolveAlias (file : TaskFile) (name : String) : Option ResolvedTask :=
  match segments name with
  | head :: first :: rest =>
    if file.fileNamespace = some head then
      (findTask? file.tasks (joinSegments (first :: rest))).map fun task =>
        ⟨joinSegments (first :: rest), task, []⟩
    else none
  | _ => none

/-- The task that a name means. -/
def resolve (file : TaskFile) (name : String) : Option ResolvedTask :=
  match findTask? file.tasks name with
  | some task => some ⟨name, task, []⟩
  | none =>
    match file.resolveAlias name with
    | some found => some found
    | none => file.resolvePath name

end TaskFile

/-- The namespace a task was declared in: the segments before its own name, or for a top-level task
the namespace of the fragment it came with. It is empty for a task of the file itself. -/
def ResolvedTask.scopePath (found : ResolvedTask) : String :=
  if found.scopes.isEmpty then found.task.home.getD ""
  else joinSegments (segments found.qualified).dropLast

/-- The task that a dependency means which is named inside the task `source`. -/
def TaskFile.resolveFrom (file : TaskFile) (source : ResolvedTask) (name : String) :
    Option ResolvedTask :=
  if source.scopePath = "" then file.resolve name
  else
    match file.resolve (qualify source.scopePath name) with
    | some found => some found
    | none => file.resolve name

-- ── What is found is listed ──────────────────────────────────────────────────

theorem mem_of_findTask {tasks : List Task} {name : String} {task : Task}
    (h : findTask? tasks name = some task) : task ∈ tasks ∧ task.name = name :=
  ⟨List.mem_of_find?_eq_some h, by simpa using List.find?_some h⟩

theorem mem_of_findNamespace {namespaces : List Namespace} {name : String} {ns : Namespace}
    (h : findNamespace? namespaces name = some ns) : ns ∈ namespaces ∧ ns.name = name :=
  ⟨List.mem_of_find?_eq_some h, by simpa using List.find?_some h⟩

theorem mem_qualifiedTasksIn {path : String} {namespaces : List Namespace} {ns : Namespace}
    (h : ns ∈ namespaces) {entry : String × Task}
    (hentry : entry ∈ ns.qualifiedTasks (qualify path ns.name)) :
    entry ∈ qualifiedTasksIn path namespaces := by
  induction namespaces with
  | nil => exact absurd h List.not_mem_nil
  | cons first rest ih =>
    rw [qualifiedTasksIn, List.mem_append]
    rcases List.mem_cons.1 h with rfl | h
    · exact Or.inl hentry
    · exact Or.inr (ih h)

/-- A task of the last namespace of a walk is listed under the names of the walk and its own. -/
theorem mem_qualifiedTasks_of_walk {path : List String} {scopes : List Namespace}
    {outer : Namespace} (front : List String) (hfront : front ≠ [])
    (h : walk outer.namespaces path = some scopes)
    (task : Task) (htask : task ∈ ((outer :: scopes).getLast (by simp)).tasks) :
    (joinSegments (front ++ path ++ [task.name]), task)
      ∈ outer.qualifiedTasks (joinSegments front) := by
  induction path generalizing outer front scopes with
  | nil =>
    simp only [walk, Option.some.injEq] at h
    subst h
    obtain ⟨name, tasks, vars, namespaces⟩ := outer
    simp only [List.getLast_singleton] at htask
    rw [Namespace.qualifiedTasks, List.append_nil, joinSegments_concat hfront]
    exact List.mem_append_left _ (List.mem_map.2 ⟨task, htask, rfl⟩)
  | cons name path ih =>
    simp only [walk] at h
    split at h
    · exact absurd h (by simp)
    · rename_i ns hns
      obtain ⟨inner, hinner, rfl⟩ := Option.map_eq_some_iff.1 h
      obtain ⟨hmem, hname⟩ := mem_of_findNamespace hns
      have hin := ih (front ++ [name]) (by simp) hinner (by simpa using htask)
      rw [joinSegments_concat hfront] at hin
      obtain ⟨outerName, tasks, vars, namespaces⟩ := outer
      rw [Namespace.qualifiedTasks]
      refine List.mem_append_right _ (mem_qualifiedTasksIn hmem ?_)
      rw [hname]
      simpa using hin

namespace TaskFile

theorem mem_qualifiedTasks_of_task {file : TaskFile} {task : Task} (h : task ∈ file.tasks) :
    (task.name, task) ∈ file.qualifiedTasks :=
  List.mem_append_left _ (List.mem_map.2 ⟨task, h, rfl⟩)

/-- A task of the last namespace of a walk from the top is listed under the names of the walk and its
own. -/
theorem mem_qualifiedTasks_of_walkTop {file : TaskFile} {path : List String}
    {scopes : List Namespace} {ns : Namespace} {task : Task}
    (h : walk file.namespaces path = some scopes) (hlast : scopes.getLast? = some ns)
    (htask : task ∈ ns.tasks) :
    (joinSegments (path ++ [task.name]), task) ∈ file.qualifiedTasks := by
  cases path with
  | nil =>
    obtain rfl := Option.some.inj h
    exact absurd hlast (by simp)
  | cons first path =>
    rw [walk] at h
    split at h
    · exact absurd h (by simp)
    · rename_i outer houter
      obtain ⟨inner, hinner, rfl⟩ := Option.map_eq_some_iff.1 h
      obtain ⟨houterMem, rfl⟩ := mem_of_findNamespace houter
      rw [List.getLast?_eq_some_getLast (by simp), Option.some.injEq] at hlast
      have hlisted := mem_qualifiedTasks_of_walk [outer.name] (by simp) hinner task
        (hlast ▸ htask)
      have hone : joinSegments [outer.name] = outer.name := by
        simp [joinSegments, List.intercalate]
      rw [hone] at hlisted
      exact List.mem_append_right _ (List.mem_flatMap.2 ⟨outer, houterMem, hlisted⟩)

/-- A path that means a task leads to its namespaces, and its last segment to the task. -/
theorem walk_of_resolvePath {file : TaskFile} {name : String} {found : ResolvedTask}
    (h : file.resolvePath name = some found) :
    ∃ ns last, walk file.namespaces (segments name).dropLast = some found.scopes ∧
      found.scopes.getLast? = some ns ∧ (segments name).getLast? = some last ∧
      findTask? ns.tasks last = some found.task ∧ found.qualified = name := by
  rw [resolvePath] at h
  split at h
  · exact absurd h (by simp)
  · rename_i scopes hwalk
    split at h
    · rename_i ns last hns hlast
      obtain ⟨task, htask, rfl⟩ := Option.map_eq_some_iff.1 h
      exact ⟨ns, last, hwalk, hns, hlast, htask, rfl⟩
    · exact absurd h (by simp)

theorem mem_qualifiedTasks_of_resolvePath {file : TaskFile} {name : String} {found : ResolvedTask}
    (h : file.resolvePath name = some found) :
    (found.qualified, found.task) ∈ file.qualifiedTasks := by
  obtain ⟨ns, last, hwalk, hns, hlast, htask, hname⟩ := walk_of_resolvePath h
  obtain ⟨hmem, rfl⟩ := mem_of_findTask htask
  obtain ⟨front, hfront⟩ := List.getLast?_eq_some_iff.1 hlast
  have hlisted := mem_qualifiedTasks_of_walkTop hwalk hns hmem
  rw [hfront, List.dropLast_concat, ← hfront, joinSegments_segments] at hlisted
  rwa [hname]

/-- An alias means a top-level task, under that task's own name. -/
theorem findTask_of_resolveAlias {file : TaskFile} {name : String} {found : ResolvedTask}
    (h : file.resolveAlias name = some found) :
    ∃ own task, findTask? file.tasks own = some task ∧ found = ⟨own, task, []⟩ := by
  rw [resolveAlias] at h
  split at h
  · split at h
    · obtain ⟨task, htask, rfl⟩ := Option.map_eq_some_iff.1 h
      exact ⟨_, task, htask, rfl⟩
    · exact absurd h (by simp)
  · exact absurd h (by simp)

/-- A name means a top-level task, that of its own name or that of an alias, or else it is a path. -/
theorem findTask_or_resolvePath {file : TaskFile} {name : String} {found : ResolvedTask}
    (h : file.resolve name = some found) :
    (∃ own task, findTask? file.tasks own = some task ∧ found = ⟨own, task, []⟩) ∨
      file.resolvePath name = some found := by
  rw [resolve] at h
  split at h
  · rename_i task htask
    exact Or.inl ⟨name, task, htask, (Option.some.inj h).symm⟩
  · split at h
    · rename_i top halias
      obtain rfl := Option.some.inj h
      exact Or.inl (findTask_of_resolveAlias halias)
    · exact Or.inr h

/-- What a name means is an entry of the qualified tasks. -/
theorem mem_qualifiedTasks_of_resolve {file : TaskFile} {name : String} {found : ResolvedTask}
    (h : file.resolve name = some found) :
    (found.qualified, found.task) ∈ file.qualifiedTasks := by
  rcases findTask_or_resolvePath h with ⟨own, task, htask, rfl⟩ | hpath
  · obtain ⟨hmem, rfl⟩ := mem_of_findTask htask
    exact mem_qualifiedTasks_of_task hmem
  · exact mem_qualifiedTasks_of_resolvePath hpath

/-- The name that a task is known by is listed. -/
theorem qualified_mem_names {file : TaskFile} {name : String} {found : ResolvedTask}
    (h : file.resolve name = some found) : found.qualified ∈ file.names :=
  List.mem_map.2 ⟨_, mem_qualifiedTasks_of_resolve h, rfl⟩

-- ── What is found is found again ─────────────────────────────────────────────

/-- A top-level task is what its own name means. -/
theorem resolve_of_findTask {file : TaskFile} {name : String} {task : Task}
    (h : findTask? file.tasks name = some task) : file.resolve name = some ⟨name, task, []⟩ := by
  simp [resolve, h]

/-- The name that a task is known by means that task. -/
theorem resolve_qualified {file : TaskFile} {name : String} {found : ResolvedTask}
    (h : file.resolve name = some found) : file.resolve found.qualified = some found := by
  rcases findTask_or_resolvePath h with ⟨own, task, htask, rfl⟩ | hpath
  · exact resolve_of_findTask htask
  · obtain ⟨-, -, -, -, -, -, hname⟩ := walk_of_resolvePath hpath
    rwa [hname]

/-- What a dependency means is what some name means. -/
theorem exists_resolve_of_resolveFrom {file : TaskFile} {source found : ResolvedTask}
    {name : String} (h : file.resolveFrom source name = some found) :
    ∃ full, file.resolve full = some found := by
  rw [resolveFrom] at h
  split at h
  · exact ⟨name, h⟩
  · split at h
    · rename_i inside hinside
      obtain rfl := Option.some.inj h
      exact ⟨_, hinside⟩
    · exact ⟨name, h⟩

theorem qualified_mem_names_of_resolveFrom {file : TaskFile} {source found : ResolvedTask}
    {name : String} (h : file.resolveFrom source name = some found) :
    found.qualified ∈ file.names := by
  obtain ⟨full, hfull⟩ := exists_resolve_of_resolveFrom h
  exact qualified_mem_names hfull

theorem resolve_qualified_of_resolveFrom {file : TaskFile} {source found : ResolvedTask}
    {name : String} (h : file.resolveFrom source name = some found) :
    file.resolve found.qualified = some found := by
  obtain ⟨full, hfull⟩ := exists_resolve_of_resolveFrom h
  exact resolve_qualified hfull

end TaskFile

end TaskRunner
