import TaskRunner.Rehearsal
import TaskRunner.Run.Runner

/-! # Names are canonical

    Three rules lead from a name to a task: the name itself, the alias by the file's own
    namespace, and the walk through the namespaces.  Whichever applies, the name that the
    task is then known by is listed with it (`mem_qualifiedTasks_of_resolve`), leads to the
    very same task in the same namespaces again (`resolve_qualified`), and is put together
    from the names of these namespaces and its own (`scopePath_of_resolve`,
    `qualified_of_resolve`).

    A dependency means what some name means, so all this holds of dependencies too, and a
    request cannot tell a task's aliases from the name it is known by
    (**`resolution_is_canonical`**). -/

namespace TaskRunner

theorem joinSegments_eq_intercalate (path : List String) :
    joinSegments path = ":".intercalate path := by
  apply String.toList_injective
  rw [joinSegments, String.toList_ofList, String.toList_intercalate]
  rfl

/-- A walk along a path passes namespaces with the names of the path. -/
theorem names_of_walk {namespaces scopes : List Namespace} {path : List String}
    (h : walk namespaces path = some scopes) : scopes.map (·.name) = path := by
  induction path generalizing namespaces scopes with
  | nil =>
      rw [← Option.some.inj h]
      rfl
  | cons name path ih =>
      rw [walk] at h
      split at h
      · cases h
      · rename_i ns hns
        obtain ⟨inner, hinner, rfl⟩ := Option.map_eq_some_iff.mp h
        rw [List.map_cons, ih hinner, (mem_of_findNamespace hns).2]

namespace TaskFile

variable {file : TaskFile} {name : String} {found : ResolvedTask}

/-- A task that was found inside namespaces was found by the walk. -/
theorem resolvePath_of_scopes (h : file.resolve name = some found) (hscopes : found.scopes ≠ []) :
    file.resolvePath name = some found := by
  rcases findTask_or_resolvePath h with ⟨own, task, -, rfl⟩ | hpath
  · exact absurd rfl hscopes
  · exact hpath

/-- The path of a task inside namespaces consists of their names. -/
theorem scopePath_of_resolve (h : file.resolve name = some found) (hscopes : found.scopes ≠ []) :
    found.scopePath = joinSegments (found.scopes.map (·.name)) := by
  obtain ⟨ns, last, hwalk, -, -, -, hname⟩ := walk_of_resolvePath (resolvePath_of_scopes h hscopes)
  have hempty : ¬ found.scopes.isEmpty = true := fun hnil => hscopes (List.isEmpty_iff.mp hnil)
  rw [ResolvedTask.scopePath, if_neg hempty, hname, names_of_walk hwalk]

/-- A task inside namespaces is known by its path and its own name. -/
theorem qualified_of_resolve (h : file.resolve name = some found) (hscopes : found.scopes ≠ []) :
    found.qualified = qualify found.scopePath found.task.name := by
  obtain ⟨ns, last, hwalk, -, hlast, htask, hname⟩ :=
    walk_of_resolvePath (resolvePath_of_scopes h hscopes)
  obtain ⟨front, hfront⟩ := List.getLast?_eq_some_iff.mp hlast
  have hpath : found.scopes.map (·.name) = front := by
    rw [names_of_walk hwalk, hfront, List.dropLast_concat]
  have hnonempty : front ≠ [] := by
    rw [← hpath]
    exact fun hnil => hscopes (List.map_eq_nil_iff.mp hnil)
  calc found.qualified = joinSegments (front ++ [last]) := by
        rw [hname, ← hfront, joinSegments_segments]
    _ = qualify (joinSegments front) last := joinSegments_concat hnonempty last
    _ = qualify found.scopePath found.task.name := by
        rw [scopePath_of_resolve h hscopes, hpath, (mem_of_findTask htask).2]

end TaskFile

namespace Runner

variable {σ : Type}

/-- Requests that mean the same task are one. -/
theorem run_congr {runner : Runner σ} {name other : String} {found : ResolvedTask}
    (h : runner.file.resolve (requestedTask name) = some found)
    (hother : runner.file.resolve (requestedTask other) = some found) (host : Host σ)
    (given : List String) (world : σ) :
    runner.run host other given world = runner.run host name given world := by
  rw [run, run, outcome_of_some h, outcome_of_some hother]

/-- **RESOLUTION IS CANONICAL**: what a name means, or a dependency, is listed under the name it
    is known by; that name means the same task, known by the same name and in the same
    namespaces; and if there are namespaces around it, its path is their names with colons
    between them, and the name it is known by its path, a colon and its own name.  A
    request by any name that means a task is the same as a request for the name that the
    task is known by, unless that is empty, which asks for the default task. -/
theorem resolution_is_canonical (host : Host σ) (runner : Runner σ) :
    (∀ found,
      ((∃ name, runner.file.resolve name = some found) ∨
        ∃ source name, runner.file.resolveFrom source name = some found) →
      (found.qualified, found.task) ∈ runner.file.qualifiedTasks ∧
      runner.file.resolve found.qualified = some found ∧
      (found.scopes ≠ [] →
        found.scopePath = ":".intercalate (found.scopes.map (·.name)) ∧
        found.qualified = found.scopePath ++ ":" ++ found.task.name)) ∧
    ∀ name found, runner.file.resolve (requestedTask name) = some found →
      found.qualified ≠ "" →
      ∀ given world,
        runner.run host found.qualified given world = runner.run host name given world := by
  refine ⟨?_, ?_⟩
  · intro found hfound
    obtain ⟨name, hname⟩ : ∃ name, runner.file.resolve name = some found := by
      rcases hfound with hname | ⟨source, name, hfrom⟩
      · exact hname
      · exact TaskFile.exists_resolve_of_resolveFrom hfrom
    refine ⟨TaskFile.mem_qualifiedTasks_of_resolve hname, TaskFile.resolve_qualified hname, ?_⟩
    intro hscopes
    refine ⟨?_, TaskFile.qualified_of_resolve hname hscopes⟩
    rw [TaskFile.scopePath_of_resolve hname hscopes, joinSegments_eq_intercalate]
  · intro name found hname hnonempty given world
    have hagain : runner.file.resolve (requestedTask found.qualified) = some found := by
      rw [requestedTask, if_neg hnonempty]
      exact TaskFile.resolve_qualified hname
    exact run_congr hname hagain host given world

/-- A runner of a file with a namespace of its own and a fragment's namespaces, where `all` waits for
a task by its alias. -/
def toolbox : Runner Unit where
  file :=
    { tasks := [{ name := "fmt" }, { name := "all", dependencies := ["tools:fmt"] }]
      namespaces := [{
        name := "db", namespaces := [{
          name := "seed", tasks := [{ name := "users", dependencies := ["tools:fmt"] }] }] }]
      fileNamespace := some "tools" }
  context := { workingDir := Path.ofString "/" }
  externals := ⟨[]⟩

/-- A host that knows the shell. -/
def shellOnly : Host Unit :=
  Rehearsal.host { programs := ["sh"], rules := [], files := ⟨.directory [], []⟩ }

/-- A task in two namespaces, a dependency by an alias, and a request by the same alias. -/
theorem toolbox_names_are_canonical :
    ∃ users fmt,
      toolbox.file.resolve "db:seed:users" = some users ∧ users.scopes ≠ [] ∧
      users.scopePath = ":".intercalate (users.scopes.map (·.name)) ∧
      users.qualified = users.scopePath ++ ":" ++ users.task.name ∧
      toolbox.file.resolveFrom users "tools:fmt" = some fmt ∧ fmt.qualified = "fmt" ∧
      (fmt.qualified, fmt.task) ∈ toolbox.file.qualifiedTasks ∧
      toolbox.file.resolve (requestedTask "tools:fmt") = some fmt ∧
      toolbox.run shellOnly "fmt" ["x"] () = toolbox.run shellOnly "tools:fmt" ["x"] () := by
  obtain ⟨users, husers, hscopes, fmt, hfrom, hname, hfmt⟩ : ∃ users,
      toolbox.file.resolve "db:seed:users" = some users ∧ users.scopes ≠ [] ∧ ∃ fmt,
      toolbox.file.resolveFrom users "tools:fmt" = some fmt ∧ fmt.qualified = "fmt" ∧
      toolbox.file.resolve (requestedTask "tools:fmt") = some fmt :=
    ⟨_, rfl, List.cons_ne_nil _ _, _, rfl, rfl, rfl⟩
  obtain ⟨hcanonical, hruns⟩ := resolution_is_canonical shellOnly toolbox
  obtain ⟨-, -, hinside⟩ := hcanonical users (Or.inl ⟨_, husers⟩)
  obtain ⟨hpath, hqualified⟩ := hinside hscopes
  obtain ⟨hlisted, -, -⟩ := hcanonical fmt (Or.inr ⟨users, _, hfrom⟩)
  have hnonempty : fmt.qualified ≠ "" := by
    rw [hname]
    decide
  have hrun := hruns "tools:fmt" fmt hfmt hnonempty ["x"] ()
  rw [hname] at hrun
  exact ⟨users, fmt, husers, hscopes, hpath, hqualified, hfrom, hname, hlisted, hfmt, hrun⟩

/-- A runner of a task that has no name but an alias, and of the default task. -/
def unnamed : Runner Unit where
  file := { tasks := [{ name := "" }, { name := "default" }], fileNamespace := some "tools" }
  context := { workingDir := Path.ofString "/" }
  externals := ⟨[]⟩

/-- A task that is known by the empty name can be requested by its alias, but not by that name. -/
theorem unnamed_has_no_request :
    ∃ found, unnamed.file.resolve (requestedTask "tools:") = some found ∧ found.qualified = "" ∧
      unnamed.run shellOnly found.qualified [] () ≠ unnamed.run shellOnly "tools:" [] () := by
  refine ⟨⟨"", { name := "" }, []⟩, rfl, rfl, ?_⟩
  intro hsame
  have hdefault : (unnamed.run shellOnly "" [] ()).1.events.head?
      = some ⟨["default"], .entered⟩ := by
    rw [run, outcome_of_some rfl, invoke_of_new _ _ _ (by decide), invokeAll_nil]
    rfl
  have hunnamed : (unnamed.run shellOnly "tools:" [] ()).1.events.head?
      = some ⟨[""], .entered⟩ := by
    rw [run, outcome_of_some rfl, invoke_of_new _ _ _ (by decide), invokeAll_nil]
    rfl
  have hevent := hdefault.symm.trans ((congrArg (·.1.events.head?) hsame).trans hunnamed)
  exact absurd hevent (by decide)

end Runner

end TaskRunner
