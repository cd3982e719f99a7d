import Mathlib
import TaskRunner.Proofs.CanonicalNames
import TaskRunner.Proofs.CycleSearch
import TaskRunner.TaskFile.Parser

/-! # Which listed tasks their names lead to

    The list of a file is made by going down its namespaces; a name is resolved by cutting
    it at its colons and taking, level by level, the first namespace that is called so.
    The two agree on less than the whole list.

    A **`Site`** is where a task is declared: the namespaces around it, and the task.
    The list names the sites of a file one by one (`qualifiedTasks_eq_sites`), and a
    walk ends at a site (`mem_sitesIn_of_walk`).  In a file that has passed the check no
    two sites have one name, so a listed name leads to its own site, or nowhere, or, taken
    for an alias, to a top-level task.  **`listed_found_iff`** says when it leads to its
    own: always for a top-level task, and for a task inside namespaces if there is no colon
    in the names on its site, the namespaces are the first of their names, and the name is
    not taken for an alias.  `listed_not_always_found` has a listed name that leads
    nowhere. -/

namespace TaskRunner

/-! ## Sites -/

/-- Where a task is declared: the namespaces around it, outermost first, and the task. -/
structure Site where
  scopes : List Namespace
  task : Task

/-- The names on a site: those of the namespaces and that of the task. -/
def Site.segments (site : Site) : List String :=
  site.scopes.map (·.name) ++ [site.task.name]

/-- The name that a site is listed under. -/
def Site.name (site : Site) : String := joinSegments site.segments

mutual

/-- The sites of the tasks in a namespace that stands inside `around`, its own first. -/
def Namespace.sites (around : List Namespace) : Namespace → List Site
  | ⟨name, tasks, vars, namespaces⟩ =>
    tasks.map (⟨around ++ [⟨name, tasks, vars, namespaces⟩], ·⟩)
      ++ sitesIn (around ++ [⟨name, tasks, vars, namespaces⟩]) namespaces

/-- The sites of the tasks in the namespaces that stand inside `around`. -/
def sitesIn (around : List Namespace) : List Namespace → List Site
  | [] => []
  | ns :: rest => ns.sites around ++ sitesIn around rest

end

/-- The sites of all tasks of a file, in the order of the list. -/
def TaskFile.sites (file : TaskFile) : List Site :=
  file.tasks.map (⟨[], ·⟩) ++ sitesIn [] file.namespaces

/-- What the list says of a site. -/
def Site.entry (site : Site) : String × Task := (site.name, site.task)

theorem Site.name_of_scopes {scopes : List Namespace} (h : scopes ≠ []) (task : Task) :
    Site.name ⟨scopes, task⟩ = qualify (joinSegments (scopes.map (·.name))) task.name :=
  joinSegments_concat (fun hnil => h (List.map_eq_nil_iff.mp hnil)) task.name

theorem joinSegments_singleton (name : String) : joinSegments [name] = name := by
  simp [joinSegments, List.intercalate]

mutual

theorem Namespace.entries_sites (around : List Namespace) :
    ∀ ns : Namespace, (ns.sites around).map Site.entry
      = ns.qualifiedTasks (joinSegments ((around ++ [ns]).map (·.name)))
  | ⟨name, tasks, vars, namespaces⟩ => by
    have hnonempty : around ++ [⟨name, tasks, vars, namespaces⟩] ≠ ([] : List Namespace) := by simp
    rw [Namespace.sites, Namespace.qualifiedTasks, List.map_append, List.map_map,
      entries_sitesIn hnonempty namespaces]
    congr 1
    exact List.map_congr_left fun task _ =>
      congrArg (·, task) (Site.name_of_scopes hnonempty task)

theorem entries_sitesIn {around : List Namespace} (h : around ≠ []) :
    ∀ namespaces : List Namespace, (sitesIn around namespaces).map Site.entry
      = qualifiedTasksIn (joinSegments (around.map (·.name))) namespaces
  | [] => rfl
  | ns :: rest => by
    have hpath : joinSegments ((around ++ [ns]).map (·.name))
        = qualify (joinSegments (around.map (·.name))) ns.name := by
      rw [List.map_append]
      exact joinSegments_concat (fun hnil => h (List.map_eq_nil_iff.mp hnil)) ns.name
    rw [sitesIn, qualifiedTasksIn, List.map_append, Namespace.entries_sites around ns,
      entries_sitesIn h rest, hpath]

end

/-- The list of a file is made of its sites. -/
theorem qualifiedTasks_eq_sites (file : TaskFile) :
    file.qualifiedTasks = file.sites.map Site.entry := by
  have htop : ∀ namespaces : List Namespace, (sitesIn [] namespaces).map Site.entry
      = namespaces.flatMap fun ns => ns.qualifiedTasks ns.name := by
    intro namespaces
    induction namespaces with
    | nil => rfl
    | cons ns rest ih =>
        rw [sitesIn, List.map_append, ih, List.flatMap_cons, Namespace.entries_sites]
        simp only [List.nil_append, List.map_cons, List.map_nil, joinSegments_singleton]
  rw [TaskFile.qualifiedTasks, TaskFile.sites, List.map_append, htop, List.map_map]
  congr 1
  refine List.map_congr_left fun task _ => ?_
  show (task.name, task) = (joinSegments [task.name], task)
  rw [joinSegments_singleton]

/-! ## Sites and walks -/

mutual

/-- A site inside a namespace ends at a namespace that declares the task. -/
theorem Namespace.declared_of_mem_sites (around : List Namespace) {site : Site} :
    ∀ ns : Namespace, site ∈ ns.sites around →
      ∃ last, site.scopes.getLast? = some last ∧ site.task ∈ last.tasks
  | ⟨name, tasks, vars, namespaces⟩ => by
    intro hmem
    rw [Namespace.sites] at hmem
    rcases List.mem_append.mp hmem with hown | hinner
    · obtain ⟨task, htask, rfl⟩ := List.mem_map.mp hown
      exact ⟨_, List.getLast?_concat, htask⟩
    · exact declared_of_mem_sitesIn _ namespaces hinner

theorem declared_of_mem_sitesIn (around : List Namespace) {site : Site} :
    ∀ namespaces : List Namespace, site ∈ sitesIn around namespaces →
      ∃ last, site.scopes.getLast? = some last ∧ site.task ∈ last.tasks
  | [] => fun hmem => absurd hmem List.not_mem_nil
  | ns :: rest => by
    intro hmem
    rw [sitesIn] at hmem
    rcases List.mem_append.mp hmem with hfirst | hrest
    · exact Namespace.declared_of_mem_sites around ns hfirst
    · exact declared_of_mem_sitesIn around rest hrest

end

theorem mem_sitesIn {around namespaces : List Namespace} {ns : Namespace} {site : Site}
    (h : ns ∈ namespaces) (hsite : site ∈ ns.sites around) :
    site ∈ sitesIn around namespaces := by
  induction namespaces with
  | nil => exact absurd h List.not_mem_nil
  | cons first rest ih =>
      rw [sitesIn, List.mem_append]
      rcases List.mem_cons.mp h with rfl | h
      · exact Or.inl hsite
      · exact Or.inr (ih h)

/-- Where a walk ends, every task is at a site. -/
theorem mem_sitesIn_of_walk {namespaces scopes : List Namespace} {path : List String}
    (around : List Namespace) (h : walk namespaces path = some scopes) {last : Namespace}
    (hlast : scopes.getLast? = some last) {task : Task} (htask : task ∈ last.tasks) :
    ⟨around ++ scopes, task⟩ ∈ sitesIn around namespaces := by
  induction path generalizing namespaces scopes around with
  | nil =>
      obtain rfl := Option.some.inj h
      cases hlast
  | cons name path ih =>
      rw [walk] at h
      split at h
      · cases h
      · rename_i outer houter
        obtain ⟨inner, hinner, rfl⟩ := Option.map_eq_some_iff.mp h
        refine mem_sitesIn (mem_of_findNamespace houter).1 ?_
        obtain ⟨outerName, tasks, vars, below⟩ := outer
        rw [Namespace.sites, List.mem_append]
        cases inner with
        | nil =>
            -- the walk ends here
            obtain rfl := Option.some.inj hlast
            exact Or.inl (List.mem_map.mpr ⟨task, htask, rfl⟩)
        | cons next inner =>
            rw [List.getLast?_cons_cons] at hlast
            have hsite := ih (around ++ [⟨outerName, tasks, vars, below⟩]) hinner hlast
            rw [List.append_assoc] at hsite
            exact Or.inr hsite

/-! ## Names of sites -/

/-- Segments without colons are the segments of the name that they make. -/
theorem segments_joinSegments {path : List String} (hpath : path ≠ [])
    (hplain : ∀ segment ∈ path, ':' ∉ segment.toList) : segments (joinSegments path) = path := by
  have hsplit : (joinSegments path).toList.splitOn ':' = path.map String.toList := by
    rw [joinSegments, String.toList_ofList]
    refine List.splitOn_intercalate ':' ?_ fun hnil => hpath (List.map_eq_nil_iff.mp hnil)
    intro chars hchars
    obtain ⟨segment, hsegment, rfl⟩ := List.mem_map.mp hchars
    exact hplain segment hsegment
  rw [segments, hsplit, List.map_map]
  exact (List.map_congr_left fun segment _ => String.ofList_toList).trans (List.map_id path)

/-- What a list is split at is in none of its pieces. -/
theorem not_of_mem_splitOnPPrepend {α : Type} {p : α → Bool} {l front piece : List α}
    (hfront : ∀ a ∈ front, p a = false) (h : piece ∈ l.splitOnPPrepend p front) :
    ∀ a ∈ piece, p a = false := by
  induction l generalizing front with
  | nil =>
      rw [List.splitOnPPrepend, List.mem_singleton] at h
      intro a ha
      rw [h] at ha
      exact hfront a (List.mem_reverse.mp ha)
  | cons b l ih =>
      rw [List.splitOnPPrepend] at h
      cases hb : p b with
      | true =>
          rw [if_pos hb] at h
          rcases List.mem_cons.mp h with rfl | h
          · exact fun a ha => hfront a (List.mem_reverse.mp ha)
          · exact ih (fun _ hmem => absurd hmem List.not_mem_nil) h
      | false =>
          rw [if_neg (by simp [hb])] at h
          refine ih (fun a ha => ?_) h
          rcases List.mem_cons.mp ha with rfl | ha
          · exact hb
          · exact hfront a ha

/-- There is no colon in a segment of a name. -/
theorem not_mem_of_mem_segments {name segment : String} (h : segment ∈ segments name) :
    ':' ∉ segment.toList := by
  obtain ⟨chars, hchars, rfl⟩ := List.mem_map.mp h
  rw [String.toList_ofList]
  intro hcolon
  have hother := not_of_mem_splitOnPPrepend (fun _ hmem => absurd hmem List.not_mem_nil) hchars
    ':' hcolon
  exact absurd hother (by simp)

/-- There is no colon in the names on a site. -/
def Site.Plain (site : Site) : Prop := ∀ segment ∈ site.segments, ':' ∉ segment.toList

theorem Site.segments_name {site : Site} (h : site.Plain) :
    TaskRunner.segments site.name = site.segments :=
  segments_joinSegments (List.concat_ne_nil _ _) h

namespace TaskFile

variable {file : TaskFile}

theorem mem_sites_of_task {task : Task} (h : task ∈ file.tasks) : ⟨[], task⟩ ∈ file.sites :=
  List.mem_append_left _ (List.mem_map.mpr ⟨task, h, rfl⟩)

/-- A site without namespaces is that of a top-level task. -/
theorem mem_tasks_of_site {site : Site} (h : site ∈ file.sites) (htop : site.scopes = []) :
    site.task ∈ file.tasks := by
  rcases List.mem_append.mp h with hown | hinside
  · obtain ⟨task, htask, rfl⟩ := List.mem_map.mp hown
    exact htask
  · obtain ⟨last, hlast, -⟩ := declared_of_mem_sitesIn [] file.namespaces hinside
    rw [htop] at hlast
    cases hlast

/-- A site inside namespaces ends at one that declares the task. -/
theorem declared_of_site {site : Site} (h : site ∈ file.sites) (hscopes : site.scopes ≠ []) :
    ∃ last, site.scopes.getLast? = some last ∧ site.task ∈ last.tasks := by
  rcases List.mem_append.mp h with hown | hinside
  · obtain ⟨task, -, rfl⟩ := List.mem_map.mp hown
    exact absurd rfl hscopes
  · exact declared_of_mem_sitesIn [] file.namespaces hinside

/-- Where no name is listed twice, a site is known by its name. -/
theorem site_eq_of_name (hnodup : file.names.Nodup) {site other : Site}
    (hsite : site ∈ file.sites) (hother : other ∈ file.sites) (h : other.name = site.name) :
    other = site := by
  have hnames : (file.sites.map Site.name).Nodup := by
    rw [names, qualifiedTasks_eq_sites, List.map_map] at hnodup
    exact hnodup
  exact List.inj_on_of_nodup_map hnames hother hsite h

/-! ## From names back to sites -/

/-- A top-level task that is found is at a site of its own. -/
theorem site_of_findTask {name : String} {task : Task}
    (h : findTask? file.tasks name = some task) :
    ⟨[], task⟩ ∈ file.sites ∧ Site.name ⟨[], task⟩ = name := by
  obtain ⟨hmem, rfl⟩ := mem_of_findTask h
  exact ⟨mem_sites_of_task hmem, joinSegments_singleton task.name⟩

/-- What a path leads to is at the site that has the path for its segments. -/
theorem site_of_resolvePath {name : String} {found : ResolvedTask}
    (h : file.resolvePath name = some found) :
    ⟨found.scopes, found.task⟩ ∈ file.sites ∧
      Site.segments ⟨found.scopes, found.task⟩ = segments name := by
  obtain ⟨last, own, hwalk, hlast, hown, htask, -⟩ := walk_of_resolvePath h
  obtain ⟨hmem, hname⟩ := mem_of_findTask htask
  refine ⟨List.mem_append_right _ (mem_sitesIn_of_walk [] hwalk hlast hmem), ?_⟩
  obtain ⟨front, hfront⟩ := List.getLast?_eq_some_iff.mp hown
  rw [Site.segments, names_of_walk hwalk, hname, hfront, List.dropLast_concat]

/-- Where a task is declared, some task is found by its name. -/
theorem exists_findTask {tasks : List Task} {task : Task} (h : task ∈ tasks) :
    ∃ first, findTask? tasks task.name = some first := by
  cases hfound : findTask? tasks task.name with
  | some first => exact ⟨first, rfl⟩
  | none => exact absurd (beq_self_eq_true task.name) (List.find?_eq_none.mp hfound task h)

/-- The name of a top-level task leads to it. -/
theorem resolve_of_top (hnodup : file.names.Nodup) {site : Site} (hsite : site ∈ file.sites)
    (htop : site.scopes = []) : file.resolve site.name = some ⟨site.name, site.task, []⟩ := by
  obtain ⟨scopes, task⟩ := site
  obtain rfl : scopes = [] := htop
  have hname : Site.name ⟨[], task⟩ = task.name := joinSegments_singleton task.name
  obtain ⟨first, hfound⟩ := exists_findTask (mem_tasks_of_site hsite rfl)
  obtain ⟨hfirst, hsame⟩ := site_of_findTask hfound
  have heq := site_eq_of_name hnodup hsite hfirst (hsame.trans hname.symm)
  obtain rfl : first = task := congrArg Site.task heq
  rw [hname]
  exact resolve_of_findTask hfound

/-- No top-level task has the name of a task inside namespaces. -/
theorem findTask_of_inside (hnodup : file.names.Nodup) {site : Site} (hsite : site ∈ file.sites)
    (hscopes : site.scopes ≠ []) : findTask? file.tasks site.name = none := by
  cases hfound : findTask? file.tasks site.name with
  | none => rfl
  | some task =>
      obtain ⟨hmem, hname⟩ := site_of_findTask hfound
      have heq := site_eq_of_name hnodup hsite hmem hname
      exact absurd (congrArg Site.scopes heq).symm hscopes

/-- Where the names around a task lead through its namespaces, its own name leads to it in the last
of them. -/
theorem findTask_of_walk (hnodup : file.names.Nodup) {site : Site} (hsite : site ∈ file.sites)
    (hwalk : walk file.namespaces (site.scopes.map (·.name)) = some site.scopes)
    {last : Namespace} (hlast : site.scopes.getLast? = some last) (htask : site.task ∈ last.tasks) :
    findTask? last.tasks site.task.name = some site.task := by
  obtain ⟨first, hfound⟩ := exists_findTask htask
  obtain ⟨hfirst, hname⟩ := mem_of_findTask hfound
  have hmem : ⟨site.scopes, first⟩ ∈ file.sites :=
    List.mem_append_right _ (mem_sitesIn_of_walk [] hwalk hlast hfirst)
  have hsame : Site.name ⟨site.scopes, first⟩ = site.name := by
    rw [Site.name, Site.segments, hname]
    rfl
  rw [hfound, ← site_eq_of_name hnodup hsite hmem hsame]

/-- The name of a task inside namespaces leads to it, if its segments are the names on the site,
they lead through just these namespaces, and it is no alias. -/
theorem resolve_of_inside (hnodup : file.names.Nodup) {site : Site} (hsite : site ∈ file.sites)
    (hscopes : site.scopes ≠ []) (hplain : site.Plain)
    (hwalk : walk file.namespaces (site.scopes.map (·.name)) = some site.scopes)
    (halias : file.resolveAlias site.name = none) :
    file.resolve site.name = some ⟨site.name, site.task, site.scopes⟩ := by
  obtain ⟨last, hlast, htask⟩ := declared_of_site hsite hscopes
  have hsegments := Site.segments_name hplain
  rw [Site.segments] at hsegments
  rw [resolve, findTask_of_inside hnodup hsite hscopes, halias]
  dsimp only
  rw [resolvePath, hsegments, List.dropLast_concat, hwalk]
  dsimp only
  rw [hlast, List.getLast?_concat]
  dsimp only
  rw [findTask_of_walk hnodup hsite hwalk hlast htask, Option.map_some]

/-- If the name of a task inside namespaces leads to it, it does so by the walk. -/
theorem inside_of_resolve (hnodup : file.names.Nodup) {site : Site} (hsite : site ∈ file.sites)
    (hscopes : site.scopes ≠ []) {found : ResolvedTask}
    (h : file.resolve site.name = some found) (hname : found.qualified = site.name) :
    site.Plain ∧ walk file.namespaces (site.scopes.map (·.name)) = some site.scopes ∧
      file.resolveAlias site.name = none := by
  rcases findTask_or_resolvePath h with ⟨own, task, htask, rfl⟩ | hpath
  · rw [show own = site.name from hname, findTask_of_inside hnodup hsite hscopes] at htask
    cases htask
  · obtain ⟨hmem, hsegments⟩ := site_of_resolvePath hpath
    have hsame : Site.name ⟨found.scopes, found.task⟩ = site.name := by
      rw [Site.name, hsegments, joinSegments_segments]
    obtain rfl := site_eq_of_name hnodup hsite hmem hsame
    obtain ⟨-, -, hwalk, -, -, -, -⟩ := walk_of_resolvePath hpath
    refine ⟨fun segment hmem => ?_, ?_, ?_⟩
    · rw [hsegments] at hmem
      exact not_mem_of_mem_segments hmem
    · rw [names_of_walk hwalk]
      exact hwalk
    · -- an alias would have gone first, and led to a task without namespaces
      cases halias : file.resolveAlias (Site.name ⟨found.scopes, found.task⟩) with
      | none => rfl
      | some top =>
          obtain ⟨own, task, -, rfl⟩ := findTask_of_resolveAlias halias
          rw [resolve, halias] at h
          split at h
          · rw [← Option.some.inj h] at hscopes
            exact absurd rfl hscopes
          · rw [← Option.some.inj h] at hscopes
            exact absurd rfl hscopes

/-- A name without further colons on its site is an alias if the outermost namespace is called like
the file's own and the rest is the name of a top-level task. -/
theorem resolveAlias_eq_none_iff {site : Site} (hplain : site.Plain) {outer : Namespace}
    {inner : List Namespace} (hscopes : site.scopes = outer :: inner) :
    file.resolveAlias site.name = none ↔
      (file.fileNamespace = some outer.name →
        findTask? file.tasks (joinSegments (inner.map (·.name) ++ [site.task.name])) = none) := by
  obtain ⟨first, rest, hrest⟩ := List.exists_cons_of_ne_nil
    (List.concat_ne_nil site.task.name (inner.map (·.name)))
  have hsegments : segments site.name = outer.name :: first :: rest := by
    rw [Site.segments_name hplain, Site.segments, hscopes, List.map_cons, List.cons_append, hrest]
  rw [resolveAlias, hsegments, hrest]
  dsimp only
  by_cases hown : file.fileNamespace = some outer.name
  · rw [if_pos hown, Option.map_eq_none_iff]
    exact ⟨fun h _ => h, fun h => h hown⟩
  · rw [if_neg hown]
    exact ⟨fun _ h => absurd h hown, fun _ => rfl⟩

/-- **WHICH LISTED TASKS ARE FOUND**: in a file that has passed the check, the name that a task is
    listed under leads to that task, and makes it known by that name, exactly if the task
    stands at the top; or if there is no colon in its own name and those of the namespaces
    around it, these are what their names lead through, and no top-level task takes the
    name for that of the file's own namespace. -/
theorem listed_found_iff (file : TaskFile) (hvalid : file.validate = .ok ()) :
    file.qualifiedTasks = file.sites.map (fun site => (site.name, site.task)) ∧
    ∀ site ∈ file.sites,
      ((∃ found, file.resolve site.name = some found ∧ found.qualified = site.name ∧
          found.task = site.task) ↔
        site.scopes = [] ∨
          (∀ segment ∈ site.scopes.map (·.name) ++ [site.task.name], ':' ∉ segment.toList) ∧
          walk file.namespaces (site.scopes.map (·.name)) = some site.scopes ∧
          ∀ outer inner, site.scopes = outer :: inner →
            file.fileNamespace = some outer.name →
              findTask? file.tasks (joinSegments (inner.map (·.name) ++ [site.task.name]))
                = none) := by
  refine ⟨qualifiedTasks_eq_sites file, fun site hsite => ?_⟩
  have hnodup : file.names.Nodup := (clear_of_validate hvalid).1
  constructor
  · rintro ⟨found, hfound, hname, -⟩
    by_cases htop : site.scopes = []
    · exact Or.inl htop
    · obtain ⟨hplain, hwalk, halias⟩ := inside_of_resolve hnodup hsite htop hfound hname
      refine Or.inr ⟨hplain, hwalk, fun outer inner hscopes => ?_⟩
      exact (resolveAlias_eq_none_iff hplain hscopes).mp halias
  · rintro (htop | ⟨hplain, hwalk, hfree⟩)
    · exact ⟨_, resolve_of_top hnodup hsite htop, rfl, rfl⟩
    · by_cases htop : site.scopes = []
      · exact ⟨_, resolve_of_top hnodup hsite htop, rfl, rfl⟩
      · obtain ⟨outer, inner, hscopes⟩ := List.exists_cons_of_ne_nil htop
        have halias := (resolveAlias_eq_none_iff hplain hscopes).mpr (hfree outer inner hscopes)
        exact ⟨_, resolve_of_inside hnodup hsite htop hplain hwalk halias, rfl, rfl⟩

/-- A site two namespaces deep. -/
def deep : Site :=
  let inner : Namespace := { name := "b", tasks := [{ name := "y" }] }
  { scopes := [{ name := "a", tasks := [{ name := "x" }], namespaces := [inner] }, inner],
    task := { name := "y" } }

/-- The file of that site. -/
def nested : TaskFile := { namespaces := deep.scopes.take 1 }

/-- The task in the inner namespace is found under the name that it is listed under. -/
theorem nested_found :
    nested.validate = .ok () ∧ nested.qualifiedTasks.map (·.1) = ["a:x", "a:b:y"] ∧
      ∃ found, nested.resolve "a:b:y" = some found ∧ found.qualified = "a:b:y" ∧
        found.task = { name := "y" } := by
  have hnames : nested.names = ["a:x", "a:b:y"] := by cbv
  have hvalid : nested.validate = .ok () :=
    validate_of_no_dependencies (by rw [hnames]; decide)
      (by simp [nested, deep, qualifiedTasks, Namespace.qualifiedTasks, qualifiedTasksIn])
  have hsite : deep ∈ nested.sites := by
    simp [nested, deep, sites, sitesIn, Namespace.sites]
  have hname : deep.name = "a:b:y" := by cbv
  refine ⟨hvalid, hnames, ?_⟩
  obtain ⟨found, hfound, hknown, htask⟩ := ((listed_found_iff nested hvalid).2 deep hsite).mpr
    (Or.inr ⟨by decide, rfl, by intro _ _ _ hnone; cases hnone⟩)
  exact ⟨found, hname ▸ hfound, hknown.trans hname, htask⟩

/-! ## A listed name that leads nowhere -/

/-- A file that opens a namespace a second time. -/
def reopened : TaskFile :=
  { namespaces := [{ name := "a", tasks := [{ name := "x" }] },
      { name := "a", tasks := [{ name := "y" }] }] }

theorem parse_reopened :
    parse "namespace a { task x }\nnamespace a { task y }" = .ok reopened := by
  -- three items for each block; with rw, each step would try to evaluate all of the text
  rewrite [parse, read,
    items_cons (by cbv) (by decide) (by cbv) (by cbv),
    items_cons (by cbv) (by decide) (by cbv) (by cbv),
    items_cons (by cbv) (by decide) (by cbv) (by cbv),
    items_cons (by cbv) (by decide) (by cbv) (by cbv),
    items_cons (by cbv) (by decide) (by cbv) (by cbv),
    items_cons (by cbv) (by decide) (by cbv) (by cbv),
    items_of_blank (by cbv)]
  rfl

/-- Not every listed name leads to its task: in a file that opens a namespace a second time, the
tasks behind the second opening are listed, but only the first one is looked into. -/
theorem listed_not_always_found :
    ¬ ∀ (source : String) (file : TaskFile), parse source = .ok file → file.validate = .ok () →
      ∀ entry ∈ file.qualifiedTasks,
        ∃ found, file.resolve entry.1 = some found ∧ found.qualified = entry.1 ∧
          found.task = entry.2 := by
  intro hall
  have hnames : reopened.names = ["a:x", "a:y"] := by cbv
  have hvalid : reopened.validate = .ok () :=
    validate_of_no_dependencies (by rw [hnames]; decide)
      (by simp [reopened, qualifiedTasks, Namespace.qualifiedTasks, qualifiedTasksIn])
  have hlisted : ("a:y", { name := "y" }) ∈ reopened.qualifiedTasks := by
    simp [reopened, qualifiedTasks, Namespace.qualifiedTasks, qualifiedTasksIn, qualify]
  have hlost : reopened.resolve "a:y" = none := by cbv
  obtain ⟨found, hfound, -⟩ := hall _ reopened parse_reopened hvalid _ hlisted
  cases hlost.symm.trans hfound

end TaskFile

end TaskRunner
