import Mathlib.Data.List.Chain
import Mathlib.Data.List.Permutation
import TaskRunner.Proofs.DependencyGraph
import TaskRunner.TaskFile.Validation

/-! # The check of a task file is exact

    The check passes exactly the files that list no name twice and whose graph of
    dependencies is acyclic, and what it reports of the others is there
    (**`validate_exact`**).  The route:

    * `firstRepeated?` finds a name exactly when one occurs twice, and that name does;
    * what the search clears is clear (`clear_of_visit`): a name is cleared only after
      all names it leads to are, so the chain plays no part in this half;
    * what the search reports closes a cycle (`closesCycle_of_visit`): the chain with the
      name to visit is a path at every moment.  Only the first name of a chain can be an
      alias, and it is the name of its task that stands on the chain.

    The two halves meet in `visitNames`, which starts with every listed name. -/

namespace TaskRunner

open Relation

/-! ## Names that occur twice -/

theorem firstRepeated?_eq_none_iff (seen names : List String) :
    firstRepeated? seen names = none ↔ names.Nodup ∧ ∀ name ∈ names, name ∉ seen := by
  induction names generalizing seen with
  | nil => simp [firstRepeated?]
  | cons name rest ih =>
      rw [firstRepeated?]
      by_cases hseen : name ∈ seen
      · rw [if_pos hseen]
        simp [hseen]
      · rw [if_neg hseen, ih, List.nodup_cons]
        constructor
        · rintro ⟨hnodup, hfresh⟩
          refine ⟨⟨fun hmem => hfresh name hmem List.mem_cons_self, hnodup⟩, ?_⟩
          intro other hother
          rcases List.mem_cons.mp hother with rfl | hother
          · exact hseen
          · exact fun hmem => hfresh other hother (List.mem_cons_of_mem _ hmem)
        · rintro ⟨⟨hnew, hnodup⟩, hfresh⟩
          refine ⟨hnodup, ?_⟩
          intro other hother hmem
          rcases List.mem_cons.mp hmem with rfl | hmem
          · exact hnew hother
          · exact hfresh other (List.mem_cons_of_mem _ hother) hmem

/-- A repeated name was seen before, or stands twice among the names. -/
theorem count_of_firstRepeated? {seen names : List String} {name : String}
    (h : firstRepeated? seen names = some name) :
    name ∈ seen ∧ name ∈ names ∨ 2 ≤ names.count name := by
  induction names generalizing seen with
  | nil => cases h
  | cons first rest ih =>
      rw [firstRepeated?] at h
      by_cases hseen : first ∈ seen
      · rw [if_pos hseen] at h
        obtain rfl := Option.some.inj h
        exact Or.inl ⟨hseen, List.mem_cons_self⟩
      · rw [if_neg hseen] at h
        rcases ih h with ⟨hmem, hrest⟩ | htwice
        · rcases List.mem_cons.mp hmem with rfl | hmem
          · refine Or.inr ?_
            rw [List.count_cons_self]
            exact Nat.succ_le_succ (List.count_pos_iff.mpr hrest)
          · exact Or.inl ⟨hmem, List.mem_cons_of_mem _ hrest⟩
        · exact Or.inr (Nat.le_trans htwice List.count_le_count_cons)

namespace TaskFile

variable {file : TaskFile}

/-! ## What the search clears -/

/-- **CLEARED NAMES ARE CLEAR**: from a name that a search passes without a report no
    cycle can be reached, and the same holds of all names it hands on as cleared. -/
theorem clear_of_visit (file : TaskFile) :
    (∀ cleared chain name, (∀ other ∈ cleared, file.Clear other) →
      ∀ passed, file.visit cleared chain name = .ok passed →
        file.Clear name ∧ ∀ other ∈ passed, file.Clear other) ∧
    ∀ source cleared chain dependencies, (∀ other ∈ cleared, file.Clear other) →
      ∀ passed, file.visitAll source cleared chain dependencies = .ok passed →
        (∀ dependency ∈ dependencies, ∀ target,
          file.resolveFrom source dependency = some target → file.Clear target.qualified) ∧
        ∀ other ∈ passed, file.Clear other := by
  refine visit.mutual_induct_unfolding file
    (fun cleared _ name result => (∀ other ∈ cleared, file.Clear other) →
      ∀ passed, result = .ok passed →
        file.Clear name ∧ ∀ other ∈ passed, file.Clear other)
    (fun source cleared _ dependencies result => (∀ other ∈ cleared, file.Clear other) →
      ∀ passed, result = .ok passed →
        (∀ dependency ∈ dependencies, ∀ target,
          file.resolveFrom source dependency = some target → file.Clear target.qualified) ∧
        ∀ other ∈ passed, file.Clear other)
    ?onChain ?cleared ?unknown ?reported ?passed ?nil ?skipped ?first ?rest
  case onChain =>
      intro _ _ _ _ _ _ h
      cases h
  case cleared =>
      intro cleared chain name _ hmem hclear passed h
      obtain rfl := Except.ok.inj h
      exact ⟨hclear name hmem, hclear⟩
  case unknown =>
      intro cleared chain name _ _ hnone hclear passed h
      obtain rfl := Except.ok.inj h
      exact ⟨clear_of_resolve_none hnone, hclear⟩
  case reported =>
      intro _ _ _ _ _ _ _ _ _ _ _ _ _ h
      cases h
  case passed =>
      intro cleared chain name _ _ source hsource _ inner hinner ih hclear passed h
      obtain rfl := Except.ok.inj h
      obtain ⟨htargets, hinnerClear⟩ := ih hclear inner hinner
      -- every step from the name goes to a dependency that was searched
      have hname : file.Clear name := by
        refine clear_of_next ?_
        rintro next ⟨other, hother, dependency, hdep, target, htarget, rfl⟩
        obtain rfl := Option.some.inj (hsource.symm.trans hother)
        exact htargets dependency hdep target htarget
      refine ⟨hname, ?_⟩
      intro other hother
      rcases List.mem_cons.mp hother with rfl | hother
      · exact hname
      · exact hinnerClear other hother
  case nil =>
      intro source cleared chain hclear passed h
      obtain rfl := Except.ok.inj h
      exact ⟨fun _ hmem => absurd hmem List.not_mem_nil, hclear⟩
  case skipped =>
      intro source cleared chain dependency rest hnone ih hclear passed h
      obtain ⟨htargets, hpassed⟩ := ih hclear passed h
      refine ⟨?_, hpassed⟩
      intro other hother target htarget
      rcases List.mem_cons.mp hother with rfl | hother
      · exact absurd (hnone.symm.trans htarget) (by simp)
      · exact htargets other hother target htarget
  case first =>
      intro _ _ _ _ _ _ _ _ _ _ _ _ _ h
      cases h
  case rest =>
      intro source cleared chain dependency rest target htarget _ inner hinner ihFirst ihRest
        hclear passed h
      obtain ⟨hfirst, hinnerClear⟩ := ihFirst hclear inner hinner
      obtain ⟨htargets, hpassed⟩ := ihRest hinnerClear passed h
      refine ⟨?_, hpassed⟩
      intro other hother found hfound
      rcases List.mem_cons.mp hother with rfl | hother
      · obtain rfl := Option.some.inj (htarget.symm.trans hfound)
        exact hfirst
      · exact htargets other hother found hfound

/-! ## What the search reports -/

/-- A path of dependencies whose last name already stands earlier on it. -/
def ClosesCycle (file : TaskFile) (chain : List String) : Prop :=
  chain.IsChain file.DependsOn ∧ ∃ last, chain.getLast? = some last ∧ last ∈ chain.dropLast

/-- A search may enter `name` behind `chain`: together they are a path, and an alias stands
    behind nothing. -/
structure Enters (file : TaskFile) (chain : List String) (name : String) : Prop where
  path : (chain ++ [name]).IsChain file.DependsOn
  known : chain = [] ∨ file.isAlias name = false

/-- The name of the task goes on the chain in place of the name that was entered. -/
theorem Enters.push {chain : List String} {name : String} {found : ResolvedTask}
    (h : file.Enters chain name) (hfound : file.resolve name = some found) :
    (chain ++ [found.qualified]).IsChain file.DependsOn := by
  rcases h.known with rfl | hknown
  · exact List.isChain_singleton _
  · have hname : found.qualified = name := by simpa [isAlias, hfound] using hknown
    rw [hname]
    exact h.path

/-- From the last task of a chain the search enters the names of its dependencies. -/
theorem enters_dependency {chain : List String} {source target : ResolvedTask}
    {dependency : String} (hpath : (chain ++ [source.qualified]).IsChain file.DependsOn)
    (hsource : file.resolve source.qualified = some source)
    (hmem : dependency ∈ source.task.dependencies)
    (htarget : file.resolveFrom source dependency = some target) :
    file.Enters (chain ++ [source.qualified]) target.qualified := by
  refine ⟨?_, Or.inr (isAlias_qualified (resolve_qualified_of_resolveFrom htarget))⟩
  refine hpath.append (List.isChain_singleton _) ?_
  intro last hlast first hfirst
  obtain rfl : source.qualified = last := by simpa using hlast
  obtain rfl : target.qualified = first := by simpa using hfirst
  exact dependsOn_of_resolveFrom hsource hmem htarget

/-- **REPORTED CHAINS ARE CYCLES**: a search that was entered along a path reports a path
    that closes a cycle. -/
theorem closesCycle_of_visit (file : TaskFile) :
    (∀ cleared chain name, file.Enters chain name →
      ∀ cycle, file.visit cleared chain name = .error cycle → file.ClosesCycle cycle) ∧
    ∀ source cleared chain dependencies,
      (∀ dependency ∈ dependencies, ∀ target,
        file.resolveFrom source dependency = some target →
          file.Enters chain target.qualified) →
      ∀ cycle, file.visitAll source cleared chain dependencies = .error cycle →
        file.ClosesCycle cycle := by
  refine visit.mutual_induct_unfolding file
    (fun _ chain name result => file.Enters chain name →
      ∀ cycle, result = .error cycle → file.ClosesCycle cycle)
    (fun source _ chain dependencies result =>
      (∀ dependency ∈ dependencies, ∀ target,
        file.resolveFrom source dependency = some target →
          file.Enters chain target.qualified) →
      ∀ cycle, result = .error cycle → file.ClosesCycle cycle)
    ?onChain ?cleared ?unknown ?reported ?passed ?nil ?skipped ?first ?rest
  case onChain =>
      intro cleared chain name hmem henters cycle h
      obtain rfl := Except.error.inj h
      exact ⟨henters.path, name, List.getLast?_concat, by rwa [List.dropLast_concat]⟩
  case cleared =>
      intro _ _ _ _ _ _ _ h
      cases h
  case unknown =>
      intro _ _ _ _ _ _ _ _ h
      cases h
  case reported =>
      intro cleared chain name _ _ source hsource _ inner hinner ih henters cycle h
      obtain rfl := Except.error.inj h
      refine ih ?_ inner hinner
      intro dependency hmem target htarget
      exact enters_dependency (henters.push hsource) (resolve_qualified hsource) hmem htarget
  case passed =>
      intro _ _ _ _ _ _ _ _ _ _ _ _ _ h
      cases h
  case nil =>
      intro _ _ _ _ _ h
      cases h
  case skipped =>
      intro source cleared chain dependency rest _ ih henters cycle h
      exact ih (fun other hother => henters other (List.mem_cons_of_mem _ hother)) cycle h
  case first =>
      intro source cleared chain dependency rest target htarget _ inner hinner ih henters cycle h
      obtain rfl := Except.error.inj h
      exact ih (henters dependency List.mem_cons_self target htarget) inner hinner
  case rest =>
      intro source cleared chain dependency rest target _ _ _ _ _ ih henters cycle h
      exact ih (fun other hother => henters other (List.mem_cons_of_mem _ hother)) cycle h

/-- A path that closes a cycle is the end of acyclicity. -/
theorem ClosesCycle.not_acyclic {chain : List String} (h : file.ClosesCycle chain) :
    ¬ file.Acyclic := by
  obtain ⟨hpath, last, hlast, hmem⟩ := h
  obtain ⟨front, rfl⟩ := List.getLast?_eq_some_iff.mp hlast
  rw [List.dropLast_concat] at hmem
  obtain ⟨before, between, rfl⟩ := List.append_of_mem hmem
  -- from the earlier occurrence on, the path leads from the name to itself
  have hloop : (last :: (between ++ [last])).IsChain file.DependsOn := by
    rw [List.append_assoc] at hpath
    exact hpath.right_of_append
  intro hacyclic
  refine hacyclic last ?_
  exact (hloop.imp fun _ _ => TransGen.single).rel_cons (by simp)

/-! ## The search from every listed name -/

theorem clear_of_visitNames {cleared names passed : List String}
    (hclear : ∀ name ∈ cleared, file.Clear name)
    (h : file.visitNames cleared names = .ok passed) : ∀ name ∈ names, file.Clear name := by
  induction names generalizing cleared with
  | nil => exact fun _ hmem => absurd hmem List.not_mem_nil
  | cons first rest ih =>
      rw [visitNames] at h
      cases hfirst : file.visit cleared [] first with
      | error cycle =>
          rw [hfirst] at h
          cases h
      | ok inner =>
          rw [hfirst] at h
          obtain ⟨hname, hinner⟩ := (clear_of_visit file).1 _ _ _ hclear inner hfirst
          intro name hmem
          rcases List.mem_cons.mp hmem with rfl | hmem
          · exact hname
          · exact ih hinner h name hmem

theorem closesCycle_of_visitNames {cleared names cycle : List String}
    (h : file.visitNames cleared names = .error cycle) : file.ClosesCycle cycle := by
  induction names generalizing cleared with
  | nil => cases h
  | cons first rest ih =>
      rw [visitNames] at h
      cases hfirst : file.visit cleared [] first with
      | error inner =>
          rw [hfirst] at h
          obtain rfl := Except.error.inj h
          refine (closesCycle_of_visit file).1 cleared [] first ?_ inner hfirst
          exact ⟨List.isChain_singleton _, Or.inl rfl⟩
      | ok inner =>
          rw [hfirst] at h
          exact ih h

/-! ## The check -/

/-- A file that passes the check lists no name twice, and none of its names reaches a cycle. -/
theorem clear_of_validate (h : file.validate = .ok ()) :
    file.names.Nodup ∧ ∀ name ∈ file.names, file.Clear name := by
  rw [validate] at h
  cases hrepeated : firstRepeated? [] file.names with
  | some name =>
      rw [hrepeated] at h
      cases h
  | none =>
      rw [hrepeated] at h
      refine ⟨((firstRepeated?_eq_none_iff [] _).mp hrepeated).1, ?_⟩
      cases hsearch : file.visitNames [] file.names with
      | error cycle =>
          simp only [hsearch] at h
          cases h
      | ok passed => exact clear_of_visitNames (fun _ hmem => absurd hmem List.not_mem_nil) hsearch

theorem acyclic_of_validate (h : file.validate = .ok ()) : file.Acyclic :=
  acyclic_of_clear_names (clear_of_validate h).2

/-- What the check reports is a name that is listed twice, or a path that closes a cycle. -/
theorem reported_of_validate {e : ConfigError} (h : file.validate = .error e) :
    (∃ name, e = .duplicateTask name ∧ 2 ≤ file.names.count name) ∨
      ∃ chain, e = .circularDependency chain ∧ file.ClosesCycle chain := by
  rw [validate] at h
  cases hrepeated : firstRepeated? [] file.names with
  | some name =>
      rw [hrepeated] at h
      refine Or.inl ⟨name, (Except.error.inj h).symm, ?_⟩
      rcases count_of_firstRepeated? hrepeated with ⟨hmem, -⟩ | htwice
      · cases hmem
      · exact htwice
  | none =>
      rw [hrepeated] at h
      cases hsearch : file.visitNames [] file.names with
      | error cycle =>
          simp only [hsearch] at h
          exact Or.inr ⟨cycle, (Except.error.inj h).symm, closesCycle_of_visitNames hsearch⟩
      | ok passed =>
          simp only [hsearch] at h
          cases h

/-- A file whose tasks do not depend on anything passes if no name is listed twice. -/
theorem validate_of_no_dependencies (hnodup : file.names.Nodup)
    (hnone : ∀ entry ∈ file.qualifiedTasks, entry.2.dependencies = []) :
    file.validate = .ok () := by
  have hleaf : ∀ name next, ¬ file.DependsOn name next := by
    rintro name next ⟨source, hsource, dependency, hmem, -⟩
    rw [hnone _ (mem_qualifiedTasks_of_resolve hsource)] at hmem
    cases hmem
  have hacyclic : file.Acyclic := by
    intro name hcycle
    obtain ⟨next, hstep, -⟩ := TransGen.head'_iff.mp hcycle
    exact hleaf name next hstep
  cases hcheck : file.validate with
  | ok passed => rfl
  | error e =>
      rcases reported_of_validate hcheck with ⟨name, -, htwice⟩ | ⟨chain, -, hcloses⟩
      · exact absurd (List.nodup_iff_count_le_one.mp hnodup name) (Nat.not_le.mpr htwice)
      · exact absurd hacyclic hcloses.not_acyclic

/-- **THE CHECK IS EXACT**: a file passes if and only if no name is listed twice and no name
    leads back to itself.  Of a file that does not pass, the check names a name that is
    listed twice, or a path of dependencies whose last name stands on it before, written
    with arrows. -/
theorem validate_exact (file : TaskFile) :
    (file.validate = .ok () ↔
      (file.qualifiedTasks.map (·.1)).Nodup ∧
        ∀ name, ¬ TransGen file.DependsOn name name) ∧
    ∀ e, file.validate = .error e →
      (∃ name, e = .duplicateTask name ∧ 2 ≤ (file.qualifiedTasks.map (·.1)).count name) ∨
      ∃ chain, e = .circularDependency chain ∧
        e.message = "Circular dependency detected: " ++ " -> ".intercalate chain ∧
        chain.IsChain file.DependsOn ∧
        ∃ last, chain.getLast? = some last ∧ last ∈ chain.dropLast := by
  refine ⟨⟨fun h => ⟨(clear_of_validate h).1, acyclic_of_validate h⟩, ?_⟩, ?_⟩
  · rintro ⟨hnodup, hacyclic⟩
    cases hresult : file.validate with
    | ok => rfl
    | error e =>
        rcases reported_of_validate hresult with ⟨name, -, htwice⟩ | ⟨chain, -, hcycle⟩
        · have honce := List.nodup_iff_count_le_one.mp hnodup name
          exact absurd (Nat.le_trans htwice honce) (by decide)
        · exact absurd hacyclic hcycle.not_acyclic
  · intro e h
    rcases reported_of_validate h with hname | ⟨chain, rfl, hpath, hlast⟩
    · exact Or.inl hname
    · exact Or.inr ⟨chain, rfl, rfl, hpath, hlast⟩

end TaskFile

end TaskRunner
