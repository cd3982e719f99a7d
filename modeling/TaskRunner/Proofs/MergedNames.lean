import TaskRunner.Proofs.Composition
import TaskRunner.Proofs.ListedTasks

/-! # What names mean in a merged file

    Merging puts the tasks and the namespaces of a fragment behind those of the file, and
    every search takes the first that fits.  So a task that was found at the top is found
    there again (`findTask?_merge`), and one that was found by a walk is at the end of the
    same walk (`resolvePath_merge`).

    What may come between is a rule that is tried earlier and now fits.  A walk can only
    be forestalled by a task of the same listed name, which the check refuses, or by an
    alias, for which a text that has namespace blocks has no namespace of its own
    (`namespaces_of_parse`).  But an alias can be forestalled: it is listed nowhere, so
    the check lets a fragment's task have that name.  **`merging_keeps_names`** says that
    this is the only name whose meaning changes; `merging_may_take_aliases` has such a
    name. -/

namespace TaskRunner

/-! ## Texts with a namespace of their own have no namespace blocks -/

namespace Nesting

/-- A file that has a namespace of its own has no namespace blocks, and none is open. -/
def OneForm (n : Nesting) : Prop :=
  n.file.fileNamespace ≠ none → n.file.namespaces = [] ∧ n.blocks = []

theorem OneForm.add {n m : Nesting} {item : Item} (h : n.add item = .ok m) (hn : n.OneForm) :
    m.OneForm := by
  intro hm
  obtain ⟨⟨tasks, namespaces, vars, own⟩, blocks⟩ := n
  cases item with
  | «variable» v =>
      cases blocks <;> cases h
      · exact hn hm
      · exact absurd (hn hm).2 (List.cons_ne_nil _ _)
  | task task =>
      cases blocks <;> cases h
      · exact hn hm
      · exact absurd (hn hm).2 (List.cons_ne_nil _ _)
  | opening name start brace =>
      cases blocks with
      | nil =>
          cases own <;> cases h
          exact absurd rfl hm
      | cons block outer =>
          cases h
          exact absurd (hn hm).2 (List.cons_ne_nil _ _)
  | closing place =>
      cases blocks with
      | nil => cases h
      | cons block outer =>
          have hown : own = none := by
            by_contra hown
            exact absurd (hn hown).2 (List.cons_ne_nil _ _)
          rcases outer with _ | ⟨parent, outer⟩ <;> cases h <;> exact absurd hown hm
  | fileNamespace name start after =>
      cases blocks <;> cases own <;> cases namespaces <;> cases h
      exact ⟨rfl, rfl⟩

theorem OneForm.addAll {found : List Item} {n m : Nesting} (h : n.addAll found = .ok m)
    (hn : n.OneForm) : m.OneForm := by
  induction found generalizing n with
  | nil =>
      cases h
      exact hn
  | cons item found ih =>
      rw [Nesting.addAll] at h
      cases hitem : n.add item with
      | error e =>
          rw [hitem] at h
          cases h
      | ok next =>
          rw [hitem] at h
          exact ih h (hn.add hitem)

end Nesting

namespace TaskFile

theorem namespaces_of_parse {source : String} {file : TaskFile} (h : parse source = .ok file)
    (hown : file.fileNamespace ≠ none) : file.namespaces = [] := by
  obtain ⟨found, -, hadd⟩ := read_eq_ok_iff.mp (parse_eq_ok_iff.mp h)
  have hempty : Nesting.empty.OneForm := fun hnone => absurd rfl hnone
  exact ((hempty.addAll hadd) hown).1

/-! ## The same task in the merged file -/

variable {file fragment : TaskFile} {name : String} {found : ResolvedTask}

/-- The first task of a name is still the first. -/
theorem findTask?_merge {task : Task} (h : findTask? file.tasks name = some task) :
    findTask? (file.merge fragment).tasks name = some task := by
  show List.find? _ (file.tasks ++ _) = _
  rw [List.find?_append, show file.tasks.find? _ = some task from h]
  rfl

theorem findTask?_merge_of_none (h : findTask? file.tasks name = none) :
    findTask? (file.merge fragment).tasks name
      = findTask? (fragment.tasks.map (adopt fragment.fileNamespace)) name := by
  show List.find? _ (file.tasks ++ _) = _
  rw [List.find?_append, show file.tasks.find? _ = none from h]
  rfl

theorem walk_append {namespaces scopes : List Namespace} {path : List String}
    (h : walk namespaces path = some scopes) (more : List Namespace) :
    walk (namespaces ++ more) path = some scopes := by
  cases path with
  | nil => exact h
  | cons name path =>
      rw [walk] at h ⊢
      cases hfound : findNamespace? namespaces name with
      | none =>
          rw [hfound] at h
          cases h
      | some ns =>
          rw [hfound] at h
          have hfirst : findNamespace? (namespaces ++ more) name = some ns := by
            rw [findNamespace?, List.find?_append, ← findNamespace?, hfound]
            rfl
          rw [hfirst]
          exact h

theorem resolvePath_merge (h : file.resolvePath name = some found) :
    (file.merge fragment).resolvePath name = some found := by
  obtain ⟨last, own, hwalk, hlast, hown, htask, hname⟩ := walk_of_resolvePath h
  have hmerged : walk (file.merge fragment).namespaces (segments name).dropLast
      = some found.scopes := walk_append hwalk fragment.namespaces
  rw [resolvePath, hmerged]
  dsimp only
  rw [hlast, hown]
  dsimp only
  rw [htask, ← hname]
  rfl

/-- Where there are no namespaces a walk goes nowhere. -/
theorem scopes_of_walk_nil {scopes : List Namespace} {path : List String}
    (h : walk [] path = some scopes) : scopes = [] := by
  cases path with
  | nil => exact (Option.some.inj h).symm
  | cons name path => cases h

/-- What a path leads to is inside namespaces. -/
theorem scopes_of_resolvePath (h : file.resolvePath name = some found) : found.scopes ≠ [] := by
  obtain ⟨last, own, -, hlast, -⟩ := walk_of_resolvePath h
  intro hnil
  rw [hnil] at hlast
  cases hlast

/-- No earlier rule comes before a walk in a merged file that has passed the check, if the file has
no namespace of its own. -/
theorem resolve_merge_of_resolvePath (hnodup : (file.merge fragment).names.Nodup)
    (hown : file.fileNamespace = none) (h : file.resolvePath name = some found) :
    (file.merge fragment).resolve name = some found := by
  have hmerged : (file.merge fragment).resolvePath name = some found := resolvePath_merge h
  obtain ⟨hsite, hsegments⟩ := site_of_resolvePath hmerged
  have hname : Site.name ⟨found.scopes, found.task⟩ = name := by
    rw [Site.name, hsegments, joinSegments_segments]
  have htop : findTask? (file.merge fragment).tasks name = none := by
    have hnone := findTask_of_inside hnodup hsite (scopes_of_resolvePath h)
    rwa [hname] at hnone
  have halias : (file.merge fragment).resolveAlias name = none := by
    rw [resolveAlias, show (file.merge fragment).fileNamespace = none from hown]
    split <;> rfl
  rw [resolve, htop, halias]
  exact hmerged

/-! ## Aliases in the merged file -/

/-- A path with one more segment in front. -/
theorem joinSegments_cons_cons (first second : String) (rest : List String) :
    joinSegments (first :: second :: rest) = qualify first (joinSegments (second :: rest)) := by
  apply String.toList_injective
  simp [joinSegments, qualify, List.intercalate]

/-- An alias is the file's own namespace, a colon, and the name of the top-level task that it
means. -/
theorem name_of_resolveAlias (h : file.resolveAlias name = some found) :
    ∃ ns, file.fileNamespace = some ns ∧ name = qualify ns found.qualified ∧
      found.scopes = [] := by
  rw [resolveAlias] at h
  split at h
  · rename_i head first rest hsegments
    by_cases hown : file.fileNamespace = some head
    · rw [if_pos hown] at h
      obtain ⟨task, -, rfl⟩ := Option.map_eq_some_iff.mp h
      refine ⟨head, hown, ?_, rfl⟩
      rw [← joinSegments_segments name, hsegments]
      exact joinSegments_cons_cons head first rest
    · rw [if_neg hown] at h
      cases h
  · cases h

theorem resolveAlias_merge (h : file.resolveAlias name = some found) :
    (file.merge fragment).resolveAlias name = some found := by
  rw [resolveAlias] at h ⊢
  split at h
  · rename_i head first rest hsegments
    by_cases hown : file.fileNamespace = some head
    · rw [if_pos hown] at h
      obtain ⟨task, htask, rfl⟩ := Option.map_eq_some_iff.mp h
      rw [if_pos (show (file.merge fragment).fileNamespace = some head from hown),
        findTask?_merge htask]
      rfl
    · rw [if_neg hown] at h
      cases h
  · cases h

/-- An alias keeps its meaning, unless a task of the fragment is called so. -/
theorem resolve_merge_of_resolveAlias (htop : findTask? file.tasks name = none)
    (h : file.resolveAlias name = some found) :
    (file.merge fragment).resolve name = some found ∨
      ∃ task ∈ fragment.tasks, (adopt fragment.fileNamespace task).name = name ∧
        (file.merge fragment).resolve name
          = some ⟨name, adopt fragment.fileNamespace task, []⟩ := by
  cases hmerged : findTask? (file.merge fragment).tasks name with
  | none =>
      refine Or.inl ?_
      rw [resolve, hmerged, resolveAlias_merge h]
  | some adopted =>
      refine Or.inr ?_
      rw [findTask?_merge_of_none htop] at hmerged
      obtain ⟨hmem, hname⟩ := mem_of_findTask hmerged
      obtain ⟨task, htask, rfl⟩ := List.mem_map.mp hmem
      refine ⟨task, htask, hname, ?_⟩
      rw [← findTask?_merge_of_none htop] at hmerged
      exact resolve_of_findTask hmerged

/-! ## All names in the merged file -/

/-- A top-level task of the fragment is found under the name that it has in the merged file. -/
theorem resolve_merge_of_fragment (hnodup : (file.merge fragment).names.Nodup) {task : Task}
    (h : task ∈ fragment.tasks) :
    (file.merge fragment).resolve (adopt fragment.fileNamespace task).name
      = some ⟨(adopt fragment.fileNamespace task).name, adopt fragment.fileNamespace task, []⟩ := by
  have hmem : adopt fragment.fileNamespace task ∈ (file.merge fragment).tasks :=
    List.mem_append_right _ (List.mem_map.mpr ⟨task, h, rfl⟩)
  have hfound := resolve_of_top hnodup (mem_sites_of_task hmem) rfl
  rwa [show Site.name ⟨[], adopt fragment.fileNamespace task⟩ = _
    from joinSegments_singleton _] at hfound

theorem qualify_ne (ns name : String) : qualify ns name ≠ name := by
  intro h
  have hlength := congrArg (fun s : String => s.toList.length) h
  simp only [qualify, String.toList_append, List.length_append] at hlength
  have hcolon : (":" : String).toList.length = 1 := rfl
  omega

/-- What a name means in the file, it means in the merged file, unless the fragment takes it from an
alias. -/
theorem resolve_merge (hnodup : (file.merge fragment).names.Nodup)
    (hform : file.fileNamespace ≠ none → file.namespaces = [])
    (h : file.resolve name = some found) :
    (file.merge fragment).resolve name = some found ∨
      ∃ ns task, file.fileNamespace = some ns ∧ name = qualify ns found.qualified ∧
        task ∈ fragment.tasks ∧ (adopt fragment.fileNamespace task).name = name ∧
        (file.merge fragment).resolve name
          = some ⟨name, adopt fragment.fileNamespace task, []⟩ := by
  rw [resolve] at h
  cases htop : findTask? file.tasks name with
  | some task =>
      rw [htop] at h
      obtain rfl := Option.some.inj h
      exact Or.inl (resolve_of_findTask (findTask?_merge htop))
  | none =>
      rw [htop] at h
      cases halias : file.resolveAlias name with
      | some meant =>
          rw [halias] at h
          obtain rfl := Option.some.inj h
          obtain ⟨ns, hown, hname, -⟩ := name_of_resolveAlias halias
          rcases resolve_merge_of_resolveAlias htop halias with hsame | ⟨task, htask, htaken⟩
          · exact Or.inl hsame
          · exact Or.inr ⟨ns, task, hown, hname, htask, htaken⟩
      | none =>
          rw [halias] at h
          have hown : file.fileNamespace = none := by
            by_contra hown
            obtain ⟨-, -, hwalk, -⟩ := walk_of_resolvePath h
            rw [hform hown] at hwalk
            exact scopes_of_resolvePath h (scopes_of_walk_nil hwalk)
          exact Or.inl (resolve_merge_of_resolvePath hnodup hown h)

/-- **MERGING KEEPS NAMES**: if a text with a fragment merged in passes the check, then every name
    that means a task of the text means that very task in the merged file, known by the same
    name and in the same namespaces, unless it is an alias, and the name of a top-level task
    that comes with the fragment; then it means that one.  The name that a task is known by
    always keeps its meaning, and every top-level task of the fragment is found under its
    own name, behind the fragment's namespace and a colon if the fragment has one. -/
theorem merging_keeps_names {source : String} {file : TaskFile} (fragment : TaskFile)
    (hparse : parse source = .ok file) (hvalid : (file.merge fragment).validate = .ok ()) :
    (∀ name found, file.resolve name = some found →
      ((file.merge fragment).resolve name = some found ∨
        ∃ ns task, file.fileNamespace = some ns ∧ name = ns ++ ":" ++ found.qualified ∧
          task ∈ fragment.tasks ∧ (adopt fragment.fileNamespace task).name = name ∧
          (file.merge fragment).resolve name
            = some ⟨name, adopt fragment.fileNamespace task, []⟩) ∧
      (file.merge fragment).resolve found.qualified = some found) ∧
    ∀ task ∈ fragment.tasks,
      (fragment.fileNamespace = none →
        (file.merge fragment).resolve task.name = some ⟨task.name, task, []⟩) ∧
      ∀ ns, fragment.fileNamespace = some ns →
        (file.merge fragment).resolve (ns ++ ":" ++ task.name)
          = some ⟨ns ++ ":" ++ task.name,
              { task with name := ns ++ ":" ++ task.name, home := some ns }, []⟩ := by
  have hnodup := (clear_of_validate hvalid).1
  have hform := namespaces_of_parse hparse
  refine ⟨fun name found hfound => ⟨resolve_merge hnodup hform hfound, ?_⟩, fun task htask => ?_⟩
  · rcases resolve_merge hnodup hform (resolve_qualified hfound) with hsame | ⟨ns, -, -, hname, -⟩
    · exact hsame
    · exact absurd hname.symm (qualify_ne ns found.qualified)
  · have hadopted := resolve_merge_of_fragment hnodup htask
    constructor
    · intro hnone
      rwa [hnone] at hadopted
    · intro ns hsome
      rwa [hsome] at hadopted

/-! ## A name that is kept and a name that is taken -/

/-- A text with a namespace of its own and one task. -/
def tools : TaskFile := { tasks := [{ name := "fmt" }], fileNamespace := some "tools" }

/-- A fragment with a namespace of its own and a task of the same name. -/
def docs : TaskFile := { tasks := [{ name := "fmt" }], fileNamespace := some "docs" }

theorem parse_tools : parse "namespace tools\ntask fmt" = .ok tools := by
  rewrite [parse, read,
    items_cons (by cbv) (by decide) (by cbv) (by cbv),
    items_cons (by cbv) (by decide) (by cbv) (by cbv),
    items_of_blank (by cbv)]
  rfl

/-- The alias of the file's task keeps its meaning, and the fragment's task has a name of its own. -/
theorem tools_keep_names :
    (tools.merge docs).validate = .ok () ∧
      (tools.merge docs).resolve "tools:fmt" = some ⟨"fmt", { name := "fmt" }, []⟩ ∧
      (tools.merge docs).resolve "docs:fmt"
        = some ⟨"docs:fmt", { name := "docs:fmt", home := some "docs" }, []⟩ := by
  have hvalid : (tools.merge docs).validate = .ok () :=
    validate_of_no_dependencies (by decide) (by decide)
  obtain ⟨hkept, hfragment⟩ := merging_keeps_names docs parse_tools hvalid
  have halias : tools.resolve "tools:fmt" = some ⟨"fmt", { name := "fmt" }, []⟩ := by cbv
  refine ⟨hvalid, ?_, (hfragment { name := "fmt" } List.mem_cons_self).2 "docs" rfl⟩
  rcases (hkept _ _ halias).1 with hsame | ⟨ns, task, -, -, htask, hname, -⟩
  · exact hsame
  · obtain rfl := List.mem_singleton.mp htask
    exact absurd hname (by decide)

/-- A fragment with a task that is called like an alias. -/
def taking : TaskFile := { tasks := [{ name := "tools:fmt" }] }

theorem parse_taking : parse "task tools:fmt" = .ok taking := by
  rewrite [parse, read,
    items_cons (by cbv) (by decide) (by cbv) (by cbv),
    items_of_blank (by cbv)]
  rfl

/-- A name can change its meaning: the alias of a task is taken by a fragment's task that is called
so. -/
theorem merging_may_take_aliases :
    ¬ ∀ (source source' : String) (file fragment : TaskFile),
      parse source = .ok file → parse source' = .ok fragment →
      (file.merge fragment).validate = .ok () →
      ∀ name found, file.resolve name = some found →
        ∃ found', (file.merge fragment).resolve name = some found' ∧
          found'.task = found.task := by
  intro hall
  have hvalid : (tools.merge taking).validate = .ok () :=
    validate_of_no_dependencies (by decide) (by decide)
  have halias : tools.resolve "tools:fmt" = some ⟨"fmt", { name := "fmt" }, []⟩ := by cbv
  have htaken : (tools.merge taking).resolve "tools:fmt"
      = some ⟨"tools:fmt", { name := "tools:fmt" }, []⟩ := by cbv
  obtain ⟨found, hfound, hsame⟩ :=
    hall _ _ tools taking parse_tools parse_taking hvalid _ _ halias
  obtain rfl := Option.some.inj (htaken.symm.trans hfound)
  exact absurd hsame (by decide)

end TaskFile

end TaskRunner
