import TaskRunner.TaskFile.ConfigError

/-!
# Checking a task file

Two checks need the whole file. Every task must be listed under a name of its own
(`firstRepeated?`), and no task may depend on itself, directly or through others
(`findCycle`). Dependencies that mean no task are files and are not followed.

The search for a cycle goes depth first from every listed name. It keeps the names of
the tasks on the way to where it is, and the names from which it found no cycle, which
it does not enter again. A listed name may be an alias: then the way starts with the
name of the task that it means, and all later names are those of tasks. What the search
reports is the way up to and with the name that was met twice.
-/

namespace TaskRunner

/-- The first entry of a list that occurred before, where `seen` came earlier. -/
def firstRepeated? (seen : List String) : List String → Option String
  | [] => none
  | name :: rest => if name ∈ seen then some name else firstRepeated? (name :: seen) rest

namespace TaskFile

/-- A name that means a task known by another name. -/
def isAlias (file : TaskFile) (name : String) : Bool :=
  match file.resolve name with
  | none => false
  | some found => found.qualified != name

theorem isAlias_qualified {file : TaskFile} {found : ResolvedTask}
    (h : file.resolve found.qualified = some found) : file.isAlias found.qualified = false := by
  simp [isAlias, h]

/-- Putting the task that a new name means on a chain leaves fewer names, unless the name is an
alias. -/
theorem remaining_visit {file : TaskFile} {chain : List String} {name : String}
    {found : ResolvedTask} (h : file.resolve name = some found) (hnew : name ∉ chain) :
    file.remaining (chain ++ [found.qualified]) < file.remaining chain ∨
      file.remaining (chain ++ [found.qualified]) = file.remaining chain ∧
        file.isAlias name = true := by
  by_cases halias : found.qualified = name
  · exact Or.inl (remaining_concat_lt (qualified_mem_names h) (halias ▸ hnew))
  · have hle := file.remaining_concat_le chain found.qualified
    rcases Nat.lt_or_eq_of_le hle with hlt | heq
    · exact Or.inl hlt
    · exact Or.inr ⟨heq, by simpa [isAlias, h] using halias⟩

mutual

/-- Searches for a cycle from a name that is reached by `chain`, where none starts from `cleared`.
Gives the names that no cycle starts from, or the chain that closes one. The name is cleared as it
stands, but it is the name of its task that goes on the chain. -/
def visit (file : TaskFile) (cleared chain : List String) (name : String) :
    Except (List String) (List String) :=
  if onChain : name ∈ chain then .error (chain ++ [name])
  else if name ∈ cleared then .ok cleared
  else
    match h : file.resolve name with
    | none => .ok cleared
    | some found =>
      have := remaining_visit h onChain
      match file.visitAll found cleared (chain ++ [found.qualified]) found.task.dependencies with
      | .error cycle => .error cycle
      | .ok cleared => .ok (name :: cleared)
termination_by (file.remaining chain, (file.isAlias name).toNat * 2, 0)
decreasing_by
  rcases this with hlt | ⟨heq, halias⟩
  · exact Prod.Lex.left _ _ hlt
  · rw [heq, halias]
    exact Prod.Lex.right _ (Prod.Lex.left _ _ Nat.one_lt_two)

/-- Searches for a cycle from each of the dependencies of `source` that means a task. -/
def visitAll (file : TaskFile) (source : ResolvedTask) (cleared chain : List String) :
    List String → Except (List String) (List String)
  | [] => .ok cleared
  | dependency :: rest =>
    match h : file.resolveFrom source dependency with
    | none => file.visitAll source cleared chain rest
    | some target =>
      have := isAlias_qualified (resolve_qualified_of_resolveFrom h)
      match file.visit cleared chain target.qualified with
      | .error cycle => .error cycle
      | .ok cleared => file.visitAll source cleared chain rest
termination_by dependencies => (file.remaining chain, 1, dependencies.length)
decreasing_by
  · exact Prod.Lex.right _ (Prod.Lex.right _ (Nat.lt_succ_self _))
  · rw [this]
    exact Prod.Lex.right _ (Prod.Lex.left _ _ Nat.one_pos)
  · exact Prod.Lex.right _ (Prod.Lex.right _ (Nat.lt_succ_self _))

end

/-- Searches for a cycle from each of the names. -/
def visitNames (file : TaskFile) (cleared : List String) :
    List String → Except (List String) (List String)
  | [] => .ok cleared
  | name :: rest =>
    match file.visit cleared [] name with
    | .error cycle => .error cycle
    | .ok cleared => file.visitNames cleared rest

/-- Checks that every task has a name of its own and none depends on itself. -/
def validate (file : TaskFile) : Except ConfigError Unit :=
  match firstRepeated? [] file.names with
  | some name => .error (.duplicateTask name)
  | none =>
    match file.visitNames [] file.names with
    | .error cycle => .error (.circularDependency cycle)
    | .ok _ => .ok ()

end TaskFile

end TaskRunner
