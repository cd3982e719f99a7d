import TaskRunner.Command.Basic
import TaskRunner.Text.Blank

/-!
# Task files

A task file declares variables, tasks and namespaces, in any order, and may name a
namespace of its own. Namespaces hold the same things again. Every task has a
qualified name, the names of the namespaces around it and its own, joined by colons;
`TaskFile.qualifiedTasks` lists all tasks under their qualified names.

`TaskFile.merge` adds the declarations of a fragment: the fragment's own namespace
goes in front of the names of its top-level tasks.
-/

namespace TaskRunner

-- ── Declarations ─────────────────────────────────────────────────────────────

/-- The right-hand side of a variable: a quoted string with its escapes, a command whose output is
the value, an expression, or a block of lines as it stands. -/
inductive Value
  | literal (value : String)
  | substitution (command : String)
  | expression (expression : Expression)
  | multiline (value : String)
deriving DecidableEq, Repr, Inhabited

/-- A variable and what it is set to. -/
structure Variable where
  name : String
  value : Value
deriving DecidableEq, Repr, Inhabited

/-- Who runs a task that has no commands here: a program with arguments, as one line, and the
directory the task was found in. -/
structure Dispatch where
  dispatcher : String
  sourceDir : Option String
deriving DecidableEq, Repr, Inhabited

/-- A task. `source` is the file that declares it, and `home` the namespace of the fragment it came
with. -/
structure Task where
  name : String
  description : Option String := none
  arguments : List String := []
  dependencies : List String := []
  commands : List Command := []
  dispatch : Option Dispatch := none
  source : Option String := none
  home : Option String := none
deriving DecidableEq, Repr, Inhabited

/-- A namespace block. -/
structure Namespace where
  name : String
  tasks : List Task := []
  vars : List Variable := []
  namespaces : List Namespace := []
deriving Repr, Inhabited

/-- All that a task file declares; `fileNamespace` is the namespace of the file itself. -/
structure TaskFile where
  tasks : List Task := []
  namespaces : List Namespace := []
  vars : List Variable := []
  fileNamespace : Option String := none
deriving Repr, Inhabited

-- ── Qualified names ──────────────────────────────────────────────────────────

/-- A name inside a namespace. -/
def qualify (path name : String) : String := path ++ ":" ++ name

mutual

/-- The tasks of a namespace under their qualified names, its own first, where `path` is the
qualified name of the namespace. -/
def Namespace.qualifiedTasks (path : String) : Namespace → List (String × Task)
  | ⟨_, tasks, _, namespaces⟩ =>
    tasks.map (fun task => (qualify path task.name, task)) ++ qualifiedTasksIn path namespaces

/-- The tasks of the namespaces below `path`, namespace by namespace. -/
def qualifiedTasksIn (path : String) : List Namespace → List (String × Task)
  | [] => []
  | ns :: rest => ns.qualifiedTasks (qualify path ns.name) ++ qualifiedTasksIn path rest

end

namespace TaskFile

/-- All tasks under their qualified names: top-level tasks first, then the namespaces depth
first. -/
def qualifiedTasks (file : TaskFile) : List (String × Task) :=
  file.tasks.map (fun task => (task.name, task))
    ++ file.namespaces.flatMap fun ns => ns.qualifiedTasks ns.name

/-- The qualified names, in the order of the tasks. -/
def names (file : TaskFile) : List String := file.qualifiedTasks.map (·.1)

/-- A top-level task of a fragment as it is called in the whole file. -/
def adopt (fileNamespace : Option String) (task : Task) : Task :=
  match fileNamespace with
  | none => task
  | some ns => { task with name := qualify ns task.name, home := some ns }

/-- The file with the declarations of `fragment` behind its own. -/
def merge (file fragment : TaskFile) : TaskFile :=
  { file with
    tasks := file.tasks ++ fragment.tasks.map (adopt fragment.fileNamespace)
    vars := file.vars ++ fragment.vars
    namespaces := file.namespaces ++ fragment.namespaces }

end TaskFile

/-- The first line of a task's description that says something. -/
def Task.summary (task : Task) : Option String :=
  task.description.bind fun text =>
    (Text.lines text.toList).findSome? fun line =>
      if (Text.trim line).isEmpty then none else some (String.ofList (Text.trim line))

end TaskRunner
