import TaskRunner.Files.Glob
import TaskRunner.TaskFile.Parser
import TaskRunner.TaskFile.Validation

/-!
# Loading a task file

A task file is looked for in a directory and then in its parents, one after the other.
Beside it, in a few directories, lie fragments. Loading reads the file, merges the
fragments behind it in the order of their paths, and checks the result. A fragment
that cannot be read is left out with a warning; nothing else is done about it.
-/

namespace TaskRunner

/-- The name of a task file. -/
def taskFileName : String := "Quakefile"

/-- The directories beside a task file that hold its fragments. -/
def fragmentDirs : List String := ["qtasks", "lib/qtasks", "internal/qtasks"]

/-- The names of fragments, as a pattern. -/
def fragmentPattern : String := "*.quake"

/-- What is passed over while a task file is loaded. -/
inductive LoadWarning
  | invalidPattern (pattern : String) (error : PatternError)
  | skipped (path : Path) (error : ConfigError)
deriving DecidableEq, Repr

/-- What is passed over, as one line. -/
def LoadWarning.message : LoadWarning → String
  | .invalidPattern .. => "invalid fragment pattern"
  | .skipped path e => "skipping " ++ path.display ++ ": " ++ e.message

-- ── Finding ──────────────────────────────────────────────────────────────────

/-- Looks for a task file in a directory and its parents, where `searched` was looked at before. -/
def searchTaskFile (files : Files) (searched : List String) (dir : Path) :
    Except ConfigError Path :=
  let candidate := dir.child taskFileName
  if files.isFile candidate then .ok candidate
  else
    match h : dir.parent with
    | none => .error (.notFound (searched ++ [candidate.display]))
    | some up =>
      have : up.text.length < dir.text.length := Path.length_parent_lt h
      searchTaskFile files (searched ++ [candidate.display]) up
termination_by dir.text.length

/-- Looks for a task file in a directory and its parents. -/
def findTaskFile (files : Files) (dir : Path) : Except ConfigError Path :=
  searchTaskFile files [] dir

/-- The files that a pattern leads to, and a warning if it is none. -/
def filesMatching (files : Files) (pattern : Path) : List Path × List LoadWarning :=
  match PathPattern.parse pattern.text with
  | .error e => ([], [.invalidPattern pattern.display e])
  | .ok parsed => ((files.glob parsed).filter files.isFile, [])

/-- The fragments beside the task file at a path, in the order of their paths. -/
def findFragments (files : Files) (path : Path) : List Path × List LoadWarning :=
  let base := path.parent.getD (.ofString ".")
  let found := fragmentDirs.map fun dir =>
    filesMatching files ((base.child dir).child fragmentPattern)
  ((found.flatMap (·.1)).mergeSort Path.le, found.flatMap (·.2))

-- ── Reading ──────────────────────────────────────────────────────────────────

/-- The task with the file that declares it. -/
def Task.declaredIn (source : String) (task : Task) : Task := { task with source := some source }

mutual

/-- The namespace, where all tasks at any depth have the file that declares them. -/
def Namespace.declaredIn (source : String) : Namespace → Namespace
  | ⟨name, tasks, vars, namespaces⟩ =>
    ⟨name, tasks.map (Task.declaredIn source), vars, namespacesDeclaredIn source namespaces⟩

/-- The same for the namespaces of a list. -/
def namespacesDeclaredIn (source : String) : List Namespace → List Namespace
  | [] => []
  | ns :: rest => ns.declaredIn source :: namespacesDeclaredIn source rest

end

/-- The task file, where all tasks at any depth have the file that declares them. -/
def TaskFile.declaredIn (source : String) (file : TaskFile) : TaskFile :=
  { file with
    tasks := file.tasks.map (Task.declaredIn source)
    namespaces := namespacesDeclaredIn source file.namespaces }

/-- Reads one task file. -/
def readTaskFile (files : Files) (path : Path) : Except ConfigError TaskFile :=
  match files.readText path with
  | .error e => .error (.unreadable path.display e)
  | .ok source =>
    match TaskFile.parse source with
    | .error e => .error (.malformed path.display e)
    | .ok file => .ok (file.declaredIn path.display)

/-- Merges the fragments that can be read behind a task file, in order, with a warning for each
other one. -/
def mergeFragments (files : Files) (file : TaskFile) : List Path → TaskFile × List LoadWarning
  | [] => (file, [])
  | path :: rest =>
    match readTaskFile files path with
    | .ok fragment => mergeFragments files (file.merge fragment) rest
    | .error e =>
      let merged := mergeFragments files file rest
      (merged.1, .skipped path e :: merged.2)

/-- Reads the task file at a path with its fragments and checks it. -/
def loadTaskFile (files : Files) (path : Path) : Except ConfigError TaskFile × List LoadWarning :=
  match readTaskFile files path with
  | .error e => (.error e, [])
  | .ok primary =>
    let fragments := findFragments files path
    let merged := mergeFragments files primary fragments.1
    (merged.1.validate.map fun _ => merged.1, fragments.2 ++ merged.2)

end TaskRunner
