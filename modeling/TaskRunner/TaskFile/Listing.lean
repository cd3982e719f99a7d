import TaskRunner.TaskFile.Basic

/-!
# The listing of a task file

One line per task: its qualified name in a column of twenty characters, the first
line of its description, and on request the file that declares it.
-/

namespace TaskRunner

/-- The width of the column of names, in characters. -/
def nameColumnWidth : Nat := 20

/-- The string with spaces behind it up to a width in characters; longer strings stay. -/
def padEnd (width : Nat) (s : String) : String :=
  s ++ String.ofList (List.replicate (width - s.length) ' ')

/-- The line of one task. -/
def listingLine (withSource : Bool) (entry : String × Task) : String :=
  let start := "  " ++ padEnd nameColumnWidth entry.1 ++ " " ++ entry.2.summary.getD ""
  let line := match withSource, entry.2.source with
    | true, some source => start ++ "  (" ++ source ++ ")"
    | _, _ => start
  trimmedEnd line ++ "\n"

/-- The listing of all tasks; with their files on request. -/
def TaskFile.listing (file : TaskFile) (withSource : Bool) : String :=
  "Available tasks:\n" ++ String.join (file.qualifiedTasks.map (listingLine withSource))

end TaskRunner
