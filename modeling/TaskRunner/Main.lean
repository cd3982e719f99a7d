import TaskRunner.CommandLine
import TaskRunner.Rehearsal

/-!
# The command

The command runs the program as a rehearsal: commands are written as they would be
run, and taken to end well without output. The files that the program may see are
those whose absolute paths stand on the standard input, one on each line; the
variables and the working directory are those of the process.
-/

namespace TaskRunner.Main

/-- The octets of a file that the system keeps. -/
def octetsAt (path : String) : IO Octets := return (← IO.FS.readBinFile path).toList

/-- The environment of the process, where the system shows it. -/
def readEnvironment : IO Environment := do
  let content ← try octetsAt "/proc/self/environ" catch _ => pure []
  let lines := (Utf8.decodeLossy content).splitOn '\x00'
  return .ofStrings ((lines.filter (!·.isEmpty)).map String.ofList)

/-- The paths on a stream, one on each line. -/
partial def readPaths (input : IO.FS.Stream) : IO (List String) := do
  let line ← input.getLine
  if line.isEmpty then return []
  return trimmed line :: (← readPaths input)

/-- The files that paths lead to, seen from a working directory. -/
def readFiles (here : String) (paths : List String) : IO Files :=
  return .ofEntries here (← paths.mapM fun path => return (path, .file (← octetsAt path)))

/-- Writes what an event writes. -/
def writeEvent (event : Event) : IO Unit := do
  match event.action with
  | .wrote .out piece => (← IO.getStdout).write ⟨piece.toArray⟩
  | .wrote .err piece => (← IO.getStderr).write ⟨piece.toArray⟩
  | _ => return

end TaskRunner.Main

open TaskRunner in
/-- Runs the program with the arguments of the process. -/
def main (arguments : List String) : IO UInt32 := do
  let environment ← Main.readEnvironment
  let here := (environment.lookup "PWD").getD "/"
  let files ← Main.readFiles here (← Main.readPaths (← IO.getStdin))
  let host := (Rehearsal.mk ["sh"] [] files).host
  match CommandLine.run host files environment ("quake" :: arguments) () with
  | .error e =>
    IO.eprintln (Display.error false e.message)
    return 2
  | .ok report =>
    for warning in report.warnings do
      IO.eprintln (Display.warning false warning.message)
    report.events.forM Main.writeEvent
    match report.result with
    | .ok () => return 0
    | .error e =>
      IO.eprintln (Display.error false e.message)
      return 1
