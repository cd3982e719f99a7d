import TaskRunner.Files.Tree
import TaskRunner.Process

/-!
# Rehearsals

A rehearsal is a host that starts nothing. It knows the names of a few programs and
has rules that tell, by the last argument of a launch, what a program would write and
how it would end; without a rule a program does nothing and ends well. A launch fails
as it would for real: where a string holds a NUL, where the directory is none, where
the program is unknown, and where its strings are too long.
-/

namespace TaskRunner

/-- What a program does if its last argument is `command`. -/
structure Rule where
  command : String
  completion : Completion
deriving DecidableEq, Repr

/-- A host that starts nothing. -/
structure Rehearsal where
  programs : List String
  rules : List Rule
  files : Files

namespace Rehearsal

/-- A string that no system call takes. -/
def hasNul (s : String) : Bool := s.toList.contains '\x00'

/-- A string of the launch holds a NUL. -/
def launchHasNul (launch : Launch) : Bool :=
  hasNul launch.program || launch.arguments.any hasNul || hasNul launch.directory
    || launch.vars.entries.any fun entry => hasNul entry.1 || hasNul entry.2

/-- The directory that a program is to start in. -/
def startPlace (files : Files) (directory : String) : Except StartError Place :=
  match files.find (.ofString directory) with
  | .error e => .error (.path e)
  | .ok place => if place.node.isDirectory then .ok place else .error (.path .notDirectory)

/-- What keeps a program from being found, if anything does. A name with a slash in it is a path, and
no file of the tree can be executed; other names are names of known programs. -/
def programFault? (programs : List String) (here : Place) (program : String) :
    Option StartError :=
  if program.toList.contains '/' then
    match here.find (.ofString program) with
    | .error e => some (.path e)
    | .ok _ => some .notExecutable
  else if program = "." ∨ program = ".." then some .notExecutable
  else if programs.contains program then none
  else if maxNameOctets < program.utf8ByteSize then some (.path .nameTooLong)
  else some (.path .notFound)

/-- The most octets of one string that a program is started with. -/
def maxStringOctets : Nat := 131071

/-- The most octets of all strings that a program is started with. -/
def maxDataOctets : Nat := 2097152

/-- The strings of a launch are too long. Each takes nine octets besides its own: its end and its
address. -/
def hasTooMuchData (launch : Launch) : Bool :=
  launch.strings.any (maxStringOctets < ·.utf8ByteSize)
    || maxDataOctets < launch.strings.foldl (fun n s => n + s.utf8ByteSize + 9) 0

/-- How a program ends. -/
def completion (rules : List Rule) (launch : Launch) : Completion :=
  match rules.find? fun rule => rule.command == launch.arguments.getLastD launch.program with
  | some rule => rule.completion
  | none => {}

/-- How a launch ends. -/
def start (rehearsal : Rehearsal) (launch : Launch) : Except StartError Completion :=
  if launchHasNul launch then .error .nul
  else match startPlace rehearsal.files launch.directory with
    | .error fault => .error fault
    | .ok here =>
      match programFault? rehearsal.programs here launch.program with
      | some fault => .error fault
      | none =>
        if hasTooMuchData launch then .error .tooMuchData
        else .ok (completion rehearsal.rules launch)

/-- The rehearsal as a host. -/
def host (rehearsal : Rehearsal) : Host Unit := ⟨fun launch _ => (rehearsal.start launch, ())⟩

end Rehearsal

end TaskRunner
