import TaskRunner.Environment
import TaskRunner.Files.PathError
import TaskRunner.Text.Utf8

/-!
# Processes

A launch is the attempt to start a program. Either the program does not start, or it
runs to its end and leaves what it wrote and how it ended. What programs do is not the
library's business: a `Host` says how each launch ends, and may do so by a state of
its own that every launch changes.
-/

namespace TaskRunner

/-- The attempt to start a program: its name, its arguments, the variables it gets in front of the
environment it inherits, the directory it is to start in, and whether its output is captured or
goes to the output of the run. -/
structure Launch where
  program : String
  arguments : List String
  vars : Bindings
  inherited : Environment
  directory : String
  captured : Bool := false
deriving DecidableEq, Repr

/-- The launch of the same program with its output captured. -/
def Launch.capturing (launch : Launch) : Launch := { launch with captured := true }

/-- The environment of a started program. -/
def Launch.environment (launch : Launch) : Environment := launch.inherited.withVariables launch.vars

/-- The strings that a program is started with: its name, its arguments and its environment. -/
def Launch.strings (launch : Launch) : List String :=
  launch.program :: (launch.arguments ++ launch.environment.strings)

/-- What keeps a program from starting. -/
inductive StartError
  | path (error : PathError)
  | notExecutable
  | tooMuchData
  | nul
deriving DecidableEq, Repr

/-- The reason as the system words it. -/
def StartError.message : StartError → String
  | .path error => error.message
  | .notExecutable => "Permission denied (os error 13)"
  | .tooMuchData => "Argument list too long (os error 7)"
  | .nul => "nul byte found in provided data"

/-- How a program ends: with an exit code, or by a signal. -/
inductive Exit
  | code (code : Nat)
  | signal
deriving DecidableEq, Repr

/-- The exit code, if there is one. -/
def Exit.code? : Exit → Option Nat
  | .code n => some n
  | .signal => none

/-- What a program leaves: how it ended and what it wrote to its two streams. -/
structure Completion where
  exit : Exit := .code 0
  out : Octets := []
  err : Octets := []
deriving DecidableEq, Repr

/-- How launches end, where `σ` is the state of the world outside. -/
structure Host (σ : Type) where
  start : Launch → σ → Except StartError Completion × σ

end TaskRunner
