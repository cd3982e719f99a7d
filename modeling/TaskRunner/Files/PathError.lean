import TaskRunner.Text.Position

/-!
# Paths that lead nowhere

A path may lead nowhere because a piece of it is missing, because a piece that it goes
on behind is no directory, or because it cannot be asked for at all: it holds a NUL, or
it or one of its pieces is too long (`maxPathOctets`, `maxNameOctets`).
-/

namespace TaskRunner

/-- What keeps a path from leading anywhere. -/
inductive PathError
  | notFound
  | notDirectory
  | nameTooLong
  | nul
deriving DecidableEq, Repr

/-- The reason as the system words it. -/
def PathError.message : PathError → String
  | notFound => "No such file or directory (os error 2)"
  | notDirectory => "Not a directory (os error 20)"
  | nameTooLong => "File name too long (os error 36)"
  | nul => "file name contained an unexpected NUL byte"

/-- The most octets that the name of a file has. -/
def maxNameOctets : Nat := 255

/-- The most octets that a path has. -/
def maxPathOctets : Nat := 4095

end TaskRunner
