import TaskRunner.Context
import TaskRunner.Command.Basic
import TaskRunner.Display
import TaskRunner.Run.ExecutionError

/-!
# What happens during a run

A run is told by its events, in order. Every event knows the tasks that were running
when it happened. What the user sees on the two output streams are the pieces written
by the program itself and by the processes it started; the other events tell what was
attempted, launched and called.
-/

namespace TaskRunner

/-- An output stream. -/
inductive Stream
  | out
  | err
deriving DecidableEq, Repr

/-- A step of a run: a command of a task, the one call of a task that others run, or a dependency
that means no task. -/
inductive Step
  | command (task : String) (command : Command)
  | external (task : String)
  | missing (task dependency : String)
deriving DecidableEq, Repr

/-- What can happen. -/
inductive Action
  | entered
  | attempted (step : Step) (succeeded : Bool)
  | launched (launch : Launch) (started : Bool)
  | called (task : String) (arguments : List String) (vars : Bindings)
  | wrote (stream : Stream) (piece : Octets)
  | substitutionFailed (command : String) (error : ExecutionError)
deriving DecidableEq, Repr

/-- Something that happens while the tasks of `stack` are running, outermost first. -/
structure Event where
  stack : List String
  action : Action
deriving DecidableEq, Repr

/-- The piece that an event writes to a stream. -/
def Event.piece? (stream : Stream) (event : Event) : Option Octets :=
  match event.action with
  | .wrote s piece => if s = stream then some piece else none
  | _ => none

/-- All that events write to a stream. -/
def written (stream : Stream) (events : List Event) : Octets :=
  (events.filterMap (Event.piece? stream)).flatten

namespace Context

/-- An event in this context. -/
def event (ctx : Context) (action : Action) : Event := ⟨ctx.stack, action⟩

/-- Writes a line. -/
def print (ctx : Context) (stream : Stream) (line : String) : Event :=
  ctx.event (.wrote stream (Utf8.encode (line.toList ++ ['\n'])))

/-- Tells what is being done, unless quiet is wanted. -/
def info (ctx : Context) (line : String) : List Event :=
  if Verbosity.normal.level ≤ ctx.verbosity.level then [ctx.print .out line] else []

/-- Warns, unless silence is wanted. -/
def warning (ctx : Context) (message : String) : List Event :=
  if Verbosity.quiet.level ≤ ctx.verbosity.level then
    [ctx.print .err (Display.warning ctx.colour message)]
  else []

/-- Tells details, if they are wanted. -/
def debug (ctx : Context) (message : String) : List Event :=
  if Verbosity.verbose.level ≤ ctx.verbosity.level then
    [ctx.print .err ("[DEBUG] " ++ message)]
  else []

end Context

end TaskRunner
