import TaskRunner.Run.Outcome

/-!
# Command lines and the shell

A command line is the last argument of the interpreter. Running it lets the shell
write to the streams of the run; capturing it keeps what the shell writes to its
output, trimmed, and lets only the other stream through. A shell that does not start,
or that ends with anything but exit code zero, has failed.
-/

namespace TaskRunner

variable {σ : Type}

/-- A program has ended well. -/
def Exit.isSuccess (exit : Exit) : Bool := exit == .code 0

/-- The event of a piece, if it is not empty. -/
def Context.piece (ctx : Context) (stream : Stream) (piece : Octets) : List Event :=
  if piece.isEmpty then [] else [ctx.event (.wrote stream piece)]

/-- What the capture of a command line leaves. -/
structure Captured (σ : Type) where
  result : Except ExecutionError String
  world : σ
  events : List Event

/-- Runs a command line and keeps its output, without the blanks around it. -/
def capture (host : Host σ) (ctx : Context) (commandLine : String) (world : σ) : Captured σ :=
  match (ctx.shellLaunch? commandLine).map Launch.capturing with
  | none => ⟨.error (.commandFailed commandLine none), world, []⟩
  | some launch =>
    match host.start launch world with
    | (.error _, world) =>
      ⟨.error (.commandFailed commandLine none), world, [ctx.event (.launched launch false)]⟩
    | (.ok completion, world) =>
      let result : Except ExecutionError String :=
        if completion.exit.isSuccess then
          .ok (String.ofList (Text.trim (Utf8.decodeLossy completion.out)))
        else .error (.commandFailed commandLine completion.exit.code?)
      ⟨result, world,
        ctx.event (.launched launch true) :: ctx.piece .err completion.err⟩

/-- Starts a program that writes to the streams of the run, where `startFailure` and `exitFailure`
say what went wrong. -/
def runProgram (host : Host σ) (ctx : Context) (launch : Launch)
    (startFailure : StartError → ExecutionError) (exitFailure : Exit → ExecutionError)
    (world : σ) : Outcome σ :=
  match host.start launch world with
  | (.error e, world) =>
    (Outcome.fail (startFailure e) ctx world).after [ctx.event (.launched launch false)]
  | (.ok completion, world) =>
    let outcome := if completion.exit.isSuccess then Outcome.done ctx world
      else Outcome.fail (exitFailure completion.exit) ctx world
    outcome.after (ctx.event (.launched launch true) ::
      (ctx.piece .out completion.out ++ ctx.piece .err completion.err))

/-- Runs a command line. -/
def runShell (host : Host σ) (ctx : Context) (commandLine : String) (world : σ) : Outcome σ :=
  match ctx.shellLaunch? commandLine with
  | none => Outcome.fail (.commandFailed commandLine none) ctx world
  | some launch =>
    runProgram host ctx launch (fun _ => .commandFailed commandLine none)
      (fun exit => .commandFailed commandLine exit.code?) world

/-- A started program leaves the context alone. -/
theorem context_runProgram (host : Host σ) (ctx : Context) (launch : Launch)
    (startFailure : StartError → ExecutionError) (exitFailure : Exit → ExecutionError)
    (world : σ) :
    (runProgram host ctx launch startFailure exitFailure world).context = ctx := by
  rw [runProgram]
  split
  · rfl
  · dsimp only
    split <;> rfl

theorem context_runShell (host : Host σ) (ctx : Context) (commandLine : String) (world : σ) :
    (runShell host ctx commandLine world).context = ctx := by
  rw [runShell]
  split
  · rfl
  · exact context_runProgram ..

end TaskRunner
