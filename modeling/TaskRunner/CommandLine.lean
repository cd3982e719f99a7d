import TaskRunner.Json.Printer
import TaskRunner.Options
import TaskRunner.Run.Runner
import TaskRunner.TaskFile.Encoding
import TaskRunner.TaskFile.Listing
import TaskRunner.TaskFile.Loading
import TaskRunner.Yaml.Printer

/-!
# The program

The program reads its options, loads the task file they name, or the one it finds, and
then dumps it, lists its tasks, or runs the tasks asked for, one group after the
other. The first group that fails ends the run.
-/

namespace TaskRunner

variable {σ : Type}

/-- What the program fails with. -/
inductive ProgramError
  | config (error : ConfigError)
  | execution (error : ExecutionError)
deriving DecidableEq, Repr

/-- The error as one sentence. -/
def ProgramError.message : ProgramError → String
  | .config e => "Configuration error: " ++ e.message
  | .execution e => "Execution error: " ++ e.message

/-- What the program leaves: its result, what it passed over while it loaded the task file, what
happened, and the world as it is then. -/
structure Report (σ : Type) where
  result : Except ProgramError Unit
  warnings : List LoadWarning
  events : List Event
  world : σ

/-- How much is told. The option for less wins. -/
def Options.verbosity (options : Options) : Verbosity :=
  if options.silent then .silent
  else if options.quiet then .quiet
  else if options.verbose then .verbose
  else .normal

/-- A task file as a text. -/
def TaskFile.dump (file : TaskFile) : DumpFormat → String
  | .json => file.encode.pretty
  | .yaml => Yaml.print file.encode

/-- The name of the variable of the environment that names a task file. -/
def fileVariable : String := "QUAKEFILE"

namespace CommandLine

/-- Runs groups of a task and its arguments, up to the first that fails. -/
def runGroups (host : Host σ) (runner : Runner σ) (world : σ) :
    List (List String) → Except ExecutionError Unit × List Event × σ
  | [] => (.ok (), [], world)
  | [] :: rest => runGroups host runner world rest
  | (task :: arguments) :: rest =>
    let (outcome, next) := runner.run host task arguments world
    match outcome.result with
    | .error e => (.error e, outcome.events, outcome.world)
    | .ok () =>
      let (result, events, world) := runGroups host next outcome.world rest
      (result, outcome.events ++ events, world)

/-- The groups to run: the tasks among the options, the later groups, or the default task. -/
def groupsOf (options : Options) (later : List (List String)) : List (List String) :=
  match options.tasks.toList ++ later with
  | [] => [[defaultTask]]
  | groups => groups

/-- Runs the groups in a context. -/
def runTasks (host : Host σ) (file : TaskFile) (ctx : Context) (groups : List (List String))
    (world : σ) : Except ExecutionError Unit × List Event × σ :=
  let (runner, world, events) := Runner.new host file ctx world
  let (result, more, world) := runGroups host runner world groups
  (result, events ++ more, world)

/-- The task file to use: the one that the options name, or the one that is found. -/
def locate (files : Files) (options : Options) : Except ConfigError Path :=
  match options.file with
  | some file => .ok (.ofString file)
  | none => findTaskFile files files.herePath

/-- Does what the options ask for. Completions are not made here. -/
def perform (host : Host σ) (files : Files) (environment : Environment) (options : Options)
    (later : List (List String)) (world : σ) : Report σ :=
  if options.completions.isSome then ⟨.ok (), [], [], world⟩
  else
    let ctx : Context :=
      { workingDir := files.herePath, environment, verbosity := options.verbosity }
    match locate files options with
    | .error e => ⟨.error (.config e), [], [], world⟩
    | .ok path =>
      let (loaded, warnings) := loadTaskFile files path
      match loaded with
      | .error e => ⟨.error (.config e), warnings, [], world⟩
      | .ok file =>
        match options.dump with
        | some format =>
          ⟨.ok (), warnings, [ctx.print .out (trimmedEnd (file.dump format))], world⟩
        | none =>
          if options.list then
            let listing := file.listing (options.verbosity == Verbosity.verbose)
            ⟨.ok (), warnings, [ctx.event (.wrote .out (Utf8.encode listing.toList))], world⟩
          else
            let (result, events, world) :=
              runTasks host file (ctx.atTaskFile path) (groupsOf options later) world
            ⟨result.mapError .execution, warnings, events, world⟩

/-- Runs the program with its arguments, the first of which is its name. -/
def run (host : Host σ) (files : Files) (environment : Environment) (arguments : List String)
    (world : σ) : Except OptionError (Report σ) :=
  let (head, later) := splitGroups arguments
  (Options.parse (environment.values.get? fileVariable) (head.drop 1)).map fun options =>
    perform host files environment options later world

end CommandLine

end TaskRunner
