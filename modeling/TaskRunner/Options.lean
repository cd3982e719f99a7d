import TaskRunner.Text.Scan

/-!
# Command line options

A command line is cut at its separators `--`. The part before the first holds options
and may end in a task with its arguments; each later part is a task with its
arguments.

Options are read one after the other (`Reading`). One that takes a value waits for it,
and is settled only when the next option comes, the first task, or the end; so errors
come out in that order. What looks like an option but is none is a value, if one is
waited for, and else the first task. From the first task on nothing is an option.
-/

namespace TaskRunner

-- ── What there is ────────────────────────────────────────────────────────────

/-- An option without a value. -/
inductive Flag
  | list
  | quiet
  | silent
  | verbose
deriving DecidableEq, Repr

/-- An option with a value. -/
inductive Setting
  | file
  | dump
  | completions
deriving DecidableEq, Repr

/-- An option. -/
inductive OptionName
  | flag (flag : Flag)
  | setting (setting : Setting)
  | help
  | version
deriving DecidableEq, Repr

/-- The option that a letter behind a hyphen means. -/
def OptionName.ofLetter? (c : Char) : Option OptionName :=
  if c = 'f' then some (.setting .file)
  else if c = 'l' then some (.flag .list)
  else if c = 'q' then some (.flag .quiet)
  else if c = 's' then some (.flag .silent)
  else if c = 'v' then some (.flag .verbose)
  else if c = 'h' then some .help
  else if c = 'V' then some .version
  else none

/-- The option that a word behind two hyphens means. -/
def OptionName.ofWord? (word : String) : Option OptionName :=
  if word = "file" then some (.setting .file)
  else if word = "list" then some (.flag .list)
  else if word = "quiet" then some (.flag .quiet)
  else if word = "silent" then some (.flag .silent)
  else if word = "verbose" then some (.flag .verbose)
  else if word = "dump-ast" then some (.setting .dump)
  else if word = "completions" then some (.setting .completions)
  else if word = "help" then some .help
  else if word = "version" then some .version
  else none

/-- The form of a dump. -/
inductive DumpFormat
  | json
  | yaml
deriving DecidableEq, Repr

/-- The word for a form. -/
def DumpFormat.word : DumpFormat → String
  | .json => "json"
  | .yaml => "yaml"

/-- The shells that completions can be asked for. -/
def completionShells : List String := ["bash", "elvish", "fish", "powershell", "zsh"]

/-- What a command line asks for. -/
structure Options where
  file : Option String := none
  list : Bool := false
  quiet : Bool := false
  silent : Bool := false
  verbose : Bool := false
  dump : Option DumpFormat := none
  completions : Option String := none
  tasks : Option (List String) := none
deriving DecidableEq, Repr, Inhabited

/-- Why a command line is not followed. -/
inductive OptionError
  | invalidValue
  | argumentConflict
  | tooManyValues
  | displayHelp
  | displayVersion
deriving DecidableEq, Repr

/-- The reason in words. -/
def OptionError.message : OptionError → String
  | .invalidValue => "an option lacks a value, or cannot take the one it has"
  | .argumentConflict => "an option is given twice"
  | .tooManyValues => "an option that takes no value has one"
  | .displayHelp => "usage: quake [OPTIONS] [TASK [ARGS...]] [-- TASK [ARGS...]]..."
  | .displayVersion => "quake"

-- ── Reading ──────────────────────────────────────────────────────────────────

namespace Options

/-- A flag is set. -/
def isSet (options : Options) : Flag → Bool
  | .list => options.list
  | .quiet => options.quiet
  | .silent => options.silent
  | .verbose => options.verbose

/-- The options with a flag set. -/
def set (options : Options) : Flag → Options
  | .list => { options with list := true }
  | .quiet => { options with quiet := true }
  | .silent => { options with silent := true }
  | .verbose => { options with verbose := true }

/-- A setting has a value. -/
def hasValue (options : Options) : Setting → Bool
  | .file => options.file.isSome
  | .dump => options.dump.isSome
  | .completions => options.completions.isSome

/-- The options with a value, if the value is one for the setting. -/
def withValue (options : Options) (value : String) : Setting → Except OptionError Options
  | .file => if value = "" then .error .invalidValue else .ok { options with file := some value }
  | .dump =>
    if value = "json" then .ok { options with dump := some .json }
    else if value = "yaml" then .ok { options with dump := some .yaml }
    else .error .invalidValue
  | .completions =>
    if completionShells.contains value then .ok { options with completions := some value }
    else .error .invalidValue

/-- Sets a flag that is not set yet. -/
def addFlag (options : Options) (flag : Flag) : Except OptionError Options :=
  if options.isSet flag then .error .argumentConflict else .ok (options.set flag)

/-- Gives a value to a setting that has none yet. -/
def addValue (options : Options) (setting : Setting) (value : String) :
    Except OptionError Options :=
  if options.hasValue setting then .error .argumentConflict else options.withValue value setting

/-- The options read so far, and the setting that is not settled yet, with its value if that is
there. -/
structure Reading where
  options : Options := {}
  pending : Option (Setting × Option String) := none
deriving DecidableEq, Repr, Inhabited

namespace Reading

/-- Settles what is pending. -/
def settle (r : Reading) : Except OptionError Options :=
  match r.pending with
  | none => .ok r.options
  | some (_, none) => .error .invalidValue
  | some (setting, some value) => r.options.addValue setting value

/-- Takes a flag. -/
def flag (r : Reading) (flag : Flag) : Except OptionError Reading := do
  let options ← r.settle
  return { options := ← options.addFlag flag }

/-- Takes a setting whose value is to come. -/
def await (r : Reading) (setting : Setting) : Except OptionError Reading := do
  return { options := ← r.settle, pending := some (setting, none) }

/-- Takes a setting with its value. -/
def setting (r : Reading) (setting : Setting) (value : String) : Except OptionError Reading := do
  let options ← r.settle
  return { options := ← options.addValue setting value }

/-- Takes an option that ends everything. -/
def stop (r : Reading) (e : OptionError) : Except OptionError Reading := do
  let _ ← r.settle
  .error e

/-- Takes a word behind two hyphens, with what stands behind its `=`. -/
def word (r : Reading) (attached : Option String) : OptionName → Except OptionError Reading
  | .setting name =>
    match attached with
    | some value => r.setting name value
    | none => r.await name
  | .flag name => if attached.isSome then .error .tooManyValues else r.flag name
  | .help => if attached.isSome then .error .tooManyValues else r.stop .displayHelp
  | .version => if attached.isSome then .error .tooManyValues else r.stop .displayVersion

/-- Takes the letters behind a hyphen. A setting takes the letters behind it as its value. -/
def letters (r : Reading) : Text → Except OptionError Reading
  | [] => .ok r
  | c :: rest =>
    match OptionName.ofLetter? c with
    | some (.flag name) => (r.flag name).bind fun r => r.letters rest
    | some (.setting name) =>
      if rest.isEmpty then r.await name else r.setting name (String.ofList rest)
    | some .help => r.stop .displayHelp
    | some .version => r.stop .displayVersion
    | none => .ok r

end Reading

/-- How an argument before the first task is understood. -/
inductive Argument
  | word (name : OptionName) (attached : Option String)
  | letters (letters : Text)
  | other
deriving DecidableEq, Repr

/-- The word before the first `=` of a text, and what stands behind it. -/
def splitAttached (s : Text) : String × Option String :=
  (String.ofList (s.takeWhile (· != '=')),
    match s.dropWhile (· != '=') with
    | [] => none
    | _ :: value => some (String.ofList value))

/-- Understands an argument. Letters are options only if all of them are. -/
def Argument.ofString (argument : String) : Argument :=
  match argument.toList with
  | '-' :: '-' :: s =>
    match OptionName.ofWord? (splitAttached s).1 with
    | some name => .word name (splitAttached s).2
    | none => .other
  | '-' :: c :: s =>
    if (c :: s).all fun c => (OptionName.ofLetter? c).isSome then .letters (c :: s) else .other
  | _ => .other

/-- Reads arguments up to the first task or the end. -/
def readFrom (r : Reading) : List String → Except OptionError Options
  | [] => r.settle
  | argument :: rest =>
    match Argument.ofString argument with
    | .word name attached => (r.word attached name).bind fun r => readFrom r rest
    | .letters s => (r.letters s).bind fun r => readFrom r rest
    | .other =>
      match r.pending with
      | some (name, none) => readFrom { r with pending := some (name, some argument) } rest
      | _ => r.settle.map fun options => { options with tasks := some (argument :: rest) }

/-- Reads the arguments before the first separator. `fallback` is the file that the environment
names, for a command line that names none. -/
def parse (fallback : Option String) (arguments : List String) : Except OptionError Options := do
  let options ← readFrom {} arguments
  match options.file, fallback with
  | none, some file => options.withValue file .file
  | _, _ => return options

end Options

-- ── Before the options are read ──────────────────────────────────────────────

/-- What stands between tasks on the command line. -/
def groupSeparator : String := "--"

/-- The arguments before the first separator, and the groups between the others that are not
empty. -/
def splitGroups (arguments : List String) : List String × List (List String) :=
  match arguments.splitOn groupSeparator with
  | [] => ([], [])
  | head :: groups => (head, groups.filter (!·.isEmpty))

/-- What an argument says about being verbose: that it is wanted, that the next argument is a value,
nothing, or that the options end. -/
inductive VerboseHint
  | wanted
  | takesNext
  | nothing
  | ends
deriving DecidableEq, Repr

/-- What letters behind a hyphen say; `f` takes the letters behind it, or the next argument if the
last letter is an `f`. -/
def VerboseHint.ofLetters (last : Option Char) : Text → VerboseHint
  | [] => .nothing
  | c :: rest =>
    if c = 'v' then .wanted
    else if c = 'f' then if last = some 'f' then .takesNext else .nothing
    else ofLetters last rest

/-- Words whose value is the next argument. -/
def valueWords : List String := ["-f", "--file", "--dump-ast", "--completions"]

/-- What an argument says. -/
def VerboseHint.ofArgument (argument : String) : VerboseHint :=
  if argument = "-v" ∨ argument = "--verbose" then .wanted
  else if valueWords.contains argument then .takesNext
  else if argument = groupSeparator then .ends
  else
    match argument.toList with
    | '-' :: '-' :: _ => .nothing
    | '-' :: c :: s => ofLetters ((c :: s).getLast?) (c :: s)
    | _ => .ends

/-- Being verbose is asked for before the first task. -/
def asksVerbose : List String → Bool
  | [] => false
  | argument :: rest =>
    match VerboseHint.ofArgument argument, rest with
    | .wanted, _ => true
    | .takesNext, [] => false
    | .takesNext, _ :: later => asksVerbose later
    | .nothing, later => asksVerbose later
    | .ends, _ => false

/-- Being verbose is asked for, where the first argument is the name of the program. -/
def verboseRequested (arguments : List String) : Bool := asksVerbose (arguments.drop 1)

end TaskRunner
