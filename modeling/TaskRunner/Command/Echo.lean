import TaskRunner.Command.Basic
import TaskRunner.Expression.Value
import TaskRunner.Text.Blank
import TaskRunner.Text.Scan

/-!
# The built-in echo

A silent command that starts with the word `echo` is printed without a shell, if it
uses only what is understood here: words between blanks, quotes of both kinds,
backslashes, and values. What else a shell would act on outside of quotes (pipes,
redirections, patterns, options) makes the command one for the shell, and so does a
quote that is not closed.

The line is read from left to right (`EchoLine`). Characters that may belong to a
reference `${NAME}` wait in `pending` until they are expanded; values and quoted
characters go straight to `written`. A blank between two words is written only when
the next word begins.
-/

namespace TaskRunner

/-- Which quotes a place of a line is inside of. -/
inductive Quoting
  | bare
  | single
  | double
deriving DecidableEq, Repr

/-- What was read of a line so far. -/
structure EchoLine where
  written : String := ""
  pending : String := ""
  quoting : Quoting := .bare
  spaceDue : Bool := false
deriving DecidableEq, Repr

namespace EchoLine

/-- The characters that mean something to a shell outside of quotes. -/
def shellCharacters : List Char :=
  ['|', '&', ';', '<', '>', '(', ')', '*', '?', '[', '~', '#']

/-- The characters in a value that would make a shell look for files. -/
def patternCharacters : List Char := ['*', '?', '[']

/-- Expands what is pending. -/
def flush (lookup : Lookup) (line : EchoLine) : EchoLine :=
  { line with written := line.written ++ expanded lookup line.pending, pending := "" }

/-- Writes the space between two words, if one is due. -/
def separate (lookup : Lookup) (line : EchoLine) : EchoLine :=
  if line.spaceDue then
    let flushed := line.flush lookup
    { flushed with
      written := if flushed.written.isEmpty then "" else flushed.written.push ' '
      spaceDue := false }
  else line

/-- Takes a character that may be part of a reference. -/
def expandable (lookup : Lookup) (line : EchoLine) (c : Char) : EchoLine :=
  let separated := line.separate lookup
  { separated with pending := separated.pending.push c }

/-- Writes a text as it is. -/
def raw (lookup : Lookup) (line : EchoLine) (s : String) : EchoLine :=
  let flushed := (line.separate lookup).flush lookup
  { flushed with written := flushed.written ++ s }

/-- A word has ended. -/
def endWord (lookup : Lookup) (line : EchoLine) : EchoLine :=
  { line.flush lookup with spaceDue := true }

/-- Inside double quotes a backslash takes away the meaning of these characters only. -/
def isEscapable (c : Char) : Bool := c == '"' || c == '\\' || c == '$' || c == '`'

/-- Takes a text of the command line; `none` if a shell is needed. -/
def text (lookup : Lookup) (line : EchoLine) : Text → Option EchoLine
  | [] => some line
  | c :: rest =>
    match line.quoting with
    | .single =>
      if c = '\'' then text lookup { line with quoting := .bare } rest
      else text lookup (line.raw lookup c.toString) rest
    | .double =>
      if c = '"' then text lookup { line with quoting := .bare } rest
      else if c = '\\' then
        match rest with
        | [] => some (line.expandable lookup '\\')
        | d :: rest =>
          if isEscapable d then text lookup (line.raw lookup d.toString) rest
          else text lookup ((line.expandable lookup '\\').expandable lookup d) rest
      else text lookup (line.expandable lookup c) rest
    | .bare =>
      if c = '\'' then text lookup { line.separate lookup with quoting := .single } rest
      else if c = '"' then text lookup { line.separate lookup with quoting := .double } rest
      else if c = '\\' then
        match rest with
        | [] => none
        | d :: rest => text lookup (line.raw lookup d.toString) rest
      else if Text.isBlank c then text lookup (line.endWord lookup) rest
      else if shellCharacters.contains c then none
      else text lookup (line.expandable lookup c) rest

/-- Writes words, each but the first behind a space. -/
def words (lookup : Lookup) (line : EchoLine) : List String → EchoLine
  | [] => line
  | word :: rest =>
    rest.foldl (fun line word => { line with spaceDue := true }.raw lookup word)
      (line.raw lookup word)

/-- Takes a value. Inside quotes it is written as it is; outside it is split at its blanks. -/
def value (lookup : Lookup) (line : EchoLine) (v : String) : Option EchoLine :=
  if line.quoting = .bare then
    if v.toList.any patternCharacters.contains then none
    else
      let started := if v.toList.head?.any Text.isBlank then line.endWord lookup else line
      let written := started.words lookup ((Text.words v.toList).map String.ofList)
      some (if v.toList.getLast?.any Text.isBlank then { written with spaceDue := true }
        else written)
  else some (line.raw lookup v)

/-- Takes an element of the command line. -/
def element (lookup : Lookup) (line : EchoLine) : Element → Option EchoLine
  | .text s => line.text lookup s.toList
  | .variable name =>
    if line.quoting = .single then some (line.raw lookup ("$" ++ name))
    else line.value lookup ((lookup name).getD "")
  | .expression e => line.value lookup (e.value lookup)
  | .backtick _ => none

/-- Takes the elements of a command line, one after the other. -/
def elements (lookup : Lookup) (line : EchoLine) : List Element → Option EchoLine
  | [] => some line
  | e :: rest => (line.element lookup e).bind fun line => line.elements lookup rest

/-- The line as it is printed, if no quote is left open. -/
def finish (lookup : Lookup) (line : EchoLine) : Option String :=
  if line.quoting = .bare then some (line.flush lookup).written else none

end EchoLine

/-- What follows the word `echo` at the start of a text, without the blanks before it. Options are
left to the shell. -/
def echoArguments? (s : Text) : Option Text :=
  match Text.eat ['e', 'c', 'h', 'o'] (Text.trimStart s) with
  | none => none
  | some arguments =>
    if arguments.head?.any fun c => !Text.isBlank c then none
    else if (Text.trimStart arguments).head? = some '-' then none
    else some (Text.trimStart arguments)

/-- The line that a silent `echo` command prints; `none` if the command is one for the shell. -/
def Command.echo (lookup : Lookup) (command : Command) : Option String :=
  match command.silent, command.elements with
  | true, .text first :: rest =>
    (echoArguments? first.toList).bind fun arguments =>
      (({} : EchoLine).text lookup arguments).bind fun line =>
        (line.elements lookup rest).bind fun line => line.finish lookup
  | _, _ => none

end TaskRunner
