import TaskRunner.Text.Blank

/-!
# The look of the output

The output of a task is drawn as a small tree:

    ┌──── [ build release, x86_64 ]
    ├ cargo build
    └ cargo test

With colours on, marks are wrapped in escape sequences of the terminal. A sequence
inside a wrapped text that ends all styles is followed by the style again.
-/

namespace TaskRunner.Display

/-- The escape sequence that turns on a style. -/
def styleOn (codes : Text) : Text := ['\x1b', '['] ++ codes ++ ['m']

/-- The escape sequence that turns off all styles. -/
def styleOff : Text := ['\x1b', '[', '0', 'm']

/-- The text with the style turned on again behind each place where all styles are turned off. -/
def keepStyle (codes : Text) : Text → Text
  | '\x1b' :: '[' :: '0' :: 'm' :: rest => styleOff ++ styleOn codes ++ keepStyle codes rest
  | c :: rest => c :: keepStyle codes rest
  | [] => []

/-- A string in a style, if colours are on. -/
def styled (codes : String) (colour : Bool) (s : String) : String :=
  if colour then
    String.ofList (styleOn codes.toList ++ keepStyle codes.toList s.toList ++ styleOff)
  else s

/-- Dimmed text. -/
def dimmed (colour : Bool) (s : String) : String := styled "2" colour s

/-- Bold text. -/
def bold (colour : Bool) (s : String) : String := styled "1" colour s

/-- The line above the commands of a task. -/
def taskHeader (colour : Bool) (name : String) (arguments : List String) : String :=
  let label := if arguments.isEmpty then name else name ++ " " ++ ", ".intercalate arguments
  dimmed colour "┌────" ++ " " ++ bold colour ("[ " ++ label ++ " ]")

/-- The line of a command that is about to run; `last` tells the last one of a task. -/
def commandLine (colour : Bool) (command : String) (last : Bool) : String :=
  dimmed colour (if last then "└" else "├") ++ " " ++ command

/-- A line of the built-in echo. -/
def echoLine (colour : Bool) (text : String) : String := dimmed colour "│" ++ " " ++ text

/-- A warning. -/
def warning (colour : Bool) (message : String) : String :=
  styled "1;33" colour "Warning:" ++ " " ++ message

/-- An error. -/
def error (colour : Bool) (message : String) : String :=
  styled "1;31" colour "Error:" ++ " " ++ message

end TaskRunner.Display
