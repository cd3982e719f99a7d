import TaskRunner.Command.Basic
import TaskRunner.Expression.Value

/-!
# The command line that a shell gets

References become values, or stay as they are for the shell to look up; spans in
backticks are left to the shell; expressions become values.
-/

namespace TaskRunner

/-- A piece of a command line as the shell gets it. -/
def Element.render (lookup : Lookup) : Element → String
  | .text value => value
  | .variable name => (lookup name).getD ("$" ++ name)
  | .backtick command => "`" ++ command ++ "`"
  | .expression e => e.value lookup

/-- A command line as the shell gets it. -/
def Command.render (lookup : Lookup) (command : Command) : String :=
  String.join (command.elements.map (Element.render lookup))

end TaskRunner
