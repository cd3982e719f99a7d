import TaskRunner.Json.Basic
import TaskRunner.TaskFile.Basic

/-!
# Task files as JSON

A structure becomes an object with a member for each field, in a fixed order. Lists
are always written, also when they are empty; an optional field that is absent has no
member. A value that is one of several kinds carries the member `type`, which tells
the kind.
-/

namespace TaskRunner

/-- The member of an optional text, if the text is present. -/
def optionalMember (name : String) (value : Option String) : List (String × Json) :=
  match value with
  | none => []
  | some text => [(name, .string text)]

/-- An object with a `type` and further members. -/
def tagged (tag : String) (members : List (String × Json)) : Json :=
  .object (("type", .string tag) :: members)

/-- An expression as JSON. -/
def Expression.encode : Expression → Json
  | .identifier name => tagged "identifier" [("name", .string name)]
  | .access object property =>
    tagged "access_id" [("object", object.encode), ("property", .string property)]
  | .literal value => tagged "string_literal" [("value", .string value)]
  | .either left right => tagged "or" [("left", left.encode), ("right", right.encode)]

/-- A piece of a command line as JSON. -/
def Element.encode : Element → Json
  | .text value => tagged "string" [("value", .string value)]
  | .variable name => tagged "variable" [("name", .string name)]
  | .backtick command => tagged "backtick" [("command", .string command)]
  | .expression e => tagged "expression" [("expression", e.encode)]

/-- A command as JSON. -/
def Command.encode (command : Command) : Json :=
  .object
    [("elements", .array (command.elements.map Element.encode)),
     ("silent", .bool command.silent),
     ("continue_on_error", .bool command.mayFail)]

/-- The right-hand side of a variable as JSON. -/
def Value.encode : Value → Json
  | .literal value => tagged "literal" [("value", .string value)]
  | .substitution command => tagged "command_substitution" [("command", .string command)]
  | .expression e => tagged "expression" [("expression", e.encode)]
  | .multiline value => tagged "multiline" [("value", .string value)]

/-- A variable as JSON. -/
def Variable.encode (v : Variable) : Json :=
  .object [("name", .string v.name), ("value", v.value.encode)]

/-- The dispatch of a task as JSON. -/
def Dispatch.encode (d : Dispatch) : Json :=
  .object (("dispatcher", .string d.dispatcher) :: optionalMember "source_dir" d.sourceDir)

/-- A task as JSON. -/
def Task.encode (task : Task) : Json :=
  .object
    ([("name", .string task.name)]
      ++ optionalMember "description" task.description
      ++ [("arguments", Json.strings task.arguments),
          ("dependencies", Json.strings task.dependencies),
          ("commands", .array (task.commands.map Command.encode))]
      ++ (match task.dispatch with
          | none => []
          | some dispatch => [("external", dispatch.encode)])
      ++ optionalMember "source_file" task.source
      ++ optionalMember "namespace" task.home)

mutual

/-- A namespace as JSON. -/
def Namespace.encode : Namespace → Json
  | ⟨name, tasks, vars, namespaces⟩ =>
    .object
      [("name", .string name),
       ("tasks", .array (tasks.map Task.encode)),
       ("variables", .array (vars.map Variable.encode)),
       ("namespaces", .array (encodeNamespaces namespaces))]

/-- The namespaces of a list as JSON. -/
def encodeNamespaces : List Namespace → List Json
  | [] => []
  | ns :: rest => ns.encode :: encodeNamespaces rest

end

/-- A task file as JSON. -/
def TaskFile.encode (file : TaskFile) : Json :=
  .object
    ([("tasks", .array (file.tasks.map Task.encode)),
      ("namespaces", .array (encodeNamespaces file.namespaces)),
      ("variables", .array (file.vars.map Variable.encode))]
      ++ optionalMember "file_namespace" file.fileNamespace)

end TaskRunner
