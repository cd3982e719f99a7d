import TaskRunner.Json.Record
import TaskRunner.TaskFile.Basic

/-!
# Task files from JSON

The reading side of `TaskFile.encode`. Names, values and all fields of a tagged value
must be there; other fields may be missing and are then empty. Only an optional field
may be `null`. The tag of an expression may also be the number of its kind, counted
from zero.
-/

namespace TaskRunner

open Json

-- ── Tagged values ────────────────────────────────────────────────────────────

/-- The kinds of expressions, in order. -/
def Expression.kinds : List String := ["identifier", "access_id", "string_literal", "or"]

/-- The kind that the tag of an expression tells, by its name or its number. -/
def Expression.kind? : Json → Option String
  | .string name => some name
  | .number index 0 => if 0 ≤ index then kinds[index.toNat]? else none
  | _ => none

/-- Reads an expression. -/
def Expression.decode (value : Json) : Option Expression :=
  match htag : value.tag? with
  | none => none
  | some (tag, record) =>
    match kind? tag with
    | some "identifier" => (record.required? ["name"] "name" text?).map .identifier
    | some "access_id" =>
      match hheld : record.field? ["object", "property"] "object" with
      | none => none
      | some held =>
        have : sizeOf held < sizeOf value :=
          Nat.lt_of_lt_of_le (sizeOf_lt_of_field hheld) (sizeOf_le_of_tag htag)
        match Expression.decode held,
          record.required? ["object", "property"] "property" text? with
        | some e, some property => some (.access e property)
        | _, _ => none
    | some "string_literal" => (record.required? ["value"] "value" text?).map .literal
    | some "or" =>
      match hleft : record.field? ["left", "right"] "left",
        hright : record.field? ["left", "right"] "right" with
      | some left, some right =>
        have : sizeOf left < sizeOf value :=
          Nat.lt_of_lt_of_le (sizeOf_lt_of_field hleft) (sizeOf_le_of_tag htag)
        have : sizeOf right < sizeOf value :=
          Nat.lt_of_lt_of_le (sizeOf_lt_of_field hright) (sizeOf_le_of_tag htag)
        match Expression.decode left, Expression.decode right with
        | some left, some right => some (.either left right)
        | _, _ => none
      | _, _ => none
    | _ => none
termination_by sizeOf value

/-- Reads a piece of a command line. -/
def Element.decode (value : Json) : Option Element :=
  value.tag?.bind fun (tag, record) =>
    match tag.text? with
    | some "string" => (record.required? ["value"] "value" text?).map .text
    | some "variable" => (record.required? ["name"] "name" text?).map .variable
    | some "backtick" => (record.required? ["command"] "command" text?).map .backtick
    | some "expression" =>
      (record.required? ["expression"] "expression" Expression.decode).map .expression
    | _ => none

/-- Reads the right-hand side of a variable. -/
def Value.decode (value : Json) : Option Value :=
  value.tag?.bind fun (tag, record) =>
    match tag.text? with
    | some "literal" => (record.required? ["value"] "value" text?).map .literal
    | some "command_substitution" =>
      (record.required? ["command"] "command" text?).map .substitution
    | some "expression" =>
      (record.required? ["expression"] "expression" Expression.decode).map .expression
    | some "multiline" => (record.required? ["value"] "value" text?).map .multiline
    | _ => none

-- ── Records ──────────────────────────────────────────────────────────────────

/-- The fields of a command, in order. -/
def Command.fields : List String := ["elements", "silent", "continue_on_error"]

/-- Reads a command. -/
def Command.decode (record : Json) : Option Command := do
  let elements ← record.optional? fields "elements" [] (listOf? Element.decode)
  let silent ← record.optional? fields "silent" false flag?
  let mayFail ← record.optional? fields "continue_on_error" false flag?
  return ⟨elements, silent, mayFail⟩

/-- Reads a variable. -/
def Variable.decode (record : Json) : Option Variable := do
  let name ← record.required? ["name", "value"] "name" text?
  let value ← record.required? ["name", "value"] "value" Value.decode
  return ⟨name, value⟩

/-- Reads the dispatch of a task. -/
def Dispatch.decode (record : Json) : Option Dispatch := do
  let dispatcher ← record.required? ["dispatcher", "source_dir"] "dispatcher" text?
  let sourceDir ← record.optional? ["dispatcher", "source_dir"] "source_dir" none (nullable? text?)
  return ⟨dispatcher, sourceDir⟩

/-- The fields of a task, in order. -/
def Task.fields : List String :=
  ["name", "description", "arguments", "dependencies", "commands", "external", "source_file",
   "namespace"]

/-- Reads a task. -/
def Task.decode (record : Json) : Option Task := do
  let name ← record.required? fields "name" text?
  let description ← record.optional? fields "description" none (nullable? text?)
  let arguments ← record.optional? fields "arguments" [] (listOf? text?)
  let dependencies ← record.optional? fields "dependencies" [] (listOf? text?)
  let commands ← record.optional? fields "commands" [] (listOf? Command.decode)
  let dispatch ← record.optional? fields "external" none (nullable? Dispatch.decode)
  let source ← record.optional? fields "source_file" none (nullable? text?)
  let home ← record.optional? fields "namespace" none (nullable? text?)
  return { name, description, arguments, dependencies, commands, dispatch, source, home }

/-- The fields of a namespace, in order. -/
def Namespace.fields : List String := ["name", "tasks", "variables", "namespaces"]

/-- Reads what a namespace holds besides its namespaces. -/
def Namespace.decodeWith (record : Json) (namespaces : List Namespace) : Option Namespace := do
  let name ← record.required? fields "name" text?
  let tasks ← record.optional? fields "tasks" [] (listOf? Task.decode)
  let vars ← record.optional? fields "variables" [] (listOf? Variable.decode)
  return ⟨name, tasks, vars, namespaces⟩

mutual

/-- Reads a namespace. -/
def Namespace.decode (record : Json) : Option Namespace :=
  match hfield : record.field? Namespace.fields "namespaces" with
  | none => Namespace.decodeWith record []
  | some held =>
    match hitems : held.items? with
    | none => none
    | some items =>
      have : sizeOf items < sizeOf record :=
        Nat.lt_trans (sizeOf_lt_of_items hitems) (sizeOf_lt_of_field hfield)
      (decodeNamespaces items).bind (Namespace.decodeWith record)
termination_by sizeOf record

/-- Reads the namespaces of a list. -/
def decodeNamespaces : List Json → Option (List Namespace)
  | [] => some []
  | record :: rest =>
    match Namespace.decode record, decodeNamespaces rest with
    | some ns, some others => some (ns :: others)
    | _, _ => none
termination_by records => sizeOf records

end

/-- The fields of a task file, in order. -/
def TaskFile.fields : List String := ["tasks", "namespaces", "variables", "file_namespace"]

/-- Reads a task file. -/
def TaskFile.decode (record : Json) : Option TaskFile := do
  let tasks ← record.optional? fields "tasks" [] (listOf? Task.decode)
  let namespaces ← record.optional? fields "namespaces" [] fun held =>
    held.items?.bind decodeNamespaces
  let vars ← record.optional? fields "variables" [] (listOf? Variable.decode)
  let fileNamespace ← record.optional? fields "file_namespace" none (nullable? text?)
  return { tasks, namespaces, vars, fileNamespace }

end TaskRunner
