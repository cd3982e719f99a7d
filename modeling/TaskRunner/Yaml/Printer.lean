import TaskRunner.Json.Printer
import TaskRunner.Yaml.Scalar

/-!
# Values as YAML

A value is written in block style: a line for each item and each member. The items of
an array are not deeper than the member that holds the array, and the members of an
object that is an item start on the line of its hyphen. Empty arrays and objects are
two brackets.
-/

namespace TaskRunner.Yaml

/-- The text of a value that is neither a string nor made of other values. -/
def atom : Json → Text
  | .bool value => (if value then "true" else "false").toList
  | .number mantissa decimals => (Json.numberText mantissa decimals).toList
  | _ => "null".toList

mutual

/-- A value behind the name of a member that is indented by `indent`. -/
def memberValue (indent : Nat) : Json → Text
  | .string s => ' ' :: scalar (indent + 2) s
  | .array [] => [' ', '[', ']', '\n']
  | .array (item :: rest) =>
    ['\n'] ++ spaces indent ++ ['-'] ++ itemValue indent item ++ items indent rest
  | .object [] => [' ', '{', '}', '\n']
  | .object ((name, value) :: rest) =>
    ['\n'] ++ spaces (indent + 2) ++ name.toList ++ [':'] ++ memberValue (indent + 2) value
      ++ members (indent + 2) rest
  | value => ' ' :: atom value ++ ['\n']

/-- A value behind the hyphen of an item that is indented by `indent`. -/
def itemValue (indent : Nat) : Json → Text
  | .string s => ' ' :: scalar (indent + 2) s
  | .array [] => [' ', '[', ']', '\n']
  | .array (item :: rest) =>
    [' ', '-'] ++ itemValue (indent + 2) item ++ items (indent + 2) rest
  | .object [] => [' ', '{', '}', '\n']
  | .object ((name, value) :: rest) =>
    ' ' :: name.toList ++ [':'] ++ memberValue (indent + 2) value ++ members (indent + 2) rest
  | value => ' ' :: atom value ++ ['\n']

/-- Items, each on lines of its own. -/
def items (indent : Nat) : List Json → Text
  | [] => []
  | item :: rest => spaces indent ++ ['-'] ++ itemValue indent item ++ items indent rest

/-- Members, each on lines of its own. -/
def members (indent : Nat) : List (String × Json) → Text
  | [] => []
  | (name, value) :: rest =>
    spaces indent ++ name.toList ++ [':'] ++ memberValue indent value ++ members indent rest

end

/-- A value as a text of lines. Names of members are written as they are, so they must be words. -/
def print : Json → String
  | .string s => String.ofList (scalar 2 s)
  | .array [] => "[]\n"
  | .array list => String.ofList (items 0 list)
  | .object [] => "\x7b\x7d\n"
  | .object fields => String.ofList (members 0 fields)
  | value => String.ofList (atom value ++ ['\n'])

end TaskRunner.Yaml
