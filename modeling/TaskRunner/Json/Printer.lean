import TaskRunner.Json.Basic

/-!
# JSON as text

`Json.pretty` writes a value over several lines: every item of an array and every
member of an object has a line of its own, two spaces deeper than the bracket, and
empty arrays and objects are two brackets. In strings a quote, a backslash and the
control characters are escaped; all other characters are written as they are.
-/

namespace TaskRunner.Json

/-- The hexadecimal digits of a number below 256, two of them, in lower case. -/
def hexByte (n : Nat) : String :=
  String.ofList [Nat.digitChar (n / 16), Nat.digitChar (n % 16)]

/-- A character inside a string. -/
def escapeChar (c : Char) : String :=
  if c = '"' then "\\\""
  else if c = '\\' then "\\\\"
  else if c = '\x08' then "\\b"
  else if c = '\t' then "\\t"
  else if c = '\n' then "\\n"
  else if c = '\x0c' then "\\f"
  else if c = '\r' then "\\r"
  else if c.toNat < 0x20 then "\\u00" ++ hexByte c.toNat
  else String.singleton c

/-- A string in its quotes. -/
def quote (s : String) : String := "\"" ++ String.join (s.toList.map escapeChar) ++ "\""

/-- The digits of a number, with a point before the last `decimals` of them. -/
def numberText (mantissa : Int) (decimals : Nat) : String :=
  let digits := mantissa.natAbs.repr.toList
  let padded := List.replicate (decimals + 1 - digits.length) '0' ++ digits
  let whole := String.ofList (padded.take (padded.length - decimals))
  let fraction := String.ofList (padded.drop (padded.length - decimals))
  (if mantissa < 0 then "-" else "") ++ whole ++ (if decimals = 0 then "" else "." ++ fraction)

/-- A new line that is indented by `depth` steps of two spaces. -/
def newLine (depth : Nat) : String := "\n" ++ String.ofList (List.replicate (2 * depth) ' ')

mutual

/-- A value whose first line is indented by `depth` steps already. -/
def prettyAt (depth : Nat) : Json → String
  | .null => "null"
  | .bool value => if value then "true" else "false"
  | .number mantissa decimals => numberText mantissa decimals
  | .string value => quote value
  | .array [] => "[]"
  | .array (item :: items) =>
    "[" ++ newLine (depth + 1) ++ prettyAt (depth + 1) item ++ prettyItems (depth + 1) items
      ++ newLine depth ++ "]"
  | .object [] => "\x7b\x7d"
  | .object ((name, value) :: members) =>
    "\x7b" ++ newLine (depth + 1) ++ quote name ++ ": " ++ prettyAt (depth + 1) value
      ++ prettyMembers (depth + 1) members ++ newLine depth ++ "\x7d"

/-- The items behind the first of an array, each with the comma and the new line before it. -/
def prettyItems (depth : Nat) : List Json → String
  | [] => ""
  | item :: items => "," ++ newLine depth ++ prettyAt depth item ++ prettyItems depth items

/-- The members behind the first of an object, each with the comma and the new line before it. -/
def prettyMembers (depth : Nat) : List (String × Json) → String
  | [] => ""
  | (name, value) :: members =>
    "," ++ newLine depth ++ quote name ++ ": " ++ prettyAt depth value
      ++ prettyMembers depth members

end

/-- A value as indented text, without a line feed at its end. -/
def pretty (value : Json) : String := prettyAt 0 value

end TaskRunner.Json
