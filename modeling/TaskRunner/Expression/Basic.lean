/-!
# Expressions

The language between double braces: names, accesses to a property, quoted strings,
and `||` for "the left value, or the right one if it is empty".
-/

namespace TaskRunner

/-- What may stand between double braces. -/
inductive Expression
  | identifier (name : String)
  | access (object : Expression) (property : String)
  | literal (value : String)
  | either (left right : Expression)
deriving DecidableEq, Repr, Inhabited

end TaskRunner
