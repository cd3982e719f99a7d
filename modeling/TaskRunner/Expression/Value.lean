import TaskRunner.Expression.Basic
import TaskRunner.Expansion

/-!
# The value of an expression

A name has the value of the variable, and `env.NAME` has that same value; every other
access is empty. What has no value is the empty string and never an error, so that
`||` can supply one.
-/

namespace TaskRunner

/-- The string that an expression stands for. -/
def Expression.value (lookup : Lookup) : Expression → String
  | .identifier name => (lookup name).getD ""
  | .literal value => value
  | .access (.identifier "env") property => (lookup property).getD ""
  | .access _ _ => ""
  | .either left right =>
    if (left.value lookup).isEmpty then right.value lookup else left.value lookup

end TaskRunner
