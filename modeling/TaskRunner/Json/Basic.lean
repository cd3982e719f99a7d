/-!
# JSON values

A JSON value is a tree of arrays and objects over nulls, truth values, numbers and
strings. The members of an object keep their order. A number is an integer divided
by a power of ten, so that `1` and `1.0` are different values.
-/

namespace TaskRunner

/-- A JSON value. -/
inductive Json
  | null
  | bool (value : Bool)
  | number (mantissa : Int) (decimals : Nat)
  | string (value : String)
  | array (items : List Json)
  | object (members : List (String × Json))
deriving Repr, Inhabited

namespace Json

/-- An array of strings. -/
def strings (values : List String) : Json := .array (values.map .string)

/-- The member of the given name, the first if there are several. -/
def member? (name : String) : List (String × Json) → Option Json
  | [] => none
  | (key, value) :: rest => if key = name then some value else member? name rest

/-- What a member holds is smaller than the object it is in. -/
theorem sizeOf_lt_of_member {name : String} {members : List (String × Json)} {value : Json}
    (h : member? name members = some value) : sizeOf value < sizeOf members := by
  induction members with
  | nil => exact absurd h (by simp [member?])
  | cons first rest ih =>
    obtain ⟨key, held⟩ := first
    simp only [member?] at h
    split at h
    · simp only [Option.some.injEq] at h
      subst h
      simp only [List.cons.sizeOf_spec, Prod.mk.sizeOf_spec]
      omega
    · have := ih h
      simp only [List.cons.sizeOf_spec]
      omega

end Json

end TaskRunner
