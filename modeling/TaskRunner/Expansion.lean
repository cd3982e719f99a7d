import TaskRunner.Text.Scan

/-!
# Expansion of variable references

In a quoted value `$NAME` and `${NAME}` stand for the value of a variable. A reference
is as long as the name reaches; a dollar sign that starts no reference stands for
itself. Values are put in as they are and not looked at again.
-/

namespace TaskRunner

/-- What names stand for. -/
abbrev Lookup := String → Option String

namespace Text

/-- The name that is referred to behind a dollar sign, and the text behind the reference. -/
def reference? : Text → Option (Text × Text)
  | [] => none
  | c :: rest =>
    if isWordChar c then some ((c :: rest).takeWhile isWordChar, (c :: rest).dropWhile isWordChar)
    else if c = '{' then
      match rest.dropWhile isWordChar with
      | '}' :: after =>
        if (rest.takeWhile isWordChar).isEmpty then none
        else some (rest.takeWhile isWordChar, after)
      | _ => none
    else none

theorem length_reference_le {s name after : Text} (h : reference? s = some (name, after)) :
    after.length ≤ s.length := by
  unfold reference? at h
  split at h
  · exact absurd h (by simp)
  · rename_i c rest
    split at h
    · simp only [Option.some.injEq, Prod.mk.injEq] at h
      rw [← h.2]
      exact (List.dropWhile_suffix _).length_le
    · split at h
      · split at h
        · rename_i rest' hdrop
          split at h
          · exact absurd h (by simp)
          · simp only [Option.some.injEq, Prod.mk.injEq] at h
            have := (List.dropWhile_suffix isWordChar (l := rest)).length_le
            rw [hdrop, h.2] at this
            simp only [List.length_cons] at this ⊢
            omega
        · exact absurd h (by simp)
      · exact absurd h (by simp)

/-- The text with its references replaced by values; names without a value vanish. -/
def expand (lookup : Lookup) : Text → Text
  | [] => []
  | c :: rest =>
    if c = '$' then
      match h : reference? rest with
      | some (name, after) =>
        have : after.length ≤ rest.length := length_reference_le h
        ((lookup (String.ofList name)).getD "").toList ++ expand lookup after
      | none => c :: expand lookup rest
    else c :: expand lookup rest
termination_by s => s.length

end Text

/-- The string with its references replaced by values; names without a value vanish. -/
def expanded (lookup : Lookup) (s : String) : String := String.ofList (Text.expand lookup s.toList)

end TaskRunner
