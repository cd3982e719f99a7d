import TaskRunner.Json.Basic

/-!
# Records in JSON

A record is written as an object, where each field is a member, or as an array of its
fields in a fixed order, where fields at the end may be left out. An object may hold
other members besides; an array may not be longer than the fields.

A record of one of several kinds begins with its tag: the member `type` of an object,
or the first item of an array, whose other items are the fields.

`field?` reads both forms. What a field holds is smaller than the record
(`sizeOf_lt_of_field`), so records that hold records can be read by recursion.
-/

namespace TaskRunner.Json

-- ── Plain values ─────────────────────────────────────────────────────────────

/-- The string that a value is. -/
def text? : Json → Option String
  | .string value => some value
  | _ => none

/-- The truth value that a value is. -/
def flag? : Json → Option Bool
  | .bool value => some value
  | _ => none

/-- The items of the array that a value is. -/
def items? : Json → Option (List Json)
  | .array items => some items
  | _ => none

/-- Reads every item of an array. -/
def listOf? {α : Type} (read : Json → Option α) (value : Json) : Option (List α) :=
  value.items?.bind fun items => items.mapM read

/-- A value that may be `null`. -/
def nullable? {α : Type} (read : Json → Option α) : Json → Option (Option α)
  | .null => some none
  | value => (read value).map some

-- ── Fields ───────────────────────────────────────────────────────────────────

/-- The members of a record with the given fields. -/
def members? (fields : List String) : Json → Option (List (String × Json))
  | .object members => some members
  | .array items => if items.length ≤ fields.length then some (fields.zip items) else none
  | _ => none

/-- What a field of a record holds. -/
def field? (fields : List String) (name : String) (record : Json) : Option Json :=
  (record.members? fields).bind (member? name)

/-- Reads a field that must be there. -/
def required? {α : Type} (fields : List String) (name : String) (read : Json → Option α)
    (record : Json) : Option α :=
  (record.field? fields name).bind read

/-- Reads a field that may be missing. -/
def optional? {α : Type} (fields : List String) (name : String) (absent : α)
    (read : Json → Option α) (record : Json) : Option α :=
  (record.members? fields).bind fun members =>
    match member? name members with
    | none => some absent
    | some value => read value

/-- The tag of a record of one of several kinds, and the record of its fields. -/
def tag? : Json → Option (Json × Json)
  | .object members => (member? "type" members).map fun tag => (tag, .object members)
  | .array (tag :: items) => some (tag, .array items)
  | _ => none

-- ── Sizes ────────────────────────────────────────────────────────────────────

theorem sizeOf_lt_of_items {value : Json} {items : List Json} (h : value.items? = some items) :
    sizeOf items < sizeOf value := by
  unfold items? at h
  split at h
  · simp only [Option.some.injEq] at h
    subst h
    simp only [array.sizeOf_spec]
    omega
  · exact absurd h (by simp)

theorem mem_of_member {name : String} {members : List (String × Json)} {value : Json}
    (h : member? name members = some value) : (name, value) ∈ members := by
  induction members with
  | nil => exact absurd h (by simp [member?])
  | cons first rest ih =>
    obtain ⟨key, held⟩ := first
    simp only [member?] at h
    split at h
    · rename_i hkey
      simp only [Option.some.injEq] at h
      subst hkey h
      exact List.mem_cons_self
    · exact List.mem_cons_of_mem _ (ih h)

/-- What a field holds is smaller than the record. -/
theorem sizeOf_lt_of_field {fields : List String} {name : String} {record value : Json}
    (h : record.field? fields name = some value) : sizeOf value < sizeOf record := by
  unfold field? members? at h
  split at h
  · rename_i members
    have := sizeOf_lt_of_member h
    simp only [object.sizeOf_spec]
    omega
  · rename_i items
    split at h
    · have hmem := List.of_mem_zip (mem_of_member h)
      have := List.sizeOf_lt_of_mem hmem.2
      simp only [array.sizeOf_spec]
      omega
    · exact absurd h (by simp)
  · exact absurd h (by simp)

/-- The record of the fields is not larger than the record with its tag. -/
theorem sizeOf_le_of_tag {record tag rest : Json} (h : record.tag? = some (tag, rest)) :
    sizeOf rest ≤ sizeOf record := by
  unfold tag? at h
  split at h
  · obtain ⟨_, _, heq⟩ := Option.map_eq_some_iff.1 h
    simp only [Prod.mk.injEq] at heq
    exact Nat.le_of_eq (by rw [← heq.2])
  · simp only [Option.some.injEq, Prod.mk.injEq] at h
    rw [← h.2]
    simp only [array.sizeOf_spec, List.cons.sizeOf_spec]
    omega
  · exact absurd h (by simp)

end TaskRunner.Json
