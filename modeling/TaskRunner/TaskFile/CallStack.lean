import TaskRunner.TaskFile.Resolution

/-!
# Chains of tasks

A task leads to its dependencies, and these to theirs. Whoever follows such a chain
keeps the qualified names on it and stops when a name would occur twice. Names come
from the finite list of the file, so the number of names not yet on the chain
(`TaskFile.remaining`) is a measure that every step of a chain lowers
(`remaining_concat_lt`).
-/

namespace TaskRunner

/-- A test that fails more often holds less often. -/
theorem countP_lt_of_imp {α : Type} {p q : α → Bool} {l : List α}
    (himp : ∀ a, p a = true → q a = true) {a : α} (ha : a ∈ l) (hq : q a = true)
    (hp : p a = false) : l.countP p < l.countP q := by
  induction l with
  | nil => exact absurd ha List.not_mem_nil
  | cons b l ih =>
    have hle : l.countP p ≤ l.countP q := List.countP_mono_left fun x _ => himp x
    simp only [List.countP_cons]
    rcases List.mem_cons.1 ha with rfl | ha
    · simp only [hp, hq]
      simpa using Nat.lt_succ_of_le hle
    · have hlt := ih ha
      cases hpb : p b with
      | false => simpa using Nat.lt_of_lt_of_le hlt (Nat.le_add_right _ _)
      | true => simpa [himp b hpb] using hlt

namespace TaskFile

/-- The number of listed names that are not on a chain. -/
def remaining (file : TaskFile) (chain : List String) : Nat :=
  file.names.countP fun name => !chain.contains name

/-- A listed name that is not yet on the chain leaves fewer names when it is put there. -/
theorem remaining_concat_lt {file : TaskFile} {chain : List String} {name : String}
    (hlisted : name ∈ file.names) (hnew : name ∉ chain) :
    file.remaining (chain ++ [name]) < file.remaining chain := by
  refine countP_lt_of_imp (fun other h => ?_) hlisted ?_ ?_
  · simp only [Bool.not_eq_true', List.contains_eq_mem, decide_eq_false_iff_not,
      List.mem_append] at h ⊢
    exact fun hmem => h (Or.inl hmem)
  · simpa using hnew
  · simp

/-- A longer chain leaves no more names. -/
theorem remaining_concat_le (file : TaskFile) (chain : List String) (name : String) :
    file.remaining (chain ++ [name]) ≤ file.remaining chain := by
  refine List.countP_mono_left fun other _ h => ?_
  simp only [Bool.not_eq_true', List.contains_eq_mem, decide_eq_false_iff_not,
    List.mem_append] at h ⊢
  exact fun hmem => h (Or.inl hmem)

end TaskFile

/-- A chain of names as messages write it. -/
def chainText (chain : List String) : String := " -> ".intercalate chain

end TaskRunner
