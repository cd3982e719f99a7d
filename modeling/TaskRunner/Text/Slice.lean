import TaskRunner.Text.Position

/-!
# Slices

A text is cut at octet offsets. There is a cut only between two characters: `cut?` gives
`none` where the offset lies inside a character or behind the end, and so do all that are
made of it, the end of a text from an offset on (`from?`), the text between two offsets
(`slice?`) and the position of an offset (`lineColumn?`). `find?` says at which offset a
text first occurs.
-/

namespace TaskRunner.Text

/-- A text cut at an octet offset, which may lie neither behind the end nor inside a character. -/
def cut? : Nat → Text → Option (Text × Text)
  | n, [] => if n = 0 then some ([], []) else none
  | n, c :: rest =>
    if n = 0 then some ([], c :: rest)
    else if c.utf8Size ≤ n then
      (cut? (n - c.utf8Size) rest).map fun found => (c :: found.1, found.2)
    else none

/-- The text from an octet offset on. -/
def from? (offset : Nat) (s : Text) : Option Text := (cut? offset s).map (·.2)

/-- The text between two octet offsets. -/
def slice? (s : Text) (i j : Nat) : Option Text :=
  match cut? i s with
  | none => none
  | some (_, rest) => if i ≤ j then (cut? (j - i) rest).map (·.1) else none

/-- The position of an octet offset; an offset behind the end counts as the end. -/
def lineColumn? (s : Text) (offset : Nat) : Option Position :=
  (cut? (min offset (octets s)) s).map fun found => Position.ofPrefix found.1

/-- The octet offset at which `mark` first occurs. -/
def find? (mark : Text) : Text → Option Nat
  | [] => if mark.isEmpty then some 0 else none
  | c :: rest =>
    if mark.isPrefixOf (c :: rest) then some 0 else (find? mark rest).map (c.utf8Size + ·)

-- ── Cuts between characters ──────────────────────────────────────────────────

/-- A text is cut where a part of it ends. -/
theorem cut?_octets (front rest : Text) :
    cut? (octets front) (front ++ rest) = some (front, rest) := by
  induction front with
  | nil => cases rest <;> rfl
  | cons c front ih =>
    have hpos := c.utf8Size_pos
    rw [octets, List.cons_append, cut?, if_neg (by omega), if_pos (Nat.le_add_right _ _),
      Nat.add_sub_cancel_left, ih]
    rfl

/-- A cut parts the text at its octet offset. -/
theorem eq_of_cut? {n : Nat} {s front rest : Text} (h : cut? n s = some (front, rest)) :
    s = front ++ rest ∧ octets front = n := by
  fun_induction cut? n s generalizing front with
  | case1 | case3 =>
    simp only [Option.some.injEq, Prod.mk.injEq] at h
    obtain ⟨rfl, rfl⟩ := h
    exact ⟨rfl, rfl⟩
  | case2 | case5 => exact absurd h (by simp)
  | case4 n c s hzero hfits ih =>
    obtain ⟨found, hfound, heq⟩ := Option.map_eq_some_iff.1 h
    simp only [Prod.mk.injEq] at heq
    obtain ⟨rfl, rfl⟩ := heq
    obtain ⟨hs, hoctets⟩ := ih hfound
    rw [octets, hoctets, List.cons_append, ← hs]
    exact ⟨rfl, by omega⟩

/-- The slice behind that part is what is left. -/
theorem from?_octets (front rest : Text) : from? (octets front) (front ++ rest) = some rest := by
  rw [from?, cut?_octets]
  rfl

/-- The slice between two such places is what stands between them. -/
theorem slice?_of_append (front text back : Text) :
    slice? (front ++ (text ++ back)) (octets front) (octets front + octets text) = some text := by
  rw [slice?, cut?_octets]
  dsimp only
  rw [if_pos (Nat.le_add_right _ _), Nat.add_sub_cancel_left, cut?_octets]
  rfl

/-- From the start it is the first part. -/
theorem slice?_front (front rest : Text) :
    slice? (front ++ rest) 0 (octets front) = some front := by
  have hslice := slice?_of_append [] front rest
  rwa [octets, Nat.zero_add] at hslice

/-- Up to the end it is the last one. -/
theorem slice?_back (front rest : Text) :
    slice? (front ++ rest) (octets front) (octets (front ++ rest)) = some rest := by
  have hslice := slice?_of_append front rest []
  rwa [List.append_nil, ← octets_append] at hslice

/-- Line and column at such a place are those of the part before it. -/
theorem lineColumn?_octets (front rest : Text) :
    lineColumn? (front ++ rest) (octets front) = some (Position.ofPrefix front) := by
  rw [lineColumn?, octets_append, Nat.min_eq_left (Nat.le_add_right _ _), cut?_octets]
  rfl

end TaskRunner.Text
