import TaskRunner.Text.Blank

/-!
# Positions in a text

A place in a text is given in three ways: by the text before it, by the number of
UTF-8 octets before it, and by a line and a column, both counted from one and in
characters. The text before determines the other two (`Position.ofPrefix`,
`octets`); `takeOctets` goes back from an octet count to the text before.
-/

namespace TaskRunner

/-- A line and a column, both counted from one; a column counts characters. -/
structure Position where
  line : Nat
  column : Nat
deriving DecidableEq, Repr, Inhabited

namespace Position

/-- Where every text starts. -/
def start : Position := ⟨1, 1⟩

/-- The position behind a character: the next line's start after a line feed, else the next column. -/
def step (p : Position) (c : Char) : Position :=
  if c = '\n' then ⟨p.line + 1, 1⟩ else ⟨p.line, p.column + 1⟩

/-- The position behind a text that starts at `Position.start`. -/
def ofPrefix (before : Text) : Position := before.foldl step start

/-- The position, in `source`, of the place where `rest` is still to come. -/
def ofRest (source rest : Text) : Position :=
  ofPrefix (source.take (source.length - rest.length))

theorem ofPrefix_append_singleton (before : Text) (c : Char) :
    ofPrefix (before ++ [c]) = (ofPrefix before).step c := by
  simp [ofPrefix]

end Position

namespace Text

/-- The number of octets of a text in UTF-8. -/
def octets : Text → Nat
  | [] => 0
  | c :: rest => c.utf8Size + octets rest

/-- The longest beginning of a text that takes at most `n` octets. -/
def takeOctets : Nat → Text → Text
  | _, [] => []
  | n, c :: rest => if c.utf8Size ≤ n then c :: takeOctets (n - c.utf8Size) rest else []

theorem octets_append (s t : Text) : octets (s ++ t) = octets s + octets t := by
  induction s with
  | nil => simp [octets]
  | cons c rest ih => simp [octets, ih, Nat.add_assoc]

/-- Cutting at the octet count of a beginning gives that beginning back. -/
theorem takeOctets_octets (s t : Text) : takeOctets (octets s) (s ++ t) = s := by
  induction s with
  | nil =>
    cases t with
    | nil => rfl
    | cons c rest =>
      have h : ¬ c.utf8Size ≤ 0 := by have := c.utf8Size_pos; omega
      simp [octets, takeOctets, h]
  | cons c rest ih =>
    simp only [octets, List.cons_append, takeOctets]
    rw [if_pos (Nat.le_add_right _ _), Nat.add_sub_cancel_left, ih]

/-- What is cut off is a beginning of the text. -/
theorem takeOctets_prefix (n : Nat) (s : Text) : takeOctets n s <+: s := by
  induction s generalizing n with
  | nil => simp [takeOctets]
  | cons c rest ih =>
    simp only [takeOctets]
    split
    · exact List.cons_prefix_cons.2 ⟨rfl, ih _⟩
    · exact List.nil_prefix

/-- The position of an octet offset; an offset behind the end counts as the end. -/
def lineColumn (s : Text) (offset : Nat) : Position := Position.ofPrefix (takeOctets offset s)

end Text

end TaskRunner
