/-!
# Blank characters and the words between them

A text is a list of characters. This module fixes which characters are blank (the
White_Space property of Unicode), and cuts texts at them: `trimStart`, `trimEnd`,
`trim`, the `words` between runs of blanks and the `lines` between line feeds.
-/

namespace TaskRunner

/-- A text is the list of its characters, in order. -/
abbrev Text := List Char

namespace Text

-- ── The White_Space property ──────────────────────────────────────────────────

/-- The closed ranges of code points with the White_Space property, in order. -/
def blankRanges : List (Nat × Nat) :=
  [(0x09, 0x0D), (0x20, 0x20), (0x85, 0x85), (0xA0, 0xA0), (0x1680, 0x1680),
   (0x2000, 0x200A), (0x2028, 0x2029), (0x202F, 0x202F), (0x205F, 0x205F), (0x3000, 0x3000)]

/-- A character is blank when its code point lies in one of the ranges. -/
def isBlank (c : Char) : Bool :=
  blankRanges.any fun range => range.1 ≤ c.toNat && c.toNat ≤ range.2

/-- Every ASCII blank is blank. -/
theorem isBlank_of_isWhitespace {c : Char} (h : c.isWhitespace = true) : isBlank c = true := by
  simp only [Char.isWhitespace, Bool.or_eq_true, decide_eq_true_eq] at h
  rcases h with ((h | h) | h) | h <;> subst h <;> decide

-- ── Trimming ─────────────────────────────────────────────────────────────────

/-- The text from its first character that is not blank. -/
def trimStart (s : Text) : Text := s.dropWhile isBlank

/-- The text up to its last character that is not blank. -/
def trimEnd (s : Text) : Text := (s.reverse.dropWhile isBlank).reverse

/-- The text without the blanks around it. -/
def trim (s : Text) : Text := trimEnd (trimStart s)

theorem length_trimStart_le (s : Text) : (trimStart s).length ≤ s.length :=
  (List.dropWhile_suffix isBlank).length_le

-- ── Words and lines ──────────────────────────────────────────────────────────

/-- The words of a text: what stands between blanks, without the empty pieces. -/
def words (s : Text) : List Text := (s.splitOnP isBlank).filter (!·.isEmpty)

/-- The lines of a text, without their line feeds. -/
def lines (s : Text) : List Text := s.splitOn '\n'

end Text

-- ── The same on strings ──────────────────────────────────────────────────────

/-- The string without the blanks around it. -/
def trimmed (s : String) : String := String.ofList (Text.trim s.toList)

/-- The string without the blanks at its end. -/
def trimmedEnd (s : String) : String := String.ofList (Text.trimEnd s.toList)

end TaskRunner
