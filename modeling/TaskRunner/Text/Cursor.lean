import TaskRunner.Text.Block

/-!
# Cursors

A cursor is a text together with the part of it that is still to come. That part is
an end of the text by construction, so a cursor always stands between two
characters. What a cursor says of its place (`before`, `offset`, `position`) is
computed from the text before it. Moving a cursor is one of the scanners, applied to
what is still to come: `moveTo` steps to a later rest, `reset` goes back to an octet
offset seen before.

`OctetCursor` is the cursor that counts octets and may come to stand anywhere; this one is
what that comes to where all its slices are allowed.
-/

namespace TaskRunner

/-- A place between two characters of a text. -/
structure Cursor where
  source : Text
  rest : Text
  suffix : rest <:+ source

namespace Cursor

open Text

/-- The cursor in front of the first character. -/
def new (source : Text) : Cursor := ⟨source, source, List.suffix_refl _⟩

-- ── Where a cursor stands ────────────────────────────────────────────────────

/-- The text before the cursor. -/
def before (c : Cursor) : Text := c.source.take (c.source.length - c.rest.length)

/-- The text is what is before the cursor and what is still to come. -/
theorem before_append_rest (c : Cursor) : c.before ++ c.rest = c.source := by
  obtain ⟨front, hfront⟩ := c.suffix
  simp [before, ← hfront]

/-- The number of octets before the cursor. -/
def offset (c : Cursor) : Nat := octets c.before

/-- The line and column of the cursor. -/
def position (c : Cursor) : Position := Position.ofPrefix c.before

/-- The end of the text is reached. -/
def atEnd (c : Cursor) : Bool := c.rest.isEmpty

/-- The next character. -/
def peek (c : Cursor) : Option Char := c.rest.head?

-- ── Moving ───────────────────────────────────────────────────────────────────

/-- The cursor in front of a later rest of the same text. -/
def moveTo (c : Cursor) (rest : Text) (h : rest <:+ c.rest) : Cursor :=
  ⟨c.source, rest, h.trans c.suffix⟩

/-- The cursor at an octet offset of the same text. -/
def reset (c : Cursor) (offset : Nat) : Cursor :=
  ⟨c.source, c.source.drop (takeOctets offset c.source).length, List.drop_suffix _ _⟩

/-- Steps over one character and gives it. -/
def bump (c : Cursor) : Option Char × Cursor :=
  (c.peek, c.moveTo (c.rest.drop 1) (List.drop_suffix _ _))

/-- Steps over `word` if it comes next. -/
def eat (c : Cursor) (word : Text) : Bool × Cursor :=
  match h : Text.eat word c.rest with
  | some rest => (true, c.moveTo rest (eat_eq_some_iff.1 h ▸ List.suffix_append _ _))
  | none => (false, c)

/-- Steps over `word` if it comes next and no task name runs on from it. -/
def eatKeyword (c : Cursor) (word : Text) : Bool × Cursor :=
  match h : Text.eatKeyword word c.rest with
  | some rest => (true, c.moveTo rest (eat_of_eatKeyword h ▸ List.suffix_append _ _))
  | none => (false, c)

/-- Steps over blanks and gives the number of line feeds among them. -/
def skipSpacing (c : Cursor) : Nat × Cursor :=
  (leadingLineFeeds c.rest, c.moveTo (Text.skipSpacing c.rest) (List.dropWhile_suffix _))

/-- Steps over spaces and tabs and says whether there were any. -/
def skipInline (c : Cursor) : Bool × Cursor :=
  (c.rest.head?.any isInlineBlank, c.moveTo (Text.skipInline c.rest) (List.dropWhile_suffix _))

/-- Steps over a line end; the end of the text is one. -/
def eatLineEnd (c : Cursor) : Bool × Cursor :=
  match h : Text.eatLineEnd c.rest with
  | some rest => (true, c.moveTo rest (suffix_of_eatLineEnd h))
  | none => (false, c)

/-- Takes the characters up to the first that does not satisfy `p`. -/
def takeWhile (c : Cursor) (p : Char → Bool) : Text × Cursor :=
  (c.rest.takeWhile p, c.moveTo (c.rest.dropWhile p) (List.dropWhile_suffix _))

/-- Takes a word of at least one character. -/
def word (c : Cursor) : Option Text × Cursor :=
  if (c.rest.takeWhile isWordChar).isEmpty then (none, c)
  else (some (c.rest.takeWhile isWordChar), (c.takeWhile isWordChar).2)

/-- Takes the text up to `mark` and stops in front of it. -/
def upTo (c : Cursor) (mark : Text) : Option Text × Cursor :=
  match h : Text.upTo mark c.rest with
  | some found => (some found.1, c.moveTo found.2 ⟨found.1, (append_of_upTo h).symm⟩)
  | none => (none, c)

/-- Takes the rest of the line and stops in front of its end. -/
def takeLine (c : Cursor) : Text × Cursor :=
  ((splitLine c.rest).1, c.moveTo (splitLine c.rest).2 (splitLine_suffix _))

/-- Takes a span between two marks and gives the text inside. -/
def quoted (c : Cursor) (mark : Char) : Except (ParseError Position) Text × Cursor :=
  match h : c.rest with
  | [] => (.error (.expected (.mark mark) c.position), c)
  | first :: rest =>
    if first = mark then
      match hs : quotedSpan mark rest with
      | some span =>
        (.ok span.1, c.moveTo span.2 (by
          rw [h, append_of_quotedSpan hs]
          exact ((List.suffix_cons mark span.2).trans (List.suffix_append _ _)).trans
            (List.suffix_cons _ _)))
      | none => (.error (.unterminatedQuote mark c.position), c)
    else (.error (.expected (.mark mark) c.position), c)

/-- Where a scan of a block stops when it fails: at the mark of a span that does not close, else
at the end of the text. -/
def stoppedAt : ParseError Text → Text
  | .unterminatedQuote _ opening => opening
  | _ => []

/-- Takes the text of a block and stops in front of its closing brace. A failing scan leaves the
cursor where it stopped. -/
def balanced (c : Cursor) : Except (ParseError Position) Text × Cursor :=
  match h : Text.balanced c.rest with
  | .ok found => (.ok found.1, c.moveTo found.2 ⟨found.1, (append_of_scanBlock h).1.symm⟩)
  | .error e =>
    (.error (e.locate c.source),
      ⟨c.source, c.source.drop (c.source.length - (stoppedAt e).length), List.drop_suffix _ _⟩)

end Cursor

end TaskRunner
