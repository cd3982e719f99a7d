import TaskRunner.ParseError
import TaskRunner.Text.Quoted

/-!
# Blocks in braces

A block runs from its opening brace to the first closing brace that belongs to it.
Braces in quotes, behind a backslash and in comment lines are ordinary text, and
every other opening brace inside has a closing brace of its own. `balanced` reads
behind the opening brace and stops in front of the closing one.

The scan goes character by character and knows what it is inside of (`Inside`) and
which braces are still open inside the block, innermost first.
-/

namespace TaskRunner.Text

/-- What the scanner of a block is inside of. In code it knows whether only blanks stand between
the last line feed of this nesting level and here, since a comment starts only there. -/
inductive Inside
  | code (atLineStart : Bool)
  | comment
  | quotes (mark : Char) (opening : Text)

/-- The text reaches its end inside a block: the outermost brace left open inside the block is
to blame, and the block itself if there is none. -/
def unclosed (opens : List Text) : ParseError Text :=
  match opens.getLast? with
  | none => .unterminatedBlock .block []
  | some opening => .unterminatedBlock .nested opening

/-- Puts read characters in front of what a scan of a block gives. -/
def prepend (read : Text) (scan : Except (ParseError Text) (Text × Text)) :
    Except (ParseError Text) (Text × Text) :=
  scan.map fun found => (read ++ found.1, found.2)

/-- The rest of a block, seen from `inside`, with the braces that were opened in it. -/
def scanBlock : List Text → Inside → Text → Except (ParseError Text) (Text × Text)
  | _, .quotes mark opening, [] => .error (.unterminatedQuote mark opening)
  | opens, .quotes mark opening, c :: rest =>
    if c = '\\' then
      match rest with
      | [] => .error (.unterminatedQuote mark opening)
      | d :: rest => prepend [c, d] (scanBlock opens (.quotes mark opening) rest)
    else if c = mark then prepend [c] (scanBlock opens (.code false) rest)
    else prepend [c] (scanBlock opens (.quotes mark opening) rest)
  | opens, .comment, [] => .error (unclosed opens)
  | opens, .comment, c :: rest =>
    if c = '\n' then prepend [c] (scanBlock opens (.code true) rest)
    else prepend [c] (scanBlock opens .comment rest)
  | opens, .code _, [] => .error (unclosed opens)
  | opens, .code atLineStart, c :: rest =>
    if c = '\n' then prepend [c] (scanBlock opens (.code true) rest)
    else if c = ' ' ∨ c = '\t' ∨ c = '\r' then
      prepend [c] (scanBlock opens (.code atLineStart) rest)
    else if c = '#' ∧ atLineStart = true then prepend [c] (scanBlock opens .comment rest)
    else if c = '}' then
      match opens with
      | [] => .ok ([], c :: rest)
      | _ :: outer => prepend [c] (scanBlock outer (.code false) rest)
    else if c = '"' ∨ c = '\'' then
      prepend [c] (scanBlock opens (.quotes c (c :: rest)) rest)
    else if c = '{' then prepend [c] (scanBlock ((c :: rest) :: opens) (.code false) rest)
    else if c = '\\' then
      match rest with
      | [] => .error (unclosed opens)
      | d :: rest => prepend [c, d] (scanBlock opens (.code false) rest)
    else prepend [c] (scanBlock opens (.code false) rest)

/-- The text of a block whose opening brace was just read, and the rest from its closing brace. -/
def balanced (s : Text) : Except (ParseError Text) (Text × Text) :=
  scanBlock [] (.code false) s

theorem prepend_eq_ok {read a b : Text} {scan : Except (ParseError Text) (Text × Text)}
    (h : prepend read scan = .ok (a, b)) : ∃ found, scan = .ok (found, b) ∧ a = read ++ found := by
  unfold prepend at h
  cases scan with
  | error e => exact absurd h (by simp [Except.map])
  | ok found =>
    simp only [Except.map, Except.ok.injEq, Prod.mk.injEq] at h
    exact ⟨found.1, by rw [← h.2], h.1.symm⟩

/-- A block that closes is its text and a rest that starts with the closing brace. -/
theorem append_of_scanBlock {opens : List Text} {inside : Inside} {s block rest : Text}
    (h : scanBlock opens inside s = .ok (block, rest)) :
    s = block ++ rest ∧ ∃ after, rest = '}' :: after := by
  fun_induction scanBlock opens inside s generalizing block with
  | case1 | case2 | case6 | case9 | case17 => exact absurd h (by simp)
  | case13 =>
    simp only [Except.ok.injEq, Prod.mk.injEq] at h
    obtain ⟨rfl, rfl⟩ := h
    exact ⟨rfl, _, rfl⟩
  | _ =>
    rename_i ih
    obtain ⟨found, hfound, rfl⟩ := prepend_eq_ok h
    obtain ⟨hs, hrest⟩ := ih hfound
    exact ⟨by simp [hs], hrest⟩

end TaskRunner.Text
