import TaskRunner.ParseError
import TaskRunner.Text.Scan
import TaskRunner.Text.Slice

/-!
# Cursors by octet offset

An octet cursor is a text and an octet offset in it, which may be any number. Scanners
move the offset by one, by the octets of a character or of a word, to where a search hit,
or back to where they began, and look at the text by slices from and up to offsets. A
slice is refused inside a character and behind the end, and then the scanner that asked for
it has no result: `none` is a scanner that breaks off, while a miss and an error are results.

The loops read one character at a time. They end since they only go on behind a character
that was read, which leaves fewer octets in front of them (`remaining`).
-/

namespace TaskRunner

/-- A text and an octet offset in it. -/
structure OctetCursor where
  source : Text
  pos : Nat
deriving DecidableEq, Repr

namespace OctetCursor

open Text

/-- The cursor at the first octet. -/
def new (source : Text) : OctetCursor := ⟨source, 0⟩

-- ── Looking ──────────────────────────────────────────────────────────────────

/-- The text from the cursor on. -/
def rest? (c : OctetCursor) : Option Text := from? c.pos c.source

/-- The end of the text is reached. -/
def atEnd (c : OctetCursor) : Bool := octets c.source ≤ c.pos

/-- The next character, if there is one. -/
def peek? (c : OctetCursor) : Option (Option Char) := c.rest?.map List.head?

/-- Whether `word` comes next. -/
def startsWith? (c : OctetCursor) (word : Text) : Option Bool := c.rest?.map word.isPrefixOf

/-- The line and column of an offset in the text of the cursor. -/
def positionAt? (c : OctetCursor) (offset : Nat) : Option Position := lineColumn? c.source offset

/-- The line and column of the cursor. -/
def position? (c : OctetCursor) : Option Position := c.positionAt? c.pos

/-- The number of octets in front of the cursor. -/
def remaining (c : OctetCursor) : Nat := octets c.source - c.pos

-- ── Moving by a number of octets ─────────────────────────────────────────────

/-- The cursor `n` octets further on. -/
def forward (c : OctetCursor) (n : Nat) : OctetCursor := { c with pos := c.pos + n }

/-- The cursor `n` octets back; there is none in front of the text. -/
def back? (c : OctetCursor) (n : Nat) : Option OctetCursor :=
  if n ≤ c.pos then some { c with pos := c.pos - n } else none

/-- The cursor at another offset. -/
def reset (c : OctetCursor) (offset : Nat) : OctetCursor := { c with pos := offset }

/-- A cursor that sees a character is before the end of the text. -/
theorem pos_lt_of_peek? {c : OctetCursor} {ch : Char} (h : c.peek? = some (some ch)) :
    c.pos < octets c.source := by
  obtain ⟨rest, hrest, hhead⟩ := Option.map_eq_some_iff.1 h
  obtain ⟨⟨front, rest⟩, hcut, rfl⟩ := Option.map_eq_some_iff.1 hrest
  obtain ⟨hsource, hpos⟩ := eq_of_cut? hcut
  cases rest with
  | nil => exact absurd hhead (by simp)
  | cons found rest =>
    rw [hsource, octets_append, hpos, octets]
    have := found.utf8Size_pos
    omega

/-- Behind a character that was seen there are fewer octets to come. -/
theorem remaining_forward_lt {c : OctetCursor} {ch : Char} {n : Nat}
    (h : c.peek? = some (some ch)) (hn : 0 < n) : (c.forward n).remaining < c.remaining := by
  have := pos_lt_of_peek? h
  simp only [remaining, forward]
  omega

-- ── Fixed texts ──────────────────────────────────────────────────────────────

/-- Steps over one character and gives it. -/
def bump (c : OctetCursor) : Option (Option Char × OctetCursor) :=
  c.peek?.map fun
    | none => (none, c)
    | some ch => (some ch, c.forward ch.utf8Size)

/-- A step over a character that was seen leaves fewer octets to come. -/
theorem remaining_bump_lt_of_peek? {c next : OctetCursor} {ch : Char} {found : Option Char}
    (hpeek : c.peek? = some (some ch)) (h : c.bump = some (found, next)) :
    next.remaining < c.remaining := by
  rw [bump, hpeek] at h
  obtain ⟨-, rfl⟩ := Prod.mk.inj (Option.some.inj h)
  exact remaining_forward_lt hpeek ch.utf8Size_pos

theorem remaining_bump_lt {c next : OctetCursor} {ch : Char} (h : c.bump = some (some ch, next)) :
    next.remaining < c.remaining := by
  obtain ⟨seen, hpeek, hseen⟩ := Option.map_eq_some_iff.1 h
  cases seen with
  | none => exact absurd (congrArg Prod.fst hseen) (by simp)
  | some found => exact remaining_bump_lt_of_peek? hpeek h

theorem remaining_bump_le {c next : OctetCursor} {found : Option Char}
    (h : c.bump = some (found, next)) : next.remaining ≤ c.remaining := by
  obtain ⟨seen, hpeek, hseen⟩ := Option.map_eq_some_iff.1 h
  cases seen with
  | none => exact Nat.le_of_eq (congrArg remaining (Prod.mk.inj hseen).2.symm)
  | some ch => exact Nat.le_of_lt (remaining_bump_lt_of_peek? hpeek h)

/-- Steps over `word` if it comes next. -/
def eat (c : OctetCursor) (word : Text) : Option (Bool × OctetCursor) :=
  (c.startsWith? word).map fun found =>
    if found then (true, c.forward (octets word)) else (false, c)

/-- Steps over `word` if it comes next and no task name runs on from it. -/
def eatKeyword (c : OctetCursor) (word : Text) : Option (Bool × OctetCursor) := do
  let rest ← c.rest?
  if word.isPrefixOf rest then
    let behind ← from? (octets word) rest
    if behind.head?.any isTaskNameChar then return (false, c)
    else return (true, c.forward (octets word))
  else return (false, c)

/-- Steps over a line end; the end of the text is one. -/
def eatLineEnd (c : OctetCursor) : Option (Bool × OctetCursor) :=
  if c.atEnd then some (true, c)
  else do
    let (_, behind) ← c.eat ['\r']
    let (found, next) ← behind.eat ['\n']
    if found then return (true, next) else return (false, next.reset c.pos)

-- ── Runs of characters ───────────────────────────────────────────────────────

/-- Steps over characters that satisfy `p`, one octet for each, and gives the number of line
feeds among them. -/
def skip (p : Char → Bool) (c : OctetCursor) : Option (Nat × OctetCursor) :=
  match _ : c.peek? with
  | none => none
  | some none => some (0, c)
  | some (some ch) =>
    if p ch then
      (skip p (c.forward 1)).map fun found =>
        (if ch = '\n' then found.1 + 1 else found.1, found.2)
    else some (0, c)
termination_by c.remaining
decreasing_by exact remaining_forward_lt ‹_› Nat.one_pos

/-- Steps over blanks and gives the number of line feeds among them. -/
def skipSpacing (c : OctetCursor) : Option (Nat × OctetCursor) := skip isSpacing c

/-- Steps over spaces and tabs and says whether there were any. -/
def skipInline (c : OctetCursor) : Option (Bool × OctetCursor) :=
  (skip isInlineBlank c).map fun found => (c.pos < found.2.pos, found.2)

/-- The cursor behind the next characters that satisfy `p`. -/
def passWhile (p : Char → Bool) (c : OctetCursor) : Option OctetCursor :=
  match _ : c.peek? with
  | none => none
  | some none => some c
  | some (some ch) => if p ch then passWhile p (c.forward ch.utf8Size) else some c
termination_by c.remaining
decreasing_by exact remaining_forward_lt ‹_› ch.utf8Size_pos

theorem remaining_passWhile_le {p : Char → Bool} {c next : OctetCursor}
    (h : passWhile p c = some next) : next.remaining ≤ c.remaining := by
  fun_induction passWhile p c with
  | case1 => exact absurd h (by simp)
  | case2 | case4 => exact Nat.le_of_eq (congrArg remaining (Option.some.inj h).symm)
  | case3 c ch hpeek hp ih =>
    exact Nat.le_trans (ih h) (Nat.le_of_lt (remaining_forward_lt hpeek ch.utf8Size_pos))

theorem passWhile_of_peek? {p : Char → Bool} {c : OctetCursor} {ch : Char}
    (h : c.peek? = some (some ch)) :
    passWhile p c = if p ch then passWhile p (c.forward ch.utf8Size) else some c := by
  rw [passWhile.eq_def]
  split <;> simp_all

/-- Takes the characters up to the first that does not satisfy `p`. -/
def takeWhile (c : OctetCursor) (p : Char → Bool) : Option (Text × OctetCursor) := do
  let next ← passWhile p c
  return (← slice? c.source c.pos next.pos, next)

/-- Taking characters goes on if the next one may be taken. -/
theorem remaining_takeWhile_lt {c next : OctetCursor} {p : Char → Bool} {ch : Char} {taken : Text}
    (hpeek : c.peek? = some (some ch)) (hp : p ch = true) (h : c.takeWhile p = some (taken, next)) :
    next.remaining < c.remaining := by
  obtain ⟨reached, hreached, htaken⟩ := Option.bind_eq_some_iff.1 h
  obtain ⟨text, -, heq⟩ := Option.bind_eq_some_iff.1 htaken
  obtain rfl : reached = next := congrArg Prod.snd (Option.some.inj heq)
  rw [passWhile_of_peek? hpeek, if_pos hp] at hreached
  exact Nat.lt_of_le_of_lt (remaining_passWhile_le hreached)
    (remaining_forward_lt hpeek ch.utf8Size_pos)

/-- Takes a word of at least one character. -/
def word (c : OctetCursor) : Option (Option Text × OctetCursor) :=
  (c.takeWhile isWordChar).map fun found =>
    (if found.1.isEmpty then none else some found.1, found.2)

/-- Takes the rest of the line and stops in front of its end. -/
def takeLine (c : OctetCursor) : Option (Text × OctetCursor) := do
  let (line, next) ← c.takeWhile (· != '\n')
  if line.getLast? = some '\r' then return (line.dropLast, ← next.back? 1)
  else return (line, next)

/-- Takes the text up to `mark` and stops in front of it. -/
def upTo (c : OctetCursor) (mark : Text) : Option (Option Text × OctetCursor) := do
  let rest ← c.rest?
  match find? mark rest with
  | none => return (none, c)
  | some hit => return (some (← slice? rest 0 hit), c.forward hit)

-- ── Quoted spans ─────────────────────────────────────────────────────────────

/-- The cursor behind the next `mark` that no backslash escapes, if there is one. -/
def close (mark : Char) (c : OctetCursor) : Option (Option OctetCursor) :=
  match _ : c.bump with
  | none => none
  | some (none, _) => some none
  | some (some ch, next) =>
    if ch = '\\' then
      match _ : next.bump with
      | none => none
      | some (_, behind) => close mark behind
    else if ch = mark then some (some next)
    else close mark next
termination_by c.remaining
decreasing_by
  · exact Nat.lt_of_le_of_lt (remaining_bump_le ‹_›) (remaining_bump_lt ‹_›)
  · exact remaining_bump_lt ‹_›

theorem remaining_close_le {mark : Char} {c next : OctetCursor}
    (h : close mark c = some (some next)) : next.remaining ≤ c.remaining := by
  fun_induction close mark c with
  | case1 | case2 | case3 => exact absurd h (by simp)
  | case4 c reached found behind hescaped hbump ih =>
    have hbehind := Nat.lt_of_le_of_lt (remaining_bump_le hescaped) (remaining_bump_lt hbump)
    exact Nat.le_trans (ih h) (Nat.le_of_lt hbehind)
  | case5 c reached hbump hescape =>
    obtain rfl : reached = next := by simpa using h
    exact Nat.le_of_lt (remaining_bump_lt hbump)
  | case6 c ch reached hbump hescape hmark ih =>
    exact Nat.le_trans (ih h) (Nat.le_of_lt (remaining_bump_lt hbump))

/-- Takes a span between two marks and gives the text inside. -/
def quoted (c : OctetCursor) (mark : Char) :
    Option (Except (ParseError Position) Text × OctetCursor) := do
  if (← c.peek?) = some mark then
    let inner := c.forward mark.utf8Size
    match ← close mark inner with
    | some next =>
      let closing ← next.back? mark.utf8Size
      return (.ok (← slice? c.source inner.pos closing.pos), next)
    | none => return (.error (.unterminatedQuote mark (← c.position?)), c)
  else return (.error (.expected (.mark mark) (← c.position?)), c)

theorem remaining_quoted_lt {c next : OctetCursor} {mark : Char} {inside : Text}
    (h : c.quoted mark = some (.ok inside, next)) : next.remaining < c.remaining := by
  obtain ⟨seen, hpeek, h⟩ := Option.bind_eq_some_iff.1 h
  split at h
  · rename_i hseen
    obtain ⟨closed, hclosed, h⟩ := Option.bind_eq_some_iff.1 h
    cases closed with
    | none =>
      obtain ⟨place, -, h⟩ := Option.bind_eq_some_iff.1 h
      exact absurd (congrArg Prod.fst (Option.some.inj h)) (by simp)
    | some reached =>
      obtain ⟨closing, -, h⟩ := Option.bind_eq_some_iff.1 h
      obtain ⟨text, -, h⟩ := Option.bind_eq_some_iff.1 h
      obtain rfl : reached = next := congrArg Prod.snd (Option.some.inj h)
      exact Nat.lt_of_le_of_lt (remaining_close_le hclosed)
        (remaining_forward_lt (hseen ▸ hpeek) mark.utf8Size_pos)
  · obtain ⟨place, -, h⟩ := Option.bind_eq_some_iff.1 h
    exact absurd (congrArg Prod.fst (Option.some.inj h)) (by simp)

-- ── Blocks ───────────────────────────────────────────────────────────────────

/-- Each of the nested scans that wait, the innermost first, blames the brace it began at. -/
def blame (c : OctetCursor) : ParseError Position → List Nat → Option (ParseError Position)
  | e, [] => some e
  | _, opening :: outer => do
    c.blame (.unterminatedBlock .nested (← c.positionAt? opening)) outer

/-- The scan of a block up to its closing brace. `opens` are the offsets of the braces that were
opened in it, the innermost first: at each of them a nested scan began, which ends in front of
the brace that closes it. `atLineStart` says whether only blanks stand between the last line feed
of the innermost scan and the cursor. -/
def passBlock (opens : List Nat) (atLineStart : Bool) (c : OctetCursor) :
    Option (Except (ParseError Position) Unit × OctetCursor) :=
  match _ : c.peek? with
  | none => none
  | some none => do
    return (.error (← c.blame (.unterminatedBlock .block (← c.position?)) opens), c)
  | some (some ch) =>
    if ch = '\n' then passBlock opens true (c.forward 1)
    else if ch = ' ' ∨ ch = '\t' ∨ ch = '\r' then passBlock opens atLineStart (c.forward 1)
    else if ch = '#' ∧ atLineStart = true then
      match _ : c.takeWhile (· != '\n') with
      | none => none
      | some (_, next) => passBlock opens atLineStart next
    else if ch = '}' then
      match opens with
      | [] => some (.ok (), c)
      | _ :: outer => passBlock outer false (c.forward 1)
    else if ch = '"' ∨ ch = '\'' then
      match _ : c.quoted ch with
      | none => none
      | some (.error e, next) => some (.error e, next)
      | some (.ok _, next) => passBlock opens false next
    else if ch = '{' then passBlock (c.pos :: opens) false (c.forward 1)
    else if ch = '\\' then
      match _ : c.bump with
      | none => none
      | some (_, escaped) =>
        match _ : escaped.bump with
        | none => none
        | some (_, next) => passBlock opens false next
    else
      match _ : c.bump with
      | none => none
      | some (_, next) => passBlock opens false next
termination_by c.remaining
decreasing_by
  · exact remaining_forward_lt ‹_› Nat.one_pos
  · exact remaining_forward_lt ‹_› Nat.one_pos
  · exact remaining_takeWhile_lt (p := (· != '\n')) ‹_› (bne_iff_ne.2 ‹_›) ‹_›
  · exact remaining_forward_lt ‹_› Nat.one_pos
  · exact remaining_quoted_lt ‹_›
  · exact remaining_forward_lt ‹_› Nat.one_pos
  · exact Nat.lt_of_le_of_lt (remaining_bump_le ‹_›) (remaining_bump_lt_of_peek? ‹_› ‹_›)
  · exact remaining_bump_lt_of_peek? ‹_› ‹_›

/-- Takes the text of a block and stops in front of its closing brace. A failing scan leaves the
cursor where it stopped. -/
def balanced (c : OctetCursor) : Option (Except (ParseError Position) Text × OctetCursor) := do
  match ← passBlock [] false c with
  | (.error e, next) => return (.error e, next)
  | (.ok _, next) => return (.ok (← slice? c.source c.pos next.pos), next)

end OctetCursor

end TaskRunner
