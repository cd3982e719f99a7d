import TaskRunner.Proofs.BlockGrammar
import TaskRunner.Text.OctetCursor

/-! # Scanning by octet offsets

    A cursor by octet offset breaks off where it asks for a slice inside of a character.  It
    never does if it is **`inFrontOf`** an end of its text: there its offset is what the text
    takes in octets, less what that end takes, and each step of a scanner, be it by one octet,
    by a character, by a word or to where a search hit, leads in front of a shorter end.

    So for each scanner there is one equation: what it gives by offsets is what the scanner of
    texts gives for the end that the cursor is in front of.  The loops go by induction on that
    end (`passWhile_inFrontOf`, `skip_inFrontOf`, `close_inFrontOf`), and the scan of a block
    by induction on its length (**`passBlock_inFrontOf`**). -/

namespace TaskRunner

namespace OctetCursor

open Text

variable {source rest text : Text} {c : OctetCursor} {ch : Char}

/-! ## One round of a loop -/

/-- Passing blanks looks at one character and goes one octet on; line feeds are counted. -/
theorem skip_of_peek? {p : Char → Bool} (h : c.peek? = some (some ch)) :
    skip p c = if p ch then (skip p (c.forward 1)).map fun found =>
        (if ch = '\n' then found.1 + 1 else found.1, found.2) else some (0, c) := by
  rw [skip.eq_def]
  split <;> simp_all

/-- Looking for the closing mark takes a character at a time, and two where the first is a
backslash. -/
theorem close_eq (mark : Char) (c : OctetCursor) :
    close mark c = c.bump.bind fun found =>
      match found with
      | (none, _) => some none
      | (some ch, next) =>
        if ch = '\\' then next.bump.bind fun escaped => close mark escaped.2
        else if ch = mark then some (some next)
        else close mark next := by
  rw [close.eq_def]
  split
  · rename_i hbump; rw [hbump]; rfl
  · rename_i hbump; rw [hbump]; rfl
  · rename_i hbump; rw [hbump]
    simp only [Option.bind_some]
    split_ifs
    · split <;> simp_all
    · rfl
    · rfl

/-- What a scan of a block does at a character outside of quotes. -/
theorem passBlock_of_peek? (h : c.peek? = some (some ch)) (opens : List Nat) (here : Bool) :
    passBlock opens here c =
      if ch = '\n' then passBlock opens true (c.forward 1)
      else if ch = ' ' ∨ ch = '\t' ∨ ch = '\r' then passBlock opens here (c.forward 1)
      else if ch = '#' ∧ here = true then
        (c.takeWhile (· != '\n')).bind fun found => passBlock opens here found.2
      else if ch = '}' then
        match opens with
        | [] => some (.ok (), c)
        | _ :: outer => passBlock outer false (c.forward 1)
      else if ch = '"' ∨ ch = '\'' then
        (c.quoted ch).bind fun found =>
          match found with
          | (.error e, next) => some (.error e, next)
          | (.ok _, next) => passBlock opens false next
      else if ch = '{' then passBlock (c.pos :: opens) false (c.forward 1)
      else if ch = '\\' then
        c.bump.bind fun found => found.2.bump.bind fun escaped => passBlock opens false escaped.2
      else c.bump.bind fun found => passBlock opens false found.2 := by
  rw [passBlock.eq_def]
  split
  · simp_all
  · simp_all
  · rename_i hpeek
    obtain rfl := Option.some.inj (Option.some.inj (h.symm.trans hpeek))
    split_ifs
    · rfl
    · rfl
    · split <;> simp_all
    · rfl
    · split <;> simp_all
    · rfl
    · split
      · simp_all
      · split <;> simp_all
    · split <;> simp_all

/-! ## The place in front of an end of the text -/

/-- The cursor in front of an end of its text. -/
def inFrontOf (source rest : Text) : OctetCursor := ⟨source, octets source - octets rest⟩

/-- The place in front of a rest is the number of octets before it. -/
theorem inFrontOf_append (front rest : Text) :
    inFrontOf (front ++ rest) rest = ⟨front ++ rest, octets front⟩ := by
  rw [inFrontOf, octets_append, Nat.add_sub_cancel]

/-- Going on by the octets of a text leads behind the text. -/
theorem forward_inFrontOf (h : text ++ rest <:+ source) :
    (inFrontOf source (text ++ rest)).forward (octets text) = inFrontOf source rest := by
  obtain ⟨front, rfl⟩ := h
  simp only [inFrontOf, forward, octets_append, mk.injEq, true_and]
  omega

/-- The same for one character, by its width. -/
theorem forward_inFrontOf_cons (h : ch :: rest <:+ source) :
    (inFrontOf source (ch :: rest)).forward ch.utf8Size = inFrontOf source rest :=
  @forward_inFrontOf source rest [ch] h

/-- Going on by one octet is enough where the character has just one. -/
theorem forward_one_inFrontOf (h : ch :: rest <:+ source) (hone : ch.utf8Size = 1) :
    (inFrontOf source (ch :: rest)).forward 1 = inFrontOf source rest := by
  rw [← hone]
  exact forward_inFrontOf_cons h

/-- In front of an end of the source the slice up to the end succeeds, and is that end. -/
theorem rest?_inFrontOf (h : rest <:+ source) : (inFrontOf source rest).rest? = some rest := by
  obtain ⟨front, rfl⟩ := h
  rw [inFrontOf_append]
  exact from?_octets front rest

/-- So does looking at the next character. -/
theorem peek?_inFrontOf (h : rest <:+ source) :
    (inFrontOf source rest).peek? = some rest.head? := by
  rw [peek?, rest?_inFrontOf h]
  rfl

/-- An error may be placed anywhere in front of an end of the source, not only here. -/
theorem positionAt?_inFrontOf {place : Text} (h : place <:+ source) (rest : Text) :
    (inFrontOf source rest).positionAt? (inFrontOf source place).pos
      = some (Position.ofRest source place) := by
  obtain ⟨front, rfl⟩ := h
  rw [inFrontOf_append, positionAt?, inFrontOf, lineColumn?_octets, Position.ofRest]
  simp

/-- What stands between two such places is the slice between their offsets. -/
theorem slice?_inFrontOf (h : text ++ rest <:+ source) :
    slice? source (inFrontOf source (text ++ rest)).pos (inFrontOf source rest).pos = some text := by
  obtain ⟨front, rfl⟩ := h
  rw [← forward_inFrontOf (List.suffix_append front _), inFrontOf_append]
  exact slice?_of_append front text rest

/-- Going back by the width of the character before stays on a boundary. -/
theorem back?_inFrontOf (h : ch :: rest <:+ source) :
    (inFrontOf source rest).back? ch.utf8Size = some (inFrontOf source (ch :: rest)) := by
  simp only [← forward_inFrontOf_cons h, back?, forward, Nat.le_add_left, if_true,
    Nat.add_sub_cancel]

/-- Taking a character leads behind it, however wide it is. -/
theorem bump_inFrontOf_cons (h : ch :: rest <:+ source) :
    (inFrontOf source (ch :: rest)).bump = some (some ch, inFrontOf source rest) := by
  rw [bump, peek?_inFrontOf h, ← forward_inFrontOf_cons h]
  rfl

/-- At the end there is nothing to take and nowhere to go. -/
theorem bump_inFrontOf_nil : (inFrontOf source []).bump = some (none, inFrontOf source []) := by
  rw [bump, peek?_inFrontOf (List.nil_suffix)]
  rfl

/-! ## Fixed texts -/

/-- A text starts with a word just when the word can be eaten. -/
theorem isPrefixOf_eq (word s : Text) : word.isPrefixOf s = (Text.eat word s).isSome := by
  rw [Bool.eq_iff_iff, List.isPrefixOf_iff_prefix, Option.isSome_iff_exists]
  constructor
  · rintro ⟨behind, rfl⟩
    exact ⟨behind, eat_eq_some_iff.mpr rfl⟩
  · rintro ⟨behind, hbehind⟩
    exact ⟨behind, (eat_eq_some_iff.mp hbehind).symm⟩

/-- Eating a word leads behind it, or nowhere if it is not there. -/
theorem eat_inFrontOf (word : Text) (h : rest <:+ source) :
    (inFrontOf source rest).eat word = some (match Text.eat word rest with
      | some behind => (true, inFrontOf source behind)
      | none => (false, inFrontOf source rest)) := by
  rw [OctetCursor.eat, startsWith?, rest?_inFrontOf h, Option.map_some, Option.map_some,
    isPrefixOf_eq]
  cases heat : Text.eat word rest with
  | none => rfl
  | some behind =>
      obtain rfl := eat_eq_some_iff.mp heat
      exact congrArg (fun next => some (true, next)) (forward_inFrontOf h)

/-- A keyword is eaten only where no name runs on behind it. -/
theorem eatKeyword_inFrontOf (word : Text) (h : rest <:+ source) :
    (inFrontOf source rest).eatKeyword word = some (match Text.eatKeyword word rest with
      | some behind => (true, inFrontOf source behind)
      | none => (false, inFrontOf source rest)) := by
  simp only [OctetCursor.eatKeyword, rest?_inFrontOf h, Option.bind_eq_bind, Option.bind_some,
    isPrefixOf_eq, Text.eatKeyword]
  cases heat : Text.eat word rest with
  | none => rfl
  | some behind =>
      obtain rfl := eat_eq_some_iff.mp heat
      rw [from?_octets, forward_inFrontOf h]
      cases behind with
      | nil => rfl
      | cons d behind =>
          by_cases hname : isTaskNameChar d = true
          · simp [hname]
          · simp [hname]

/-- The cursor is at the end just when nothing is left. -/
theorem atEnd_inFrontOf (h : rest <:+ source) : (inFrontOf source rest).atEnd = rest.isEmpty := by
  obtain ⟨front, rfl⟩ := h
  rw [inFrontOf_append, atEnd, octets_append]
  cases rest with
  | nil => simp [octets]
  | cons ch rest =>
      have hpos : 0 < octets (ch :: rest) := Nat.add_pos_left ch.utf8Size_pos _
      exact decide_eq_false (Nat.not_le.mpr (Nat.lt_add_of_pos_right hpos))

/-- A line end is one line feed, a return with one, or the end of the source. -/
theorem eatLineEnd_inFrontOf (h : rest <:+ source) :
    (inFrontOf source rest).eatLineEnd = some (match Text.eatLineEnd rest with
      | some behind => (true, inFrontOf source behind)
      | none => (false, inFrontOf source rest)) := by
  rw [OctetCursor.eatLineEnd, atEnd_inFrontOf h]
  cases rest with
  | nil => rfl
  | cons ch rest =>
      have hrest := (List.suffix_cons ch rest).trans h
      rw [List.isEmpty_cons, if_neg Bool.false_ne_true, eat_inFrontOf _ h]
      by_cases hreturn : ch = '\r'
      · subst hreturn
        show ((inFrontOf source rest).eat ['\n']).bind _ = _
        rw [eat_inFrontOf _ hrest]
        show _ = some (match Text.eat ['\n'] rest with
          | some behind => (true, inFrontOf source behind)
          | none => (false, inFrontOf source ('\r' :: rest)))
        cases Text.eat ['\n'] rest <;> rfl
      · have hmiss : Text.eat ['\r'] (ch :: rest) = none := if_neg (Ne.symm hreturn)
        rw [hmiss]
        show ((inFrontOf source (ch :: rest)).eat ['\n']).bind _ = _
        rw [eat_inFrontOf _ h, Text.eat, Text.eatLineEnd, if_neg hreturn]
        by_cases hfeed : ch = '\n'
        · rw [if_pos hfeed, if_pos hfeed.symm]
          rfl
        · rw [if_neg hfeed, if_neg (Ne.symm hfeed)]
          rfl

/-! ## Loops -/

/-- **PASSING CHARACTERS** one by one leads to where the first other character stands. -/
theorem passWhile_inFrontOf (p : Char → Bool) (h : rest <:+ source) :
    passWhile p (inFrontOf source rest) = some (inFrontOf source (rest.dropWhile p)) := by
  induction rest with
  | nil =>
      rw [passWhile.eq_def]
      split <;> simp_all [peek?_inFrontOf h]
  | cons ch rest ih =>
      rw [passWhile_of_peek? (peek?_inFrontOf h), forward_inFrontOf_cons h, List.dropWhile_cons]
      split
      · exact ih ((List.suffix_cons ch rest).trans h)
      · rfl

/-- Taking them returns the slice between both places, which are boundaries. -/
theorem takeWhile_inFrontOf (p : Char → Bool) (h : rest <:+ source) :
    (inFrontOf source rest).takeWhile p
      = some (rest.takeWhile p, inFrontOf source (rest.dropWhile p)) := by
  have hslice : slice? source (inFrontOf source rest).pos
      (inFrontOf source (rest.dropWhile p)).pos = some (rest.takeWhile p) := by
    have hparts : rest.takeWhile p ++ rest.dropWhile p = rest := List.takeWhile_append_dropWhile
    have hslice := slice?_inFrontOf (hparts.symm ▸ h)
    rwa [hparts] at hslice
  rw [OctetCursor.takeWhile, passWhile_inFrontOf p h]
  exact congrArg (·.bind fun text => some (text, inFrontOf source (rest.dropWhile p))) hslice

/-- Where blanks have one octet each, counting octets is counting characters. -/
theorem skip_inFrontOf {p : Char → Bool} (hp : ∀ ch, p ch = true → ch.utf8Size = 1)
    (h : rest <:+ source) :
    skip p (inFrontOf source rest)
      = some ((rest.takeWhile p).count '\n', inFrontOf source (rest.dropWhile p)) := by
  induction rest with
  | nil =>
      rw [skip.eq_def]
      split <;> simp_all [peek?_inFrontOf h]
  | cons ch rest ih =>
      rw [skip_of_peek? (peek?_inFrontOf h), List.dropWhile_cons, List.takeWhile_cons]
      split
      · rename_i hch
        rw [forward_one_inFrontOf h (hp ch hch), ih ((List.suffix_cons ch rest).trans h),
          List.count_cons]
        simp only [Option.map_some, beq_iff_eq]
        split <;> rfl
      · rfl

/-- The offset behind characters that satisfy `p` is larger if there are any. -/
theorem decide_pos_lt (p : Char → Bool) (h : rest <:+ source) :
    decide ((inFrontOf source rest).pos < (inFrontOf source (rest.dropWhile p)).pos)
      = rest.head?.any p := by
  have hparts : rest.takeWhile p ++ rest.dropWhile p = rest := List.takeWhile_append_dropWhile
  have hforward := forward_inFrontOf (hparts.symm ▸ h)
  rw [hparts] at hforward
  rw [← hforward]
  cases rest with
  | nil => exact decide_eq_false (Nat.lt_irrefl _)
  | cons ch rest =>
      rw [List.takeWhile_cons]
      cases hch : p ch with
      | false => simpa [forward, octets] using hch
      | true => simpa [forward, octets, hch] using Nat.add_pos_left ch.utf8Size_pos _

/-- The end of a quoted string is found behind the mark that is not escaped. -/
theorem close_inFrontOf (mark : Char) (h : rest <:+ source) :
    close mark (inFrontOf source rest)
      = some ((quotedSpan mark rest).map fun span => inFrontOf source span.2) := by
  fun_induction quotedSpan mark rest with
  | case1 => rw [close_eq, bump_inFrontOf_nil]; rfl
  | case2 =>
      rw [close_eq, bump_inFrontOf_cons h]
      simp only [Option.bind_some, if_true]
      rw [bump_inFrontOf_nil, Option.bind_some, close_eq, bump_inFrontOf_nil]
      rfl
  | case3 d rest ih =>
      have hrest := (List.suffix_cons '\\' (d :: rest)).trans h
      rw [close_eq, bump_inFrontOf_cons h]
      simp only [Option.bind_some, if_true]
      rw [bump_inFrontOf_cons hrest, Option.bind_some, ih ((List.suffix_cons d rest).trans hrest),
        Option.map_map]
      rfl
  | case4 rest hescape =>
      rw [close_eq, bump_inFrontOf_cons h]
      simp only [Option.bind_some, if_neg hescape, if_true]
      rfl
  | case5 c rest hescape hmark ih =>
      rw [close_eq, bump_inFrontOf_cons h]
      simp only [Option.bind_some, if_neg hescape, if_neg hmark]
      rw [ih ((List.suffix_cons c rest).trans h), Option.map_map]
      rfl

/-- Where no word begins none is returned, and nothing is passed. -/
theorem word_inFrontOf (h : rest <:+ source) :
    (inFrontOf source rest).word
      = some (if (rest.takeWhile isWordChar).isEmpty then none else some (rest.takeWhile isWordChar),
          inFrontOf source (rest.dropWhile isWordChar)) := by
  rw [OctetCursor.word, takeWhile_inFrontOf _ h]
  rfl

/-- A line is taken without the line end, which stays. -/
theorem takeLine_inFrontOf (h : rest <:+ source) :
    (inFrontOf source rest).takeLine
      = some ((splitLine rest).1, inFrontOf source (splitLine rest).2) := by
  simp only [OctetCursor.takeLine, takeWhile_inFrontOf _ h, Option.bind_eq_bind, Option.bind_some,
    splitLine]
  split
  · rename_i hreturn
    have hsuffix := splitLine_suffix rest
    simp only [splitLine, if_pos hreturn] at hsuffix
    rw [show (1 : Nat) = ('\r').utf8Size from rfl, back?_inFrontOf (hsuffix.trans h)]
    rfl
  · rfl

/-- The offset at which a mark is found counts the octets of what stands before it. -/
theorem find?_eq (mark s : Text) : find? mark s = (Text.upTo mark s).map fun found => octets found.1 := by
  induction s with
  | nil =>
      rw [find?, Text.upTo]
      split <;> rfl
  | cons c rest ih =>
      rw [find?, Text.upTo, isPrefixOf_eq, ih]
      split
      · rfl
      · rw [Option.map_map, Option.map_map]
        rfl

/-- A mark that is not found leaves the cursor where it is. -/
theorem upTo_inFrontOf (mark : Text) (h : rest <:+ source) :
    (inFrontOf source rest).upTo mark = some (match Text.upTo mark rest with
      | some found => (some found.1, inFrontOf source found.2)
      | none => (none, inFrontOf source rest)) := by
  simp only [OctetCursor.upTo, rest?_inFrontOf h, Option.bind_eq_bind, Option.bind_some, find?_eq]
  cases hfound : Text.upTo mark rest with
  | none => rfl
  | some found =>
      obtain rfl := append_of_upTo hfound
      simp only [Option.map_some, slice?_front, forward_inFrontOf h]
      rfl

/-- Where no quoted string begins, the mark was expected, and nothing is passed. -/
theorem quoted_inFrontOf_of_head (mark : Char) (h : rest <:+ source)
    (hhead : rest.head? ≠ some mark) :
    (inFrontOf source rest).quoted mark
      = some (.error (.expected (.mark mark) (Position.ofRest source rest)), inFrontOf source rest) := by
  simp only [OctetCursor.quoted, peek?_inFrontOf h, Option.bind_eq_bind, Option.bind_some,
    if_neg hhead, position?, positionAt?_inFrontOf h]
  rfl

/-- What `quoted` answers in front of a mark, from what is found behind it. -/
theorem quoted_inFrontOf (mark : Char) (h : mark :: rest <:+ source) :
    (inFrontOf source (mark :: rest)).quoted mark = some (match quotedSpan mark rest with
      | some span => (.ok span.1, inFrontOf source span.2)
      | none => (.error (.unterminatedQuote mark (Position.ofRest source (mark :: rest))),
          inFrontOf source (mark :: rest))) := by
  have hrest := (List.suffix_cons mark rest).trans h
  simp only [OctetCursor.quoted, peek?_inFrontOf h, List.head?_cons, Option.bind_eq_bind,
    Option.bind_some, if_true, forward_inFrontOf_cons h, close_inFrontOf mark hrest]
  cases hspan : quotedSpan mark rest with
  | none =>
      simp only [Option.map_none, position?, positionAt?_inFrontOf h]
      rfl
  | some span =>
      have hparts := append_of_quotedSpan hspan
      have hclosing : mark :: span.2 <:+ source :=
        (List.suffix_append span.1 _).trans (hparts ▸ hrest)
      have hslice := slice?_inFrontOf (hparts ▸ hrest)
      rw [← hparts] at hslice
      simp only [Option.map_some, back?_inFrontOf hclosing, Option.bind_some]
      rw [show (inFrontOf source (mark :: rest)).source = source from rfl, hslice]
      rfl

/-! ## Blocks -/

/-- Inside of quotes the scan of a block looks for the end of the span. -/
theorem scanBlock_quotes_eq (opens : List Text) (mark : Char) (opening rest : Text) :
    scanBlock opens (.quotes mark opening) rest = match quotedSpan mark rest with
      | some span => prepend (span.1 ++ [mark]) (scanBlock opens (.code false) span.2)
      | none => .error (.unterminatedQuote mark opening) := by
  fun_induction quotedSpan mark rest with
  | case1 => rw [scanBlock]
  | case2 =>
      rw [scanBlock.eq_def]
      rfl
  | case3 d rest ih =>
      rw [scanBlock.eq_def]
      simp only [if_true, ih]
      cases quotedSpan mark rest with
      | none => rfl
      | some span => exact prepend_prepend ..
  | case4 rest hescape =>
      rw [scanBlock.eq_def]
      simp only [if_neg hescape, if_true]
      rfl
  | case5 c rest hescape hmark ih =>
      rw [scanBlock.eq_def]
      simp only [if_neg hescape, if_neg hmark, ih]
      cases quotedSpan mark rest with
      | none => rfl
      | some span => exact prepend_prepend ..

/-- Inside of a comment it looks for the end of the line. -/
theorem scanBlock_comment_eq (opens : List Text) (rest : Text) :
    scanBlock opens .comment rest = prepend (rest.takeWhile (· != '\n'))
      (scanBlock opens (.code true) (rest.dropWhile (· != '\n'))) := by
  induction rest with
  | nil =>
      rw [scanBlock, List.dropWhile_nil, scanBlock]
      rfl
  | cons c rest ih =>
      rw [scanBlock]
      by_cases hfeed : c = '\n'
      · subst hfeed
        rw [if_pos rfl, List.takeWhile_cons_of_neg (by simp), List.dropWhile_cons_of_neg (by simp),
          scanBlock_lineFeed, prepend_prepend]
        rfl
      · rw [if_neg hfeed, ih, List.takeWhile_cons_of_pos (by simpa using hfeed),
          List.dropWhile_cons_of_pos (by simpa using hfeed), prepend_prepend]
        rfl

/-- The end of a scan of a block: where the cursor stands, and whether there is an error. -/
def scanned (source : Text) :
    Except (ParseError Text) (Text × Text) → Except (ParseError Position) Unit × OctetCursor
  | .ok found => (.ok (), inFrontOf source found.2)
  | .error e => (.error (e.locate source), inFrontOf source (Cursor.stoppedAt e))

/-- What a scan has read before does not change where it ends. -/
@[simp] theorem scanned_prepend (source read : Text)
    (scan : Except (ParseError Text) (Text × Text)) :
    scanned source (prepend read scan) = scanned source scan := by
  cases scan <;> rfl

/-- The outermost scan has the last word. -/
theorem blame_inFrontOf {opens : List Text} (hopens : ∀ opening ∈ opens, opening <:+ source)
    (here : Text) (e : ParseError Position) :
    (inFrontOf source here).blame e (opens.map fun opening => (inFrontOf source opening).pos)
      = some (match opens.getLast? with
        | none => e
        | some opening => .unterminatedBlock .nested (Position.ofRest source opening)) := by
  induction opens generalizing e with
  | nil => rfl
  | cons opening outer ih =>
      rw [List.forall_mem_cons] at hopens
      rw [List.map_cons, blame, positionAt?_inFrontOf hopens.1]
      refine (ih hopens.2 _).trans ?_
      rw [List.getLast?_cons]
      cases outer.getLast? <;> rfl

/-- At the end of the source the outermost of the open braces is blamed, or the block itself if there
is none. -/
theorem passBlock_end {opens : List Text} (hopens : ∀ opening ∈ opens, opening <:+ source)
    (here : Bool) :
    passBlock (opens.map fun opening => (inFrontOf source opening).pos) here (inFrontOf source [])
      = some (scanned source (.error (unclosed opens))) := by
  have hpeek := peek?_inFrontOf (List.nil_suffix (l := source))
  have hblame := blame_inFrontOf hopens []
  rw [passBlock.eq_def]
  split
  · simp_all
  · rw [position?, positionAt?_inFrontOf List.nil_suffix]
    simp only [Option.bind_eq_bind, Option.bind_some, hblame]
    rw [unclosed]
    cases opens.getLast? <;> rfl
  · simp_all

/-- In front of an end of the source both scans of a block come to the same end, with the braces that
were opened standing for their offsets. -/
def ScansAlike (source : Text) (opens : List Text) (here : Bool) (rest : Text) : Prop :=
  passBlock (opens.map fun opening => (inFrontOf source opening).pos) here (inFrontOf source rest)
    = some (scanned source (scanBlock opens (.code here) rest))

section

variable {opens : List Text} {here : Bool}

/-- Behind a line feed a line starts. -/
theorem scansAlike_feed (h : '\n' :: rest <:+ source) (hlater : ScansAlike source opens true rest) :
    ScansAlike source opens here ('\n' :: rest) := by
  unfold ScansAlike at hlater ⊢
  rw [passBlock_of_peek? (peek?_inFrontOf h), if_pos rfl, forward_one_inFrontOf h rfl, hlater,
    scanBlock_lineFeed, scanned_prepend]

/-- Behind a blank the line still starts, if it did. -/
theorem scansAlike_blank (hblank : ch = ' ' ∨ ch = '\t' ∨ ch = '\r') (h : ch :: rest <:+ source)
    (hlater : ScansAlike source opens here rest) : ScansAlike source opens here (ch :: rest) := by
  have hfeed : ch ≠ '\n' := by rcases hblank with rfl | rfl | rfl <;> decide
  have hone : ch.utf8Size = 1 := by rcases hblank with rfl | rfl | rfl <;> rfl
  unfold ScansAlike at hlater ⊢
  rw [passBlock_of_peek? (peek?_inFrontOf h), scanBlock.eq_def]
  dsimp only
  rw [if_neg hfeed, if_pos hblank, if_neg hfeed, if_pos hblank, forward_one_inFrontOf h hone, hlater,
    scanned_prepend]

/-- A comment is passed up to its line feed. -/
theorem scansAlike_comment (h : '#' :: rest <:+ source)
    (hlater : ScansAlike source opens true (rest.dropWhile (· != '\n'))) :
    ScansAlike source opens true ('#' :: rest) := by
  unfold ScansAlike at hlater ⊢
  have hfeed : '#' ≠ '\n' := by decide
  have hblank : ¬ ('#' = ' ' ∨ '#' = '\t' ∨ '#' = '\r') := by decide
  rw [passBlock_of_peek? (peek?_inFrontOf h), scanBlock.eq_def]
  dsimp only
  rw [if_neg hfeed, if_neg hblank, if_pos ⟨rfl, rfl⟩, if_neg hfeed, if_neg hblank,
    if_pos ⟨rfl, rfl⟩, takeWhile_inFrontOf _ h, Option.bind_some,
    List.dropWhile_cons_of_pos (by decide), hlater, scanBlock_comment_eq, prepend_prepend,
    scanned_prepend]

/-- A closing brace ends the innermost scan, and the scan around it goes on behind it. -/
theorem scansAlike_closing {opening : Text} (h : '}' :: rest <:+ source)
    (hlater : ScansAlike source opens false rest) :
    ScansAlike source (opening :: opens) here ('}' :: rest) := by
  unfold ScansAlike at hlater ⊢
  rw [passBlock_of_peek? (peek?_inFrontOf h), scanBlock.eq_def, forward_one_inFrontOf h rfl]
  refine Eq.trans ?_ (congrArg some (scanned_prepend source ['}'] _).symm)
  exact hlater

/-- The closing brace of the block itself stays. -/
theorem scansAlike_end (h : '}' :: rest <:+ source) : ScansAlike source [] here ('}' :: rest) := by
  rw [ScansAlike, passBlock_of_peek? (peek?_inFrontOf h), scanBlock.eq_def]
  rfl

/-- A quoted span is passed as a whole, or it is the error. -/
theorem scansAlike_quotes (hquote : ch = '"' ∨ ch = '\'') (h : ch :: rest <:+ source)
    (hlater : ∀ span, quotedSpan ch rest = some span → ScansAlike source opens false span.2) :
    ScansAlike source opens here (ch :: rest) := by
  have hother : ch ≠ '\n' ∧ ¬ (ch = ' ' ∨ ch = '\t' ∨ ch = '\r') ∧ ¬ (ch = '#' ∧ here = true) ∧
      ch ≠ '}' := by
    rcases hquote with rfl | rfl <;> simp
  obtain ⟨hfeed, hblank, hhash, hclosing⟩ := hother
  unfold ScansAlike at hlater ⊢
  rw [passBlock_of_peek? (peek?_inFrontOf h), scanBlock.eq_def]
  dsimp only
  rw [if_neg hfeed, if_neg hblank, if_neg hhash, if_neg hclosing, if_pos hquote, if_neg hfeed,
    if_neg hblank, if_neg hhash, if_neg hclosing, if_pos hquote, quoted_inFrontOf ch h,
    scanBlock_quotes_eq]
  cases hspan : quotedSpan ch rest with
  | none => rfl
  | some span =>
      simp only [Option.bind_some, scanned_prepend]
      exact hlater span hspan

/-- An opening brace begins a nested scan, and is kept. -/
theorem scansAlike_opening (h : '{' :: rest <:+ source)
    (hlater : ScansAlike source (('{' :: rest) :: opens) false rest) :
    ScansAlike source opens here ('{' :: rest) := by
  unfold ScansAlike at hlater ⊢
  rw [passBlock_of_peek? (peek?_inFrontOf h), scanBlock.eq_def, forward_one_inFrontOf h rfl]
  refine Eq.trans ?_ (congrArg some (scanned_prepend source ['{'] _).symm)
  exact hlater

/-- A backslash takes the next character along; at the end there is none. -/
theorem scansAlike_escape (hopens : ∀ opening ∈ opens, opening <:+ source)
    (h : '\\' :: rest <:+ source)
    (hlater : ∀ d behind, rest = d :: behind → ScansAlike source opens false behind) :
    ScansAlike source opens here ('\\' :: rest) := by
  have hrest := (List.suffix_cons '\\' rest).trans h
  unfold ScansAlike at hlater ⊢
  rw [passBlock_of_peek? (peek?_inFrontOf h), scanBlock.eq_def, bump_inFrontOf_cons h,
    Option.bind_some]
  cases rest with
  | nil =>
      rw [bump_inFrontOf_nil, Option.bind_some]
      exact passBlock_end hopens false
  | cons d behind =>
      rw [bump_inFrontOf_cons hrest, Option.bind_some]
      refine Eq.trans ?_ (congrArg some (scanned_prepend source ['\\', d] _).symm)
      exact hlater d behind rfl

/-- Any other character is passed. -/
theorem scansAlike_plain (h : ch :: rest <:+ source) (hfeed : ch ≠ '\n')
    (hblank : ¬ (ch = ' ' ∨ ch = '\t' ∨ ch = '\r')) (hhash : ¬ (ch = '#' ∧ here = true))
    (hclosing : ch ≠ '}') (hquote : ¬ (ch = '"' ∨ ch = '\'')) (hopening : ch ≠ '{')
    (hescape : ch ≠ '\\') (hlater : ScansAlike source opens false rest) :
    ScansAlike source opens here (ch :: rest) := by
  unfold ScansAlike at hlater ⊢
  rw [passBlock_of_peek? (peek?_inFrontOf h), scanBlock.eq_def, bump_inFrontOf_cons h]
  simp only [if_neg hfeed, if_neg hblank, if_neg hhash, if_neg hclosing, if_neg hquote,
    if_neg hopening, if_neg hescape, Option.bind_some, scanned_prepend]
  exact hlater

end

/-- **THE SCAN BY OFFSETS IS THE SCAN OF THE TEXT**: one case for each kind of character, by
induction on what is left. -/
theorem passBlock_inFrontOf {opens : List Text} (hopens : ∀ opening ∈ opens, opening <:+ source)
    (here : Bool) (h : rest <:+ source) : ScansAlike source opens here rest := by
  induction hlength : rest.length using Nat.strongRecOn generalizing opens here rest with
  | ind n ih =>
  subst hlength
  cases rest with
  | nil =>
      rw [ScansAlike, passBlock_end hopens, scanBlock]
  | cons ch rest =>
      have hrest := (List.suffix_cons ch rest).trans h
      have goOn : ∀ {opens : List Text} (here : Bool) {behind : Text},
          (∀ opening ∈ opens, opening <:+ source) → behind <:+ rest →
          ScansAlike source opens here behind :=
        fun here _ hopens hbehind =>
          ih _ (Nat.lt_succ_of_le hbehind.length_le) hopens here (hbehind.trans hrest) rfl
      by_cases hfeed : ch = '\n'
      · subst hfeed
        exact scansAlike_feed h (goOn true hopens List.suffix_rfl)
      by_cases hblank : ch = ' ' ∨ ch = '\t' ∨ ch = '\r'
      · exact scansAlike_blank hblank h (goOn here hopens List.suffix_rfl)
      by_cases hhash : ch = '#' ∧ here = true
      · obtain ⟨rfl, rfl⟩ := hhash
        exact scansAlike_comment h (goOn true hopens (List.dropWhile_suffix _))
      by_cases hclosing : ch = '}'
      · subst hclosing
        cases opens with
        | nil => exact scansAlike_end h
        | cons opening outer =>
            have houter := (List.forall_mem_cons.mp hopens).2
            exact scansAlike_closing h (goOn false houter List.suffix_rfl)
      by_cases hquote : ch = '"' ∨ ch = '\''
      · refine scansAlike_quotes hquote h fun span hspan => ?_
        exact goOn false hopens (suffix_of_quotedSpan hspan)
      by_cases hopening : ch = '{'
      · subst hopening
        have hinner : ∀ opening ∈ ('{' :: rest) :: opens, opening <:+ source :=
          List.forall_mem_cons.mpr ⟨h, hopens⟩
        exact scansAlike_opening h (goOn false hinner List.suffix_rfl)
      by_cases hescape : ch = '\\'
      · subst hescape
        refine scansAlike_escape hopens h ?_
        rintro d behind rfl
        exact goOn false hopens (List.suffix_cons d behind)
      exact scansAlike_plain h hfeed hblank hhash hclosing hquote hopening hescape
        (goOn false hopens List.suffix_rfl)

/-- **A BLOCK IS SCANNED ALIKE**: by octets the scan returns the same block and stands behind it,
and where it fails it has stopped in front of the same text. -/
theorem balanced_inFrontOf (h : rest <:+ source) :
    (inFrontOf source rest).balanced = some (match Text.balanced rest with
      | .ok found => (.ok found.1, inFrontOf source found.2)
      | .error e => (.error (e.locate source), inFrontOf source (Cursor.stoppedAt e))) := by
  have hpass := @passBlock_inFrontOf source rest [] (by simp) false h
  simp only [OctetCursor.balanced, Option.bind_eq_bind]
  rw [show passBlock [] false (inFrontOf source rest) = _ from hpass, Option.bind_some]
  rw [← Text.balanced]
  cases hscan : Text.balanced rest with
  | error e => rfl
  | ok found =>
      obtain rfl := (append_of_scanBlock hscan).1
      simp only [scanned]
      rw [show (inFrontOf source _).source = source from rfl, slice?_inFrontOf h]
      rfl

end OctetCursor

end TaskRunner
