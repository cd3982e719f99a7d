import TaskRunner.Proofs.ErrorPlaces
import TaskRunner.Proofs.OctetScans

/-! # Where a cursor stands

    A cursor by octet offset may stand anywhere, and where it stands inside of a character
    every scanner breaks off.  It moves by the `Operation`s, which tell what they took, or
    that they missed.  A cursor is `Visited` if such moves lead to it from the start of its
    text, where a reset only goes back to an offset that was seen before.

    A cursor that keeps the text still to come stands between two characters by itself, and
    **`byOctet`** is the same place by its offset.  Each operation does the same to both
    (`run_byOctet`).  A cursor at a boundary is some place by its offset, so each operation has
    a result there and **stays on boundaries** (`run_stays`).

    **`visited_on_boundaries`**: all offsets that are seen can be sliced at, so that nothing a
    visited cursor does breaks off; what an operation takes is, between its delimiters, the
    slice between the offsets before and after it; and one that misses leaves the cursor where
    it was, with the scan of a block for the only exception. -/

namespace TaskRunner

namespace Cursor

open Text

/-! ## Single moves -/

section Moves

variable (c : Cursor)

/-- A cursor that is moved to where it is stays as it is. -/
theorem moveTo_self {rest : Text} (h : rest <:+ c.rest) (hrest : rest = c.rest) :
    c.moveTo rest h = c := by
  subst hrest
  rfl

/-- Taking a character moves by that character, or is not possible. -/
theorem bump_cases : (∃ found next, c.bump = (some found, next) ∧ c.rest = found :: next.rest) ∨
    c.bump = (none, c) := by
  cases hrest : c.rest with
  | nil =>
      have hpeek : c.bump.1 = none := congrArg List.head? hrest
      have hstay : c.rest.drop 1 = c.rest := by
        rw [hrest]
        rfl
      exact .inr (Prod.ext hpeek (moveTo_self c (List.drop_suffix _ _) hstay))
  | cons found rest =>
      have hpeek : c.bump.1 = some found := congrArg List.head? hrest
      have hnext : c.bump.2.rest = rest := congrArg (List.drop 1) hrest
      exact .inl ⟨found, c.bump.2, Prod.ext hpeek rfl, by rw [hnext]⟩

/-- Eating a text moves by that text, or leaves the cursor untouched. -/
theorem eat_cases (text : Text) :
    (∃ next, c.eat text = (true, next) ∧ c.rest = text ++ next.rest) ∨
      c.eat text = (false, c) := by
  rw [Cursor.eat]
  split
  · rename_i rest h
    exact .inl ⟨_, rfl, eat_eq_some_iff.mp h⟩
  · exact .inr rfl

/-- So does eating a keyword. -/
theorem eatKeyword_cases (text : Text) :
    (∃ next, c.eatKeyword text = (true, next) ∧ c.rest = text ++ next.rest) ∨
      c.eatKeyword text = (false, c) := by
  rw [Cursor.eatKeyword]
  split
  · rename_i rest h
    exact .inl ⟨_, rfl, eat_of_eatKeyword h⟩
  · exact .inr rfl

/-- Passing blanks tells whether there was one, and where there was none nothing is passed. -/
theorem skipInline_cases : c.skipInline.1 = true ∨ c.skipInline = (false, c) := by
  cases hany : c.rest.head?.any isInlineBlank with
  | true => exact .inl hany
  | false =>
      have hstay : Text.skipInline c.rest = c.rest := by
        cases hrest : c.rest with
        | nil => rfl
        | cons found rest =>
            rw [hrest] at hany
            exact List.dropWhile_cons_of_neg (by simpa using hany)
      exact .inr (Prod.ext hany (moveTo_self c (List.dropWhile_suffix _) hstay))

/-- A line end that is not there leaves the cursor untouched. -/
theorem eatLineEnd_cases : c.eatLineEnd.1 = true ∨ c.eatLineEnd = (false, c) := by
  rw [Cursor.eatLineEnd]
  split
  · exact .inl rfl
  · exact .inr rfl

/-- What is taken is what is passed. -/
theorem takeWhile_rest (p : Char → Bool) :
    c.rest = (c.takeWhile p).1 ++ (c.takeWhile p).2.rest :=
  List.takeWhile_append_dropWhile.symm

/-- A word is taken and passed, or there is none. -/
theorem word_cases : (∃ text next, c.word = (some text, next) ∧ c.rest = text ++ next.rest) ∨
    c.word = (none, c) := by
  rw [Cursor.word]
  split
  · exact .inr rfl
  · exact .inl ⟨_, _, rfl, takeWhile_rest c isWordChar⟩

/-- So is the text up to a mark. -/
theorem upTo_cases (mark : Text) :
    (∃ text next, c.upTo mark = (some text, next) ∧ c.rest = text ++ next.rest) ∨
      c.upTo mark = (none, c) := by
  rw [Cursor.upTo]
  split
  · rename_i found h
    exact .inl ⟨_, _, rfl, append_of_upTo h⟩
  · exact .inr rfl

/-- And so is the rest of a line. -/
theorem takeLine_rest : c.rest = c.takeLine.1 ++ c.takeLine.2.rest :=
  (append_splitLine c.rest).symm

/-- A quoted string is passed with both its marks, or is an error that leaves the cursor untouched.
-/
theorem quoted_cases (mark : Char) :
    (∃ text next, c.quoted mark = (.ok text, next) ∧ c.rest = mark :: text ++ mark :: next.rest) ∨
      ∃ e, c.quoted mark = (.error e, c) := by
  rw [Cursor.quoted]
  split
  · exact .inr ⟨_, rfl⟩
  · rename_i first rest hrest
    split
    · rename_i hfirst
      split
      · rename_i span h
        have hspan : first :: rest = mark :: span.1 ++ mark :: span.2 := by
          rw [hfirst, append_of_quotedSpan h, List.cons_append]
        exact .inl ⟨_, _, rfl, hrest.trans hspan⟩
      · exact .inr ⟨_, rfl⟩
    · exact .inr ⟨_, rfl⟩

/-- A block is passed, or is an error; where the cursor is then is another matter. -/
theorem balanced_cases :
    (∃ text next, c.balanced = (.ok text, next) ∧ c.rest = text ++ next.rest) ∨
      ∃ e next, c.balanced = (.error e, next) := by
  rw [Cursor.balanced]
  split
  · rename_i found h
    exact .inl ⟨_, _, rfl, (append_of_scanBlock h).1⟩
  · exact .inr ⟨_, _, rfl⟩

end Moves

/-! ## Operations -/

/-- What moves a cursor. -/
inductive Operation
  | bump
  | eat (word : Text)
  | eatKeyword (word : Text)
  | skipSpacing
  | skipInline
  | eatLineEnd
  | takeWhile (p : Char → Bool)
  | word
  | upTo (mark : Text)
  | takeLine
  | quoted (mark : Char)
  | balanced
  | reset (offset : Nat)

/-- What an operation tells: the text it took, only that it moved, or that it missed. -/
inductive Answer
  | took (text : Text)
  | moved
  | missed
deriving DecidableEq

namespace Operation

/-- Carries out an operation. -/
def apply : Operation → Cursor → Answer × Cursor
  | .bump, c => (c.bump.1.elim .missed fun found => .took [found], c.bump.2)
  | .eat text, c => (if (c.eat text).1 then .took text else .missed, (c.eat text).2)
  | .eatKeyword text, c =>
    (if (c.eatKeyword text).1 then .took text else .missed, (c.eatKeyword text).2)
  | .skipSpacing, c => (.moved, c.skipSpacing.2)
  | .skipInline, c => (if c.skipInline.1 then .moved else .missed, c.skipInline.2)
  | .eatLineEnd, c => (if c.eatLineEnd.1 then .moved else .missed, c.eatLineEnd.2)
  | .takeWhile p, c => (.took (c.takeWhile p).1, (c.takeWhile p).2)
  | .word, c => (c.word.1.elim .missed .took, c.word.2)
  | .upTo mark, c => ((c.upTo mark).1.elim .missed .took, (c.upTo mark).2)
  | .takeLine, c => (.took c.takeLine.1, c.takeLine.2)
  | .quoted mark, c => ((c.quoted mark).1.toOption.elim .missed .took, (c.quoted mark).2)
  | .balanced, c => (c.balanced.1.toOption.elim .missed .took, c.balanced.2)
  | .reset offset, c => (.moved, c.reset offset)

/-- What stands on both sides of the text that an operation gives. -/
def delimiter : Operation → Text
  | quoted mark => [mark]
  | _ => []

variable {op : Operation} {c : Cursor} {text : Text}

/-- No operation changes the source. -/
theorem source_apply (op : Operation) (c : Cursor) : (op.apply c).2.source = c.source := by
  cases op with
  | eat text => rw [apply, Cursor.eat]; split <;> rfl
  | eatKeyword text => rw [apply, Cursor.eatKeyword]; split <;> rfl
  | eatLineEnd => rw [apply, Cursor.eatLineEnd]; split <;> rfl
  | word => rw [apply, Cursor.word]; split <;> rfl
  | upTo mark => rw [apply, Cursor.upTo]; split <;> rfl
  | quoted mark =>
      rw [apply, Cursor.quoted]
      split
      · rfl
      · split
        · split <;> rfl
        · rfl
  | balanced => rw [apply, Cursor.balanced]; split <;> rfl
  | bump | skipSpacing | skipInline | takeWhile p | takeLine | reset offset => rfl

/-- What an operation may tell, and where it then leaves the cursor: what it takes is what was
still to come up to there, and if it misses it has not moved, but for the scan of a block. -/
inductive Leads (op : Operation) (c : Cursor) : Answer → Cursor → Prop
  | took {text : Text} {next : Cursor}
      (rest : c.rest = op.delimiter ++ (text ++ (op.delimiter ++ next.rest))) :
      Leads op c (.took text) next
  | moved {next : Cursor} : Leads op c .moved next
  | missed : Leads op c .missed c
  | failed {next : Cursor} (block : op = balanced) : Leads op c .missed next

/-- **EACH OPERATION LEADS** where it may. -/
theorem leads_apply (op : Operation) (c : Cursor) : Leads op c (op.apply c).1 (op.apply c).2 := by
  cases op with
  | bump =>
      rw [apply]
      obtain ⟨found, next, hbump, hrest⟩ | hbump := bump_cases c <;> rw [hbump]
      · exact .took hrest
      · exact .missed
  | eat text =>
      rw [apply]
      obtain ⟨next, heat, hrest⟩ | heat := eat_cases c text <;> rw [heat]
      · exact .took hrest
      · exact .missed
  | eatKeyword text =>
      rw [apply]
      obtain ⟨next, heat, hrest⟩ | heat := eatKeyword_cases c text <;> rw [heat]
      · exact .took hrest
      · exact .missed
  | skipInline =>
      rw [apply]
      obtain hskip | hskip := skipInline_cases c <;> rw [hskip]
      · exact .moved
      · exact .missed
  | eatLineEnd =>
      rw [apply]
      obtain heat | heat := eatLineEnd_cases c <;> rw [heat]
      · exact .moved
      · exact .missed
  | word =>
      rw [apply]
      obtain ⟨text, next, hword, hrest⟩ | hword := word_cases c <;> rw [hword]
      · exact .took hrest
      · exact .missed
  | upTo mark =>
      rw [apply]
      obtain ⟨text, next, hfound, hrest⟩ | hfound := upTo_cases c mark <;> rw [hfound]
      · exact .took hrest
      · exact .missed
  | quoted mark =>
      rw [apply]
      obtain ⟨text, next, hspan, hrest⟩ | ⟨e, hspan⟩ := quoted_cases c mark <;> rw [hspan]
      · exact .took hrest
      · exact .missed
  | balanced =>
      rw [apply]
      obtain ⟨text, next, hblock, hrest⟩ | ⟨e, next, hblock⟩ := balanced_cases c <;> rw [hblock]
      · exact .took hrest
      · exact .failed rfl
  | takeWhile p => exact .took (takeWhile_rest c p)
  | takeLine => exact .took (takeLine_rest c)
  | skipSpacing => exact .moved
  | reset offset => exact .moved

end Operation

/-! ## Boundaries -/

/-- An offset between two characters of a text. -/
def IsBoundary (source : Text) (offset : Nat) : Prop :=
  ∃ front rest, source = front ++ rest ∧ octets front = offset

variable {source : Text} {c : Cursor}

/-- The offset of a cursor counts the octets of the characters it has passed. -/
theorem isBoundary_offset (c : Cursor) : IsBoundary c.source c.offset :=
  ⟨c.before, c.rest, c.before_append_rest.symm, rfl⟩

/-- The source is what has been passed and what is left, in one way only. -/
theorem before_of_rest {front : Text} (h : c.source = front ++ c.rest) : c.before = front :=
  List.append_cancel_right (c.before_append_rest.trans h)

/-- A text can be sliced at its boundaries. -/
theorem slices_of_boundary {n : Nat} (h : IsBoundary source n) :
    n ≤ octets source ∧ (slice? source 0 n).isSome ∧ (slice? source n (octets source)).isSome := by
  obtain ⟨front, rest, rfl, rfl⟩ := h
  refine ⟨?_, by rw [slice?_front]; rfl, by rw [slice?_back]; rfl⟩
  rw [octets_append]
  exact Nat.le_add_right _ _

/-- A reset to a boundary arrives there. -/
theorem offset_reset {n : Nat} (h : IsBoundary c.source n) : (c.reset n).offset = n := by
  obtain ⟨front, rest, hsource, rfl⟩ := h
  have hrest : (c.reset (octets front)).rest = rest := by
    show c.source.drop (takeOctets (octets front) c.source).length = rest
    rw [hsource, takeOctets_octets, List.drop_left]
  have hbefore : (c.reset (octets front)).before = front := by
    apply before_of_rest
    rw [hrest]
    exact hsource
  rw [offset, hbefore]

/-- What lies between two cursors of one text is the slice between their offsets. -/
theorem slice?_of_rest {next : Cursor} {text : Text} (hsource : next.source = c.source)
    (hrest : c.rest = text ++ next.rest) :
    slice? c.source c.offset next.offset = some text := by
  have hnext : next.before = c.before ++ text := by
    apply before_of_rest
    rw [hsource, List.append_assoc, ← hrest, before_append_rest]
  rw [← c.before_append_rest, hrest, offset, offset, hnext, octets_append]
  exact slice?_of_append c.before text next.rest

/-! ## The same place by its offset -/

/-- The same place, by its octet offset. -/
def byOctet (c : Cursor) : OctetCursor := ⟨c.source, c.offset⟩

open OctetCursor

/-- Kept as an offset, a cursor is the one in front of what is left. -/
theorem byOctet_eq (c : Cursor) : c.byOctet = inFrontOf c.source c.rest := by
  have happend := inFrontOf_append c.before c.rest
  rw [before_append_rest] at happend
  exact happend.symm

/-- Moving it is being in front of less. -/
theorem byOctet_moveTo (c : Cursor) {rest : Text} (h : rest <:+ c.rest) :
    (c.moveTo rest h).byOctet = inFrontOf c.source rest :=
  byOctet_eq _

/-- Every boundary is the offset of some place. -/
theorem exists_byOctet {c : OctetCursor} (h : IsBoundary c.source c.pos) :
    ∃ k : Cursor, k.byOctet = c := by
  obtain ⟨source, pos⟩ := c
  obtain ⟨front, rest, rfl, rfl⟩ := h
  refine ⟨⟨front ++ rest, rest, List.suffix_append front rest⟩, ?_⟩
  rw [byOctet_eq, inFrontOf_append]

section Simulation

variable (c : Cursor)

/-- **NO SLICE FAILS**: the slice from the offset to the end is what is left. -/
theorem rest?_byOctet : c.byOctet.rest? = some c.rest := by
  rw [byOctet_eq, rest?_inFrontOf c.suffix]

/-- Looking at the next character is alike. -/
theorem peek?_byOctet : c.byOctet.peek? = some c.peek := by
  rw [byOctet_eq, peek?_inFrontOf c.suffix]
  rfl

/-- Taking a character is alike, since its width leads behind it. -/
theorem bump_byOctet : c.byOctet.bump = some (c.bump.1, c.bump.2.byOctet) := by
  rw [byOctet_eq, byOctet_eq]
  show (inFrontOf c.source c.rest).bump = some (c.rest.head?, inFrontOf c.source (c.rest.drop 1))
  have hsuffix := c.suffix
  cases hrest : c.rest with
  | nil => exact bump_inFrontOf_nil
  | cons ch rest => exact bump_inFrontOf_cons (hrest ▸ hsuffix)

/-- Eating a text is alike, since its octets do. -/
theorem eat_byOctet (text : Text) :
    c.byOctet.eat text = some ((c.eat text).1, (c.eat text).2.byOctet) := by
  have hscan := eat_inFrontOf text c.suffix
  rw [← byOctet_eq] at hscan
  rw [Cursor.eat]
  split
  · rename_i rest h
    rw [h] at hscan
    simp only [hscan, byOctet_moveTo]
  · rename_i h
    rwa [h] at hscan

/-- A keyword is eaten alike; the look behind it is another slice. -/
theorem eatKeyword_byOctet (text : Text) :
    c.byOctet.eatKeyword text = some ((c.eatKeyword text).1, (c.eatKeyword text).2.byOctet) := by
  have hscan := eatKeyword_inFrontOf text c.suffix
  rw [← byOctet_eq] at hscan
  rw [Cursor.eatKeyword]
  split
  · rename_i rest h
    rw [h] at hscan
    simp only [hscan, byOctet_moveTo]
  · rename_i h
    rwa [h] at hscan

/-- A line end is eaten alike, with its one or two octets. -/
theorem eatLineEnd_byOctet :
    c.byOctet.eatLineEnd = some (c.eatLineEnd.1, c.eatLineEnd.2.byOctet) := by
  have hscan := eatLineEnd_inFrontOf c.suffix
  rw [← byOctet_eq] at hscan
  rw [Cursor.eatLineEnd]
  split
  · rename_i rest h
    rw [h] at hscan
    simp only [hscan, byOctet_moveTo]
  · rename_i h
    rwa [h] at hscan

/-- Characters are taken alike, by a slice between both offsets. -/
theorem takeWhile_byOctet (p : Char → Bool) :
    c.byOctet.takeWhile p = some ((c.takeWhile p).1, (c.takeWhile p).2.byOctet) := by
  rw [byOctet_eq, byOctet_eq, takeWhile_inFrontOf p c.suffix]
  rfl

/-- Blanks are passed alike by single octets, which is what they have. -/
theorem skipSpacing_byOctet :
    c.byOctet.skipSpacing = some (c.skipSpacing.1, c.skipSpacing.2.byOctet) := by
  have hone : ∀ ch, isSpacing ch = true → ch.utf8Size = 1 := by
    intro ch hch
    simp only [isSpacing, Bool.or_eq_true, beq_iff_eq] at hch
    rcases hch with ((rfl | rfl) | rfl) | rfl <;> rfl
  rw [byOctet_eq, byOctet_eq, OctetCursor.skipSpacing, skip_inFrontOf hone c.suffix]
  rfl

/-- So are the blanks of a line. -/
theorem skipInline_byOctet :
    c.byOctet.skipInline = some (c.skipInline.1, c.skipInline.2.byOctet) := by
  have hone : ∀ ch, isInlineBlank ch = true → ch.utf8Size = 1 := by
    intro ch hch
    simp only [isInlineBlank, Bool.or_eq_true, beq_iff_eq] at hch
    rcases hch with rfl | rfl <;> rfl
  rw [byOctet_eq, byOctet_eq, OctetCursor.skipInline, skip_inFrontOf hone c.suffix, Option.map_some]
  exact congrArg (fun moved => some (moved, _)) (decide_pos_lt isInlineBlank c.suffix)

/-- A word is taken alike. -/
theorem word_byOctet : c.byOctet.word = some (c.word.1, c.word.2.byOctet) := by
  rw [byOctet_eq c, word_inFrontOf c.suffix, Cursor.word]
  split
  · rename_i hempty
    have hnone := List.isEmpty_iff.mp hempty
    have hstay : c.rest.dropWhile isWordChar = c.rest := by
      have hparts := List.takeWhile_append_dropWhile (p := isWordChar) (l := c.rest)
      rwa [hnone] at hparts
    rw [hstay, byOctet_eq]
  · rw [byOctet_eq]
    rfl

/-- A mark is found alike, by its offset in what is left. -/
theorem upTo_byOctet (mark : Text) :
    c.byOctet.upTo mark = some ((c.upTo mark).1, (c.upTo mark).2.byOctet) := by
  have hscan := upTo_inFrontOf mark c.suffix
  rw [← byOctet_eq] at hscan
  rw [Cursor.upTo]
  split
  · rename_i found h
    rw [h] at hscan
    simp only [hscan]
    rw [byOctet_eq]
    rfl
  · rename_i h
    rwa [h] at hscan

/-- The step back over a carriage return is a step over one octet. -/
theorem takeLine_byOctet : c.byOctet.takeLine = some (c.takeLine.1, c.takeLine.2.byOctet) := by
  rw [byOctet_eq, byOctet_eq, takeLine_inFrontOf c.suffix]
  rfl

/-- A quoted string is taken alike, where the end of the slice is one octet before its closing mark. -/
theorem quoted_byOctet (mark : Char) :
    c.byOctet.quoted mark = some ((c.quoted mark).1, (c.quoted mark).2.byOctet) := by
  have hsuffix := c.suffix
  have hplace : c.position = Position.ofRest c.source c.rest := rfl
  rw [Cursor.quoted]
  split
  · rename_i hrest
    rw [byOctet_eq, quoted_inFrontOf_of_head mark c.suffix (by rw [hrest]; simp)]
    rfl
  · rename_i first rest hrest
    rw [hrest] at hsuffix
    split
    · rename_i hfirst
      subst hfirst
      have hquoted := quoted_inFrontOf first hsuffix
      rw [← hrest, ← byOctet_eq, hrest] at hquoted
      split
      · rename_i span h
        rw [h] at hquoted
        simp only [hquoted, byOctet_moveTo]
      · rename_i h
        rw [h, ← hrest] at hquoted
        rw [hquoted, hplace]
    · rename_i hfirst
      rw [byOctet_eq, quoted_inFrontOf_of_head mark c.suffix (by rw [hrest]; simpa using hfirst)]
      rfl

/-- A failing scan of a block stops in front of an end of the text. -/
theorem stoppedAt_suffix {e : ParseError Text} (h : Text.balanced c.rest = .error e) :
    stoppedAt e <:+ c.source := by
  have hplaced := @scanBlock_error c.source [] (.code false) c.rest e c.suffix (by simp) trivial h
  cases e with
  | unterminatedQuote mark opening =>
      obtain hblock | hplaced := hplaced
      · cases hblock
      · exact hplaced.1
  | _ => exact List.nil_suffix

/-- A block is scanned alike, and where it fails the cursor has stopped at the same place. -/
theorem balanced_byOctet : c.byOctet.balanced = some (c.balanced.1, c.balanced.2.byOctet) := by
  have hscan := balanced_inFrontOf c.suffix
  rw [← byOctet_eq] at hscan
  rw [Cursor.balanced]
  split
  · rename_i found h
    rw [h] at hscan
    simp only [hscan]
    rw [byOctet_eq]
    rfl
  · rename_i e h
    have hstop := List.suffix_iff_eq_drop.mp (stoppedAt_suffix c h)
    rw [h] at hscan
    simp only [hscan]
    rw [byOctet_eq]
    dsimp only
    rw [← hstop]

/-- At a boundary a reset does the same. -/
theorem reset_byOctet {n : Nat} (h : IsBoundary c.source n) :
    c.byOctet.reset n = (c.reset n).byOctet :=
  congrArg (OctetCursor.mk c.source) (offset_reset h).symm

end Simulation

namespace Operation

/-- Carries out an operation by octet offset; there is no result where it breaks off. -/
def run : Operation → OctetCursor → Option (Answer × OctetCursor)
  | .bump, c => c.bump.map fun r => (r.1.elim .missed fun found => .took [found], r.2)
  | .eat text, c => (c.eat text).map fun r => (if r.1 then .took text else .missed, r.2)
  | .eatKeyword text, c =>
    (c.eatKeyword text).map fun r => (if r.1 then .took text else .missed, r.2)
  | .skipSpacing, c => c.skipSpacing.map fun r => (.moved, r.2)
  | .skipInline, c => c.skipInline.map fun r => (if r.1 then .moved else .missed, r.2)
  | .eatLineEnd, c => c.eatLineEnd.map fun r => (if r.1 then .moved else .missed, r.2)
  | .takeWhile p, c => (c.takeWhile p).map fun r => (.took r.1, r.2)
  | .word, c => c.word.map fun r => (r.1.elim .missed .took, r.2)
  | .upTo mark, c => (c.upTo mark).map fun r => (r.1.elim .missed .took, r.2)
  | .takeLine, c => c.takeLine.map fun r => (.took r.1, r.2)
  | .quoted mark, c => (c.quoted mark).map fun r => (r.1.toOption.elim .missed .took, r.2)
  | .balanced, c => c.balanced.map fun r => (r.1.toOption.elim .missed .took, r.2)
  | .reset offset, c => some (.moved, c.reset offset)

/-- **EACH OPERATION DOES THE SAME** by octet offset, and it does not break off. -/
theorem run_byOctet (op : Operation) (c : Cursor)
    (back : ∀ n, op = .reset n → IsBoundary c.source n) :
    op.run c.byOctet = some ((op.apply c).1, (op.apply c).2.byOctet) := by
  cases op with
  | bump => rw [run, bump_byOctet]; rfl
  | eat text => rw [run, eat_byOctet]; rfl
  | eatKeyword text => rw [run, eatKeyword_byOctet]; rfl
  | skipSpacing => rw [run, skipSpacing_byOctet]; rfl
  | skipInline => rw [run, skipInline_byOctet]; rfl
  | eatLineEnd => rw [run, eatLineEnd_byOctet]; rfl
  | takeWhile p => rw [run, takeWhile_byOctet]; rfl
  | word => rw [run, word_byOctet]; rfl
  | upTo mark => rw [run, upTo_byOctet]; rfl
  | takeLine => rw [run, takeLine_byOctet]; rfl
  | quoted mark => rw [run, quoted_byOctet]; rfl
  | balanced => rw [run, balanced_byOctet]; rfl
  | reset n => rw [run, reset_byOctet c (back n rfl)]; rfl

/-- **EACH OPERATION STAYS ON BOUNDARIES**: at a boundary it has a result, and that is at a boundary
of the same text.  What it takes is the slice between the two offsets, less its delimiters, and
if it misses it has not moved, but for the scan of a block. -/
theorem run_stays (op : Operation) {c : OctetCursor} (hc : IsBoundary c.source c.pos)
    (back : ∀ n, op = .reset n → IsBoundary c.source n) :
    ∃ answer next, op.run c = some (answer, next) ∧
      next.source = c.source ∧ IsBoundary c.source next.pos ∧
      (∀ n, op = .reset n → next.pos = n) ∧
      (∀ text, answer = .took text →
        slice? c.source c.pos next.pos = some (op.delimiter ++ (text ++ op.delimiter))) ∧
      (answer = .missed → op ≠ .balanced → next = c) := by
  obtain ⟨k, rfl⟩ := exists_byOctet hc
  have hsource := op.source_apply k
  have hleads := op.leads_apply k
  have hboundary := isBoundary_offset (op.apply k).2
  rw [hsource] at hboundary
  refine ⟨_, _, run_byOctet op k back, hsource, hboundary, ?_, ?_, ?_⟩
  · rintro n rfl
    exact offset_reset (back n rfl)
  · intro text htook
    rw [htook] at hleads
    cases hleads with
    | took hrest => exact slice?_of_rest hsource (by simpa using hrest)
  · intro hmissed hscan
    rw [hmissed] at hleads
    generalize hnext : (op.apply k).2 = next at hleads
    cases hleads with
    | missed => rfl
    | failed hblock => exact absurd hblock hscan

end Operation

end Cursor

namespace OctetCursor

open Text Cursor

/-! ## Visited cursors -/

/-- A cursor that operations lead to from the start of a text, with the offsets that were seen on
the way. -/
inductive Visited (source : Text) : OctetCursor → List Nat → Prop
  | start : Visited source (.new source) [0]
  | step {c next : OctetCursor} {seen : List Nat} {answer : Answer} (op : Operation)
      (earlier : Visited source c seen) (back : ∀ n, op = .reset n → n ∈ seen)
      (run : op.run c = some (answer, next)) : Visited source next (next.pos :: seen)

variable {source : Text} {c : OctetCursor} {seen : List Nat}

/-- The last offset is among those that were visited. -/
theorem Visited.pos_mem (h : Visited source c seen) : c.pos ∈ seen := by
  cases h with
  | start => exact List.mem_cons_self
  | step op earlier back run => exact List.mem_cons_self

/-- **WHAT IS SEEN IS A BOUNDARY** of the text. -/
theorem Visited.boundaries (h : Visited source c seen) :
    c.source = source ∧ ∀ n ∈ seen, IsBoundary source n := by
  induction h with
  | start => exact ⟨rfl, List.forall_mem_singleton.mpr ⟨[], source, rfl, rfl⟩⟩
  | @step c next seen answer op earlier back run ih =>
      obtain ⟨rfl, hseen⟩ := ih
      obtain ⟨_, _, hrun, hsource, hboundary, -⟩ :=
        op.run_stays (hseen _ earlier.pos_mem) fun n hn => hseen n (back n hn)
      rw [run] at hrun
      cases hrun
      exact ⟨hsource, List.forall_mem_cons.mpr ⟨hboundary, hseen⟩⟩

/-- **A VISITED CURSOR IS ON A BOUNDARY**: its offset and all that were seen before it lie between
characters of the text, so that the text can be sliced there, and whatever the cursor looks at
is there.  Each operation has a result, which again is on a boundary.  What an operation takes is
the slice from the offset before it to the offset after it, less its delimiters; and one that
misses leaves the cursor where it was, but for the scan of a block. -/
theorem visited_on_boundaries (h : Visited source c seen) :
    (c.source = source ∧ c.pos ∈ seen ∧ ∀ n ∈ seen, IsBoundary source n ∧ n ≤ octets source ∧
      (slice? source 0 n).isSome ∧ (slice? source n (octets source)).isSome) ∧
    (c.rest?.isSome ∧ c.peek?.isSome ∧ (∀ word, (c.startsWith? word).isSome) ∧
      c.position?.isSome ∧ ∀ n ∈ seen, (c.positionAt? n).isSome) ∧
    ∀ op : Operation, (∀ n, op = .reset n → n ∈ seen) →
      ∃ answer next, op.run c = some (answer, next) ∧
        next.source = source ∧ IsBoundary source next.pos ∧
        (∀ n, op = .reset n → next.pos = n) ∧
        (∀ text, answer = .took text →
          slice? source c.pos next.pos = some (op.delimiter ++ (text ++ op.delimiter))) ∧
        (answer = .missed → op ≠ .balanced → next = c) := by
  obtain ⟨rfl, hboundaries⟩ := h.boundaries
  have hpos := hboundaries _ h.pos_mem
  have hposition : ∀ n ∈ seen, (c.positionAt? n).isSome := by
    intro n hn
    obtain ⟨front, rest, hsource, rfl⟩ := hboundaries n hn
    rw [positionAt?, hsource, lineColumn?_octets]
    rfl
  have hrest : c.rest?.isSome := by
    obtain ⟨k, rfl⟩ := exists_byOctet hpos
    rw [rest?_byOctet]
    rfl
  refine ⟨⟨rfl, h.pos_mem, fun n hn => ⟨hboundaries n hn, slices_of_boundary (hboundaries n hn)⟩⟩,
    ⟨hrest, ?_, ?_, hposition _ h.pos_mem, hposition⟩, ?_⟩
  · rwa [peek?, Option.isSome_map]
  · intro word
    rwa [startsWith?, Option.isSome_map]
  · exact fun op back => op.run_stays hpos fun n hn => hboundaries n (back n hn)

/-- Inside of a character there is nothing to see. -/
example : (OctetCursor.mk ['ß'] 1).peek? = none := by decide

/-- A text with characters of one octet and of two. -/
def mixed : Text := "aé\\\n\x7b'ß".toList

/-- Where a block is looked for in it. -/
def mixedBlock : Cursor :=
  (Operation.skipSpacing.apply (Operation.bump.apply
    ((Operation.takeWhile (· ≠ '\\')).apply (.new mixed)).2).2).2

/-- Where a place was visited, so is where an operation leads that is no reset. -/
theorem Visited.apply {k : Cursor} (h : Visited source k.byOctet seen) (op : Operation)
    (hop : ∀ n, op ≠ .reset n) :
    Visited source (op.apply k).2.byOctet ((op.apply k).2.offset :: seen) :=
  h.step op (fun n hn => absurd hn (hop n)) (op.run_byOctet k fun n hn => absurd hn (hop n))

/-- It is behind the line feed, and the offsets on the way there were seen. -/
theorem visited_mixedBlock : Visited mixed ⟨mixed, 5⟩ [5, 4, 3, 0] := by
  have hstart : Visited mixed (Cursor.new mixed).byOctet [0] := .start
  have htaken := hstart.apply (.takeWhile (· ≠ '\\')) nofun
  exact (htaken.apply .bump nofun).apply .skipSpacing nofun

/-- The block is not closed, and the cursor is left behind its brace; from there it goes back. -/
theorem mixed_visited :
    Visited mixed ⟨mixed, 5⟩ [5, 4, 3, 0] ∧
      Operation.balanced.run ⟨mixed, 5⟩ = some (.missed, ⟨mixed, 6⟩) ∧
      Visited mixed ⟨mixed, 3⟩ [3, 6, 5, 4, 3, 0] ∧
      (Operation.quoted '"').run ⟨mixed, 3⟩ = some (.missed, ⟨mixed, 3⟩) := by
  have hfails : Operation.balanced.run ⟨mixed, 5⟩ = some (.missed, ⟨mixed, 6⟩) :=
    (Operation.balanced.run_byOctet mixedBlock nofun).trans (by decide +kernel)
  have hlost := visited_mixedBlock.step .balanced nofun hfails
  obtain ⟨-, -, hmoves⟩ := visited_on_boundaries hlost
  have hseen : ∀ n, Operation.reset 3 = .reset n → n ∈ [6, 5, 4, 3, 0] := fun n h => by
    cases h
    decide
  obtain ⟨_, back, hreset, -⟩ := hmoves (.reset 3) hseen
  have hvisited := hlost.step (.reset 3) hseen hreset
  obtain rfl : back = ⟨mixed, 3⟩ := by cases hreset; rfl
  obtain ⟨-, -, hmoves⟩ := visited_on_boundaries hvisited
  obtain ⟨_, _, hquoted, -, -, -, -, hstays⟩ := hmoves (.quoted '"') nofun
  have hmissed : ((Operation.quoted '"').run ⟨mixed, 3⟩).map (·.1) = some .missed :=
    (congrArg _ ((Operation.quoted '"').run_byOctet
      ((Operation.takeWhile (· ≠ '\\')).apply (.new mixed)).2 nofun)).trans (by decide +kernel)
  rw [hquoted] at hmissed
  obtain rfl := Option.some.inj hmissed
  rw [hstays rfl nofun] at hquoted
  exact ⟨visited_mixedBlock, hfails, hvisited, hquoted⟩

end OctetCursor

end TaskRunner
