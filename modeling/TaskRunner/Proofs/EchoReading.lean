import TaskRunner.Command.Echo

/-! # What a built-in echo reads

    Reading a command line takes away the quotes and the backslashes.  What is left is a
    list of marks: blanks that end a word, characters that may still mean something to a
    shell, and texts that only stand for themselves (`readElements`).

    The built-in echo reads and writes in one pass.  **What it writes is decided by the marks
    alone**, whatever piece of the line they come from (`elements_eq_follow`): it gives up at
    a mark that means something to a shell, and takes all others in order. -/

namespace TaskRunner

/-! ## Marks -/

/-- What is read at a place of a command line: a blank between words, the start of a quoted part, a
character of the line outside of quotes or inside double ones, a character of a value outside of
quotes, or a text without a meaning of its own. -/
inductive Mark
  | blank
  | opening
  | bare (c : Char)
  | double (c : Char)
  | value (c : Char)
  | literal (s : Text)
deriving DecidableEq, Repr

namespace Mark

/-- A mark that only a shell understands. -/
def forShell : Mark → Bool
  | .bare c => EchoLine.shellCharacters.contains c
  | .value c => EchoLine.patternCharacters.contains c
  | _ => false

/-- What a character of a value outside of quotes is: a blank there is a blank of the line. -/
def ofValue (c : Char) : Mark := if Text.isBlank c then .blank else .value c

end Mark

/-- The marks that are read, and the quotes that are open behind them; `none` where nothing sensible
can be read. -/
abbrev MarkReading := Option (List Mark × Quoting)

namespace MarkReading

/-- The same reading behind more marks. -/
def after (marks : List Mark) (read : MarkReading) : MarkReading :=
  read.map fun found => (marks ++ found.1, found.2)

end MarkReading

/-- Reads a text of a command line. A backslash takes away the meaning of the next character,
inside double quotes only where it has one; outside of quotes it needs a next character. -/
def readText : Quoting → Text → MarkReading
  | quoting, [] => some ([], quoting)
  | .single, c :: rest =>
    if c = '\'' then readText .bare rest
    else (readText .single rest).after [.literal [c]]
  | .double, c :: rest =>
    if c = '"' then readText .bare rest
    else if c = '\\' then
      match rest with
      | [] => some ([.double '\\'], .double)
      | d :: rest =>
        if EchoLine.isEscapable d then (readText .double rest).after [.literal [d]]
        else (readText .double rest).after [.double '\\', .double d]
    else (readText .double rest).after [.double c]
  | .bare, c :: rest =>
    if c = '\'' then (readText .single rest).after [.opening]
    else if c = '"' then (readText .double rest).after [.opening]
    else if c = '\\' then
      match rest with
      | [] => none
      | d :: rest => (readText .bare rest).after [.literal [d]]
    else if Text.isBlank c then (readText .bare rest).after [.blank]
    else (readText .bare rest).after [.bare c]

/-- Reads a value: outside of quotes its blanks are blanks of the line. -/
def readValue (quoting : Quoting) (v : String) : List Mark :=
  if quoting = .bare then v.toList.map Mark.ofValue else [.literal v.toList]

/-- Reads an element. A variable inside single quotes is none. -/
def readElement (lookup : Lookup) (quoting : Quoting) : Element → MarkReading
  | .text s => readText quoting s.toList
  | .variable name =>
    if quoting = .single then some ([.literal ("$" ++ name).toList], quoting)
    else some (readValue quoting ((lookup name).getD ""), quoting)
  | .expression e => some (readValue quoting (e.value lookup), quoting)
  | .backtick _ => none

/-- Reads the elements of a command line, one after the other. -/
def readElements (lookup : Lookup) (quoting : Quoting) : List Element → MarkReading
  | [] => some ([], quoting)
  | e :: rest =>
    (readElement lookup quoting e).bind fun found =>
      (readElements lookup found.2 rest).after found.1

namespace EchoLine

/-! ## Writing marks -/

/-- Takes one mark. -/
def take (lookup : Lookup) (line : EchoLine) : Mark → EchoLine
  | .blank => line.endWord lookup
  | .opening => line.separate lookup
  | .bare c | .double c => line.expandable lookup c
  | .value c => line.raw lookup (String.ofList [c])
  | .literal s => line.raw lookup (String.ofList s)

/-- The same line inside of other quotes. -/
def inQuotes (quoting : Quoting) (line : EchoLine) : EchoLine := { line with quoting }

/-- A mark is written alike whatever quotes are open; they decide how it is read. -/
theorem take_inQuotes (lookup : Lookup) (quoting : Quoting) (line : EchoLine) (m : Mark) :
    (line.inQuotes quoting).take lookup m = (line.take lookup m).inQuotes quoting := by
  obtain ⟨written, pending, before, due⟩ := line
  cases m <;> cases due <;> rfl

/-- Takes what is read, unless a shell is needed for it. -/
def follow (lookup : Lookup) (line : EchoLine) (read : MarkReading) : Option EchoLine :=
  read.bind fun found =>
    if found.1.any Mark.forShell then none
    else some ((found.1.foldl (take lookup) line).inQuotes found.2)

/-- So a reading brings its own quotes along. -/
theorem follow_inQuotes (lookup : Lookup) (quoting : Quoting) (line : EchoLine)
    (read : MarkReading) :
    (line.inQuotes quoting).follow lookup read = line.follow lookup read := by
  have hfold : ∀ (marks : List Mark) (line : EchoLine),
      marks.foldl (take lookup) (line.inQuotes quoting)
        = (marks.foldl (take lookup) line).inQuotes quoting := by
    intro marks
    induction marks with
    | nil => intro line; rfl
    | cons m marks ih => intro line; rw [List.foldl_cons, take_inQuotes, ih]; rfl
  cases read with
  | none => rfl
  | some found => simp only [follow, Option.bind_some, hfold]; rfl

/-- Marks in front of a reading are taken first. -/
theorem follow_after {lookup : Lookup} {marks : List Mark} (h : marks.any Mark.forShell = false)
    (line : EchoLine) (read : MarkReading) :
    line.follow lookup (read.after marks)
      = (marks.foldl (take lookup) line).follow lookup read := by
  cases read with
  | none => rfl
  | some found =>
      simp only [follow, MarkReading.after, Option.map_some, Option.bind_some, List.any_append, h,
        Bool.false_or, List.foldl_append]

/-- One that is for the shell ends it all. -/
theorem follow_after_of_forShell {lookup : Lookup} {marks : List Mark}
    (h : marks.any Mark.forShell = true) (line : EchoLine) (read : MarkReading) :
    line.follow lookup (read.after marks) = none := by
  cases read with
  | none => rfl
  | some found =>
      simp only [follow, MarkReading.after, Option.map_some, Option.bind_some, List.any_append, h,
        Bool.true_or, if_true]

/-- A space between words is written in no quotes. -/
theorem quoting_separate (lookup : Lookup) (line : EchoLine) :
    (line.separate lookup).quoting = line.quoting := by
  rw [separate]
  split <;> rfl

/-- Writing a mark opens and closes nothing. -/
theorem quoting_take (lookup : Lookup) (line : EchoLine) (m : Mark) :
    (line.take lookup m).quoting = line.quoting := by
  cases m with
  | blank => rfl
  | _ => exact quoting_separate lookup line

/-- And so for many of them. -/
theorem quoting_foldl_take (lookup : Lookup) (line : EchoLine) (marks : List Mark) :
    (marks.foldl (take lookup) line).quoting = line.quoting := by
  induction marks generalizing line with
  | nil => rfl
  | cons m marks ih => rw [List.foldl_cons, ih, quoting_take]

/-- Marks are taken, and then what is read behind them inside the same quotes. -/
theorem follow_marks {lookup : Lookup} (marks : List Mark)
    (h : marks.any Mark.forShell = false) {line : EchoLine} {quoting : Quoting}
    (hquoting : line.quoting = quoting) (s : Text) :
    (marks.foldl (take lookup) line).follow lookup
        (readText (marks.foldl (take lookup) line).quoting s)
      = line.follow lookup ((readText quoting s).after marks) := by
  rw [follow_after h, quoting_foldl_take, hquoting]

/-- Quotes open, and then what stands inside of them is read. -/
theorem follow_opening (lookup : Lookup) (line : EchoLine) (quoting : Quoting) (s : Text) :
    ((line.separate lookup).inQuotes quoting).follow lookup (readText quoting s)
      = line.follow lookup ((readText quoting s).after [.opening]) := by
  rw [follow_inQuotes, follow_after rfl]
  rfl

/-- Quotes that are open already stay open. -/
theorem inQuotes_self {line : EchoLine} {quoting : Quoting} (h : line.quoting = quoting) :
    line.inQuotes quoting = line := by
  subst h
  rfl

/-- A text is written as it is read. -/
theorem text_eq_follow (lookup : Lookup) (line : EchoLine) (s : Text) :
    line.text lookup s = line.follow lookup (readText line.quoting s) := by
  fun_induction EchoLine.text lookup line s with
  | case1 line => rfl
  | case2 line rest hquoting ih =>
      rw [hquoting, readText, if_pos rfl]
      exact ih.trans (follow_inQuotes lookup .bare line _)
  | case3 line c rest hquoting hc ih =>
      rw [hquoting, readText, if_neg hc]
      exact ih.trans (follow_marks [.literal [c]] rfl hquoting rest)
  | case4 line rest hquoting ih =>
      rw [hquoting, readText.eq_def]
      exact ih.trans (follow_inQuotes lookup .bare line _)
  | case5 line hquoting =>
      have hsame := (quoting_take lookup line (.double '\\')).trans hquoting
      rw [hquoting]
      exact congrArg some (inQuotes_self hsame).symm
  | case6 line hquoting d rest hd _ ih =>
      rw [hquoting, readText.eq_def]
      simp only [if_pos hd]
      exact ih.trans (follow_marks [.literal [d]] rfl hquoting rest)
  | case7 line hquoting d rest hd _ ih =>
      rw [hquoting, readText.eq_def]
      simp only [if_neg hd]
      exact ih.trans (follow_marks [.double '\\', .double d] rfl hquoting rest)
  | case8 line c rest hquoting hc hc' ih =>
      rw [hquoting, readText.eq_def]
      simp only [if_neg hc, if_neg hc']
      exact ih.trans (follow_marks [.double c] rfl hquoting rest)
  | case9 line rest hquoting ih =>
      rw [hquoting, readText.eq_def]
      exact ih.trans (follow_opening lookup line .single rest)
  | case10 line rest hquoting _ ih =>
      rw [hquoting, readText.eq_def]
      exact ih.trans (follow_opening lookup line .double rest)
  | case11 line hquoting => rw [hquoting]; rfl
  | case12 line hquoting d rest _ _ ih =>
      rw [hquoting, readText.eq_def]
      exact ih.trans (follow_marks [.literal [d]] rfl hquoting rest)
  | case13 line c rest hquoting hc hc' hc'' hblank ih =>
      rw [hquoting, readText.eq_def]
      simp only [if_neg hc, if_neg hc', if_neg hc'', if_pos hblank]
      exact ih.trans (follow_marks [.blank] rfl hquoting rest)
  | case14 line c rest hquoting hc hc' hc'' hblank hshell =>
      rw [hquoting, readText.eq_def]
      simp only [if_neg hc, if_neg hc', if_neg hc'', if_neg hblank]
      have hmarks : [Mark.bare c].any Mark.forShell = true := by
        rw [List.any_cons, Mark.forShell, hshell]
        rfl
      exact (follow_after_of_forShell hmarks line _).symm
  | case15 line c rest hquoting hc hc' hc'' hblank hshell ih =>
      rw [hquoting, readText.eq_def]
      simp only [if_neg hc, if_neg hc', if_neg hc'', if_neg hblank]
      have hmarks : [Mark.bare c].any Mark.forShell = false := by
        rw [List.any_cons, Mark.forShell, Bool.eq_false_iff.mpr hshell]
        rfl
      exact ih.trans (follow_marks [.bare c] hmarks hquoting rest)

/-! ## Values -/

/-- Nothing has nothing to expand. -/
theorem expanded_empty (lookup : Lookup) : expanded lookup "" = "" := by
  rw [expanded, String.toList_empty, Text.expand, String.ofList_nil]

/-- Where nothing is pending nothing is written. -/
theorem flush_of_empty {lookup : Lookup} {line : EchoLine} (h : line.pending = "") :
    line.flush lookup = line := by
  obtain ⟨written, pending, quoting, due⟩ := line
  cases h
  rw [flush, expanded_empty, String.append_empty]

/-- A word ends once. -/
theorem endWord_endWord (lookup : Lookup) (line : EchoLine) :
    (line.endWord lookup).endWord lookup = line.endWord lookup := by
  rw [endWord, flush_of_empty rfl]
  rfl

/-- Behind a raw piece a word ends with nothing pending. -/
theorem raw_endWord (lookup : Lookup) (line : EchoLine) (s : String) :
    (line.raw lookup s).endWord lookup = { line.raw lookup s with spaceDue := true } := by
  rw [endWord, flush_of_empty rfl]

/-- A raw piece writes the space that is due. -/
theorem spaceDue_raw (lookup : Lookup) (line : EchoLine) (s : String) :
    (line.raw lookup s).spaceDue = false := by
  rw [raw, separate]
  cases hdue : line.spaceDue with
  | true => rfl
  | false => exact hdue

/-- No space is written where none is due. -/
theorem separate_of_not_due {lookup : Lookup} {line : EchoLine} (h : line.spaceDue = false) :
    line.separate lookup = line := by
  rw [separate, if_neg (by rw [h]; decide)]

/-- Raw pieces are written one behind the other. -/
theorem raw_raw (lookup : Lookup) (line : EchoLine) (a b : String) :
    (line.raw lookup a).raw lookup b = line.raw lookup (a ++ b) := by
  rw [raw, separate_of_not_due (spaceDue_raw lookup line a), flush_of_empty rfl]
  simp only [raw, String.append_assoc]

end EchoLine

namespace Text

/-- A blank in front starts no word. -/
theorem words_cons_of_blank {c : Char} (h : isBlank c = true) (s : Text) :
    words (c :: s) = words s := by
  rw [words, List.splitOnP_cons_eq_if_modifyHead, if_pos h]
  rfl

/-- A character that is no blank is a word in front of a blank, and else the first character of the
word that stands behind it. -/
theorem words_cons_of_not_blank {c : Char} (h : isBlank c = false) (s : Text) :
    (s = [] ∨ s.head?.any isBlank = true) ∧ words (c :: s) = [c] :: words s
      ∨ s.head?.any isBlank = false ∧
        ∃ word rest, words s = word :: rest ∧ words (c :: s) = (c :: word) :: rest := by
  cases s with
  | nil => exact .inl ⟨.inl rfl, by simp [words, List.splitOnP_cons_eq_if_modifyHead, h]⟩
  | cons d s =>
      by_cases hd : isBlank d = true
      · refine .inl ⟨.inr hd, ?_⟩
        simp [words, List.splitOnP_cons_eq_if_modifyHead, h, hd]
      · obtain ⟨piece, pieces, hpieces⟩ :=
          List.exists_cons_of_ne_nil (List.splitOnP_ne_nil isBlank s)
        refine .inr ⟨Bool.eq_false_iff.mpr hd, d :: piece, pieces.filter (!·.isEmpty), ?_, ?_⟩ <;>
          simp [words, List.splitOnP_cons_eq_if_modifyHead, h, hd, hpieces]

/-- A text without words is blank. -/
theorem isBlank_of_words_eq_nil {s : Text} (h : words s = []) : ∀ c ∈ s, isBlank c = true := by
  induction s with
  | nil => nofun
  | cons c s ih =>
      by_cases hc : isBlank c = true
      · rw [words_cons_of_blank hc] at h
        exact List.forall_mem_cons.mpr ⟨hc, ih h⟩
      · obtain ⟨-, hwords⟩ | ⟨-, word, rest, -, hwords⟩ :=
          words_cons_of_not_blank (Bool.eq_false_iff.mpr hc) s <;> cases hwords.symm.trans h

end Text

namespace EchoLine

/-- The words of a value, each but the first behind a space, with a space due where the value starts
or ends with a blank. -/
def splitValue (lookup : Lookup) (line : EchoLine) (v : Text) : EchoLine :=
  let started := if v.head?.any Text.isBlank then line.endWord lookup else line
  let written := started.words lookup ((Text.words v).map String.ofList)
  if v.getLast?.any Text.isBlank then { written with spaceDue := true } else written

/-- A blank in a value ends the word. -/
theorem splitValue_cons_of_blank {lookup : Lookup} {c : Char} (h : Text.isBlank c = true)
    (line : EchoLine) (v : Text) :
    line.splitValue lookup (c :: v) = (line.endWord lookup).splitValue lookup v := by
  have hstart : (if (c :: v).head?.any Text.isBlank then line.endWord lookup else line)
      = line.endWord lookup := if_pos h
  have hstart' : (if v.head?.any Text.isBlank then (line.endWord lookup).endWord lookup
      else line.endWord lookup) = line.endWord lookup := by
    rw [endWord_endWord, ite_self]
  rw [splitValue, splitValue, hstart, hstart', Text.words_cons_of_blank h]
  cases v with
  | nil =>
      rw [List.getLast?_singleton, if_pos (by exact h)]
      rfl
  | cons d v => rw [List.getLast?_cons_cons]

/-- Any other character of a value goes on with it. -/
theorem splitValue_cons_of_not_blank {lookup : Lookup} {c : Char} (h : Text.isBlank c = false)
    (line : EchoLine) (v : Text) :
    line.splitValue lookup (c :: v)
      = (line.raw lookup (String.ofList [c])).splitValue lookup v := by
  have hstart : (if (c :: v).head?.any Text.isBlank then line.endWord lookup else line) = line :=
    if_neg (by simp [h])
  rw [splitValue, splitValue, hstart]
  obtain ⟨hhead, hwords⟩ | ⟨hhead, word, rest, hv, hwords⟩ := Text.words_cons_of_not_blank h v
  · rw [hwords]
    cases v with
    | nil =>
        rw [List.getLast?_singleton, if_neg (by simp [h])]
        rfl
    | cons d v =>
        have hd : (d :: v).head?.any Text.isBlank = true :=
          hhead.resolve_left (List.cons_ne_nil _ _)
        rw [List.getLast?_cons_cons, if_pos hd, raw_endWord]
        cases hrest : Text.words (d :: v) with
        | nil =>
            have hlast : (d :: v).getLast?.any Text.isBlank = true := by
              rw [List.getLast?_eq_some_getLast (List.cons_ne_nil _ _)]
              exact Text.isBlank_of_words_eq_nil hrest _ (List.getLast_mem _)
            rw [if_pos hlast, if_pos hlast]
            rfl
        | cons word rest => rfl
  · have hne : v ≠ [] := by
      rintro rfl
      cases hv
    obtain ⟨d, v, rfl⟩ := List.exists_cons_of_ne_nil hne
    have hstart' : (if (d :: v).head?.any Text.isBlank
        then (line.raw lookup (String.ofList [c])).endWord lookup
        else line.raw lookup (String.ofList [c])) = line.raw lookup (String.ofList [c]) :=
      if_neg (by rw [hhead]; decide)
    rw [hstart', List.getLast?_cons_cons, hv, hwords, List.map_cons, List.map_cons, words, words,
      raw_raw, ← String.ofList_append, List.singleton_append]

/-- **A VALUE IS READ MARK BY MARK** as it is split into words. -/
theorem foldl_take_value (lookup : Lookup) (line : EchoLine) (v : Text) :
    (v.map Mark.ofValue).foldl (take lookup) line = line.splitValue lookup v := by
  induction v generalizing line with
  | nil => rfl
  | cons c v ih =>
      rw [List.map_cons, List.foldl_cons, ih, Mark.ofValue]
      cases hc : Text.isBlank c with
      | true => exact (splitValue_cons_of_blank hc line v).symm
      | false => exact (splitValue_cons_of_not_blank hc line v).symm

/-- Of a value only the characters of patterns are for the shell. -/
theorem forShell_ofValue (c : Char) :
    (Mark.ofValue c).forShell = patternCharacters.contains c := by
  rw [Mark.ofValue]
  split
  · rename_i hblank
    have hnone : patternCharacters.any Text.isBlank = false := by decide
    refine (Bool.eq_false_iff.mpr fun hmem => ?_).symm
    exact List.any_eq_false.mp hnone c (List.contains_iff_mem.mp hmem) hblank
  · rfl

/-- A value is written as it is read. -/
theorem value_eq_follow (lookup : Lookup) (line : EchoLine) (v : String) :
    line.value lookup v = line.follow lookup (some (readValue line.quoting v, line.quoting)) := by
  rw [value, readValue, follow, Option.bind_some]
  by_cases hquoting : line.quoting = .bare
  · have hsame := inQuotes_self (quoting_foldl_take lookup line (v.toList.map Mark.ofValue))
    rw [foldl_take_value] at hsame
    have hshell : (v.toList.map Mark.ofValue).any Mark.forShell
        = v.toList.any patternCharacters.contains := by
      rw [List.any_map]
      exact congrArg v.toList.any (funext forShell_ofValue)
    simp only [if_pos hquoting, hshell, foldl_take_value, hsame]
    rfl
  · have hsame := inQuotes_self (quoting_take lookup line (.literal v.toList))
    simp only [if_neg hquoting, List.foldl_cons, List.foldl_nil, hsame]
    rw [take, String.ofList_toList]
    rfl

/-! ## Whole lines -/

/-- **ECHO FOLLOWS ITS READING**, element by element. -/
theorem element_eq_follow (lookup : Lookup) (line : EchoLine) (e : Element) :
    line.element lookup e = line.follow lookup (readElement lookup line.quoting e) := by
  cases e with
  | text s => exact text_eq_follow lookup line s.toList
  | «variable» name =>
      rw [element, readElement]
      by_cases hquoting : line.quoting = .single
      · have hsame := inQuotes_self (quoting_take lookup line (.literal ("$" ++ name).toList))
        rw [if_pos hquoting, if_pos hquoting, follow, Option.bind_some]
        simp only [List.foldl_cons, List.foldl_nil, hsame]
        rw [take, String.ofList_toList]
        rfl
      · rw [if_neg hquoting, if_neg hquoting, value_eq_follow]
  | backtick command => rfl
  | expression e => exact value_eq_follow lookup line (e.value lookup)

/-- **What is written is decided by what is read**: the line goes on, mark by mark, unless a mark is
one for the shell. -/
theorem elements_eq_follow (lookup : Lookup) (line : EchoLine) (es : List Element) :
    line.elements lookup es = line.follow lookup (readElements lookup line.quoting es) := by
  induction es generalizing line with
  | nil => exact congrArg some (inQuotes_self rfl).symm
  | cons e es ih =>
      rw [elements, readElements, element_eq_follow]
      cases hread : readElement lookup line.quoting e with
      | none => rfl
      | some found =>
          obtain ⟨marks, quoting⟩ := found
          rw [Option.bind_some]
          cases hshell : marks.any Mark.forShell with
          | true =>
              rw [follow_after_of_forShell hshell, follow, Option.bind_some, if_pos hshell]
              rfl
          | false =>
              rw [follow_after hshell, follow, Option.bind_some, if_neg (by rw [hshell]; decide),
                Option.bind_some, ih, follow_inQuotes]
              rfl

end EchoLine

end TaskRunner
