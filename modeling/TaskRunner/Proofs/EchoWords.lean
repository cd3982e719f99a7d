import TaskRunner.Proofs.EchoReading

/-! # The words that a built-in echo prints

    The marks of a line are cut into words at its blanks (`Mark.words`), and a word is
    spoken by expanding the references in its runs of characters (`Mark.spoken`); a value or
    a quoted character ends such a run, a quote alone does not.

    The line that is being written is inside of a word or between two, and what it will show
    in the end is known in both cases from the marks that still come: the rest of the word and
    the words behind it, or just the words (`EchoLine.shown_foldl_take`).  **So what is printed
    are the words, with a space between two** (`EchoLine.shown_line`).  A space is only written
    where something stands before it, so empty words at the start leave no trace.

    `Command.echo_eq_some_iff` says all that a built-in echo does in terms of the whole line,
    its first word included. -/

namespace TaskRunner

namespace Mark

/-- A mark that ends a word. -/
def endsWord (m : Mark) : Bool := m == .blank

/-- The words of a line: what stands between blanks. A quoted part is one even if nothing is in it,
and between two blanks that stand next to each other there is none. -/
def words (marks : List Mark) : List (List Mark) :=
  (marks.splitOnP endsWord).filter (!·.isEmpty)

/-- The rest of the word that a line starts with. -/
def restOfWord (marks : List Mark) : List Mark := marks.takeWhile (!·.endsWord)

/-- The line behind the word that it starts with. -/
def behindWord (marks : List Mark) : List Mark := marks.dropWhile (!·.endsWord)

/-! ## Words -/

theorem words_cons_blank (marks : List Mark) : words (.blank :: marks) = words marks := by
  have hblank : endsWord .blank = true := rfl
  rw [words, List.splitOnP_cons_eq_if_modifyHead, if_pos hblank]
  rfl

theorem restOfWord_cons {m : Mark} (h : m.endsWord = false) (marks : List Mark) :
    restOfWord (m :: marks) = m :: restOfWord marks :=
  List.takeWhile_cons_of_pos (by rw [h]; rfl)

theorem behindWord_cons {m : Mark} (h : m.endsWord = false) (marks : List Mark) :
    behindWord (m :: marks) = behindWord marks :=
  List.dropWhile_cons_of_pos (by rw [h]; rfl)

theorem splitOnP_eq (marks : List Mark) :
    ∃ pieces, marks.splitOnP endsWord = restOfWord marks :: pieces
      ∧ words (behindWord marks) = pieces.filter (!·.isEmpty) := by
  induction marks with
  | nil => exact ⟨[], rfl, rfl⟩
  | cons m marks ih =>
      obtain ⟨pieces, hsplit, hwords⟩ := ih
      rw [List.splitOnP_cons_eq_if_modifyHead]
      cases hm : m.endsWord with
      | true =>
          have hblank : m = .blank := eq_of_beq hm
          subst hblank
          exact ⟨marks.splitOnP endsWord, rfl, words_cons_blank marks⟩
      | false =>
          refine ⟨pieces, ?_, ?_⟩
          · rw [if_neg (by decide), hsplit, restOfWord_cons hm]
            rfl
          · rw [behindWord_cons hm, hwords]

theorem words_cons {m : Mark} (h : m.endsWord = false) (marks : List Mark) :
    words (m :: marks) = (m :: restOfWord marks) :: words (behindWord marks) := by
  obtain ⟨pieces, hsplit, hwords⟩ := splitOnP_eq marks
  rw [words, List.splitOnP_cons_eq_if_modifyHead, if_neg (by rw [h]; decide), hsplit, hwords]
  rfl

theorem words_eq (marks : List Mark) :
    words marks = if restOfWord marks = [] then words (behindWord marks)
      else restOfWord marks :: words (behindWord marks) := by
  obtain ⟨pieces, hsplit, hwords⟩ := splitOnP_eq marks
  rw [words, hsplit, hwords, List.filter_cons]
  by_cases h : restOfWord marks = []
  · rw [if_pos h, h]
    rfl
  · rw [if_neg h, if_pos (by simpa using h)]

theorem words_blanks (n : Nat) (marks : List Mark) :
    words (List.replicate n .blank ++ marks) = words marks := by
  induction n with
  | zero => rfl
  | succ n ih => rw [List.replicate_succ, List.cons_append, words_cons_blank, ih]

end Mark

/-! ## Spoken words -/

theorem Text.expand_append_of_plain {s : Text} (h : '$' ∉ s) (lookup : Lookup) (more : Text) :
    expand lookup (s ++ more) = s ++ expand lookup more := by
  induction s with
  | nil => rfl
  | cons c s ih =>
      have hc : c ≠ '$' := fun heq => h (heq ▸ List.mem_cons_self)
      rw [List.cons_append, expand, if_neg hc, ih fun hmem => h (List.mem_cons_of_mem _ hmem)]
      rfl

theorem Text.expand_of_plain {s : Text} (h : '$' ∉ s) (lookup : Lookup) : expand lookup s = s := by
  have h := expand_append_of_plain h lookup []
  rwa [expand, List.append_nil] at h

namespace Mark

/-- The text of a word behind characters that are still to be expanded. Neighbouring characters
outside of quotes and inside double ones are expanded together. -/
def spoken (lookup : Lookup) (waiting : Text) : List Mark → Text
  | [] => Text.expand lookup waiting
  | .blank :: rest | .opening :: rest => spoken lookup waiting rest
  | .bare c :: rest | .double c :: rest => spoken lookup (waiting ++ [c]) rest
  | .value c :: rest => Text.expand lookup waiting ++ c :: spoken lookup [] rest
  | .literal s :: rest => Text.expand lookup waiting ++ (s ++ spoken lookup [] rest)

/-- Characters that are expanded to a text of their own in front of any others are spoken so. -/
theorem spoken_append {lookup : Lookup} {waiting text : Text}
    (h : ∀ more, Text.expand lookup (waiting ++ more) = text ++ Text.expand lookup more)
    (more : Text) (marks : List Mark) :
    spoken lookup (waiting ++ more) marks = text ++ spoken lookup more marks := by
  induction marks generalizing more with
  | nil => exact h more
  | cons m marks ih =>
      cases m with
      | blank | opening => exact ih more
      | bare c | double c => rw [spoken, spoken, List.append_assoc, ih]
      | value c | literal s => rw [spoken, spoken, h, List.append_assoc]

/-- Characters without a dollar sign are spoken as they are. -/
theorem spoken_of_plain {waiting : Text} (h : '$' ∉ waiting) (lookup : Lookup) (more : Text)
    (marks : List Mark) :
    spoken lookup (waiting ++ more) marks = waiting ++ spoken lookup more marks :=
  spoken_append (Text.expand_append_of_plain h lookup) more marks

end Mark

/-! ## Printed lines -/

/-- A line of words, with a space between two. -/
def joined (texts : List Text) : Text := [' '].intercalate texts

/-- One more word behind a line that is printed; nothing separates it from an empty line. -/
def printed (line word : Text) : Text := if line.isEmpty then word else line ++ ' ' :: word

theorem joined_cons_cons (a b : Text) (texts : List Text) :
    joined (a :: b :: texts) = a ++ ' ' :: joined (b :: texts) := by
  rw [joined, List.intercalate_cons_cons, List.append_assoc]
  rfl

theorem foldl_printed_of_ne (line : Text) (h : line ≠ []) (texts : List Text) :
    texts.foldl printed line = joined (line :: texts) := by
  induction texts generalizing line with
  | nil => rw [List.foldl_nil, joined, List.intercalate_singleton]
  | cons text texts ih =>
      rw [List.foldl_cons, printed, if_neg (by rwa [List.isEmpty_iff]),
        ih _ (List.append_ne_nil_of_left_ne_nil h _), joined_cons_cons]
      cases texts with
      | nil => rw [joined, List.intercalate_singleton, joined, List.intercalate_singleton]
      | cons b texts =>
          rw [joined_cons_cons, joined_cons_cons, List.append_assoc, List.cons_append]

/-- Words that are printed one by one are joined, without those at the start that print nothing. -/
theorem foldl_printed (texts : List Text) :
    texts.foldl printed [] = joined (texts.dropWhile List.isEmpty) := by
  induction texts with
  | nil => rfl
  | cons text texts ih =>
      rw [List.foldl_cons, printed, if_pos List.isEmpty_nil, List.dropWhile_cons]
      cases text with
      | nil => exact ih
      | cons c text => exact foldl_printed_of_ne _ (List.cons_ne_nil _ _) texts

namespace EchoLine

/-! ## What a line shows -/

/-- What a line shows once all of it is expanded. -/
def shown (lookup : Lookup) (line : EchoLine) : Text := (line.flush lookup).written.toList

theorem shown_eq (lookup : Lookup) (line : EchoLine) :
    line.shown lookup = line.written.toList ++ Text.expand lookup line.pending.toList := by
  rw [shown, flush, String.toList_append, expanded, String.toList_ofList]

/-- A mark inside of a word is taken in front of the rest of the word. -/
theorem spoken_take (lookup : Lookup) {line : EchoLine} {m : Mark} (hdue : line.spaceDue = false)
    (hm : m.endsWord = false) (rest : List Mark) :
    (line.take lookup m).spaceDue = false
      ∧ (line.take lookup m).written.toList
          ++ Mark.spoken lookup (line.take lookup m).pending.toList rest
        = line.written.toList ++ Mark.spoken lookup line.pending.toList (m :: rest) := by
  cases m with
  | blank => cases hm
  | opening =>
      rw [take, separate_of_not_due hdue]
      exact ⟨hdue, rfl⟩
  | bare c =>
      rw [take, expandable, separate_of_not_due hdue]
      exact ⟨hdue, by simp [Mark.spoken]⟩
  | double c =>
      rw [take, expandable, separate_of_not_due hdue]
      exact ⟨hdue, by simp [Mark.spoken]⟩
  | value c =>
      rw [take, raw, separate_of_not_due hdue]
      exact ⟨hdue, by simp [Mark.spoken, flush, expanded]⟩
  | literal s =>
      rw [take, raw, separate_of_not_due hdue]
      exact ⟨hdue, by simp [Mark.spoken, flush, expanded]⟩

/-- The space between two words separates a word from what is printed before it. -/
theorem separate_of_due (lookup : Lookup) {line : EchoLine} (hdue : line.spaceDue = true)
    (hpending : line.pending = "") (word : Text) :
    (line.separate lookup).spaceDue = false ∧ (line.separate lookup).pending = ""
      ∧ (line.separate lookup).written.toList ++ word = printed line.written.toList word := by
  rw [separate, if_pos hdue, flush_of_empty hpending]
  refine ⟨rfl, hpending, ?_⟩
  rw [printed]
  by_cases hempty : line.written = ""
  · simp [hempty]
  · have hstring : line.written.isEmpty = false :=
      Bool.eq_false_iff.mpr fun h => hempty (String.isEmpty_iff.mp h)
    have hlist : line.written.toList.isEmpty = false :=
      Bool.eq_false_iff.mpr fun h => hempty (String.toList_eq_nil_iff.mp (List.isEmpty_iff.mp h))
    simp only [hstring, hlist, Bool.false_eq_true, if_false, String.toList_push, List.append_assoc,
      List.singleton_append]

theorem take_separate {lookup : Lookup} {line : EchoLine} {m : Mark} (hm : m.endsWord = false) :
    (line.separate lookup).take lookup m = line.take lookup m := by
  have hdue : (line.separate lookup).spaceDue = false := by
    rw [separate]
    split
    · rfl
    · rename_i hdue
      exact Bool.eq_false_iff.mpr hdue
  cases m with
  | blank => cases hm
  | opening => exact separate_of_not_due hdue
  | bare c | double c => rw [take, take, expandable, separate_of_not_due hdue]; rfl
  | value c | literal s => rw [take, take, raw, separate_of_not_due hdue]; rfl

/-- **What is printed are the words of what is read**, one after the other. -/
theorem shown_foldl_take (lookup : Lookup) (marks : List Mark) :
    (∀ line : EchoLine, line.spaceDue = false →
      (marks.foldl (take lookup) line).shown lookup
        = ((Mark.words (Mark.behindWord marks)).map (Mark.spoken lookup [])).foldl printed
            (line.written.toList
              ++ Mark.spoken lookup line.pending.toList (Mark.restOfWord marks)))
    ∧ ∀ line : EchoLine, line.spaceDue = true → line.pending = "" →
      (marks.foldl (take lookup) line).shown lookup
        = ((Mark.words marks).map (Mark.spoken lookup [])).foldl printed line.written.toList := by
  -- a mark may end the word that is under way or begin the next one, so both states are carried
  induction marks with
  | nil =>
      constructor
      · intro line hdue
        exact shown_eq lookup line
      · intro line hdue hpending
        rw [List.foldl_nil, shown, flush_of_empty hpending]
        rfl
  | cons m marks ih =>
      obtain ⟨hinside, hbetween⟩ := ih
      cases hm : m.endsWord with
      | true =>
          have hblank : m = .blank := eq_of_beq hm
          subst hblank
          constructor
          · intro line hdue
            have h := hbetween (line.endWord lookup) rfl rfl
            have hwritten : (line.endWord lookup).written.toList = line.shown lookup := rfl
            rw [hwritten, shown_eq lookup line] at h
            rw [List.foldl_cons]
            exact h
          · intro line hdue hpending
            have hsame : line.endWord lookup = line := by
              rw [endWord, flush_of_empty hpending, ← hdue]
            rw [List.foldl_cons, take, hsame, Mark.words_cons_blank]
            exact hbetween line hdue hpending
      | false =>
          have hunder : ∀ line : EchoLine, line.spaceDue = false →
              ((m :: marks).foldl (take lookup) line).shown lookup
                = ((Mark.words (Mark.behindWord (m :: marks))).map
                    (Mark.spoken lookup [])).foldl printed
                    (line.written.toList
                      ++ Mark.spoken lookup line.pending.toList (Mark.restOfWord (m :: marks))) := by
            intro line hdue
            obtain ⟨hdue', hspoken⟩ := spoken_take lookup hdue hm (Mark.restOfWord marks)
            rw [List.foldl_cons, hinside _ hdue', hspoken, Mark.restOfWord_cons hm,
              Mark.behindWord_cons hm]
          -- between two words the space is written first, and the line is inside of a word then
          refine ⟨hunder, fun line hdue hpending => ?_⟩
          obtain ⟨hdue', hpending', hprinted⟩ := separate_of_due lookup hdue hpending
            (Mark.spoken lookup [] (m :: Mark.restOfWord marks))
          have h := hunder (line.separate lookup) hdue'
          rw [List.foldl_cons, take_separate hm, Mark.restOfWord_cons hm, Mark.behindWord_cons hm,
            hpending', String.toList_empty, hprinted] at h
          rw [List.foldl_cons, h, Mark.words_cons hm]
          rfl

end EchoLine

/-! ## Reading from the word `echo` on -/

theorem MarkReading.after_after (read : MarkReading) (a b : List Mark) :
    (read.after b).after a = read.after (a ++ b) := by
  cases read with
  | none => rfl
  | some found => exact congrArg (fun marks => some (marks, found.2)) (List.append_assoc ..).symm

theorem MarkReading.after_eq_some_iff {read : MarkReading} {before marks : List Mark}
    {quoting : Quoting} :
    read.after before = some (marks, quoting)
      ↔ ∃ more, read = some (more, quoting) ∧ marks = before ++ more := by
  cases read with
  | none => exact ⟨nofun, fun ⟨_, h, _⟩ => nomatch h⟩
  | some found =>
      obtain ⟨more, behind⟩ := found
      constructor
      · rintro ⟨⟩
        exact ⟨more, rfl, rfl⟩
      · rintro ⟨_, ⟨⟩, rfl⟩
        rfl

theorem MarkReading.after_nil (read : MarkReading) : read.after [] = read := by
  cases read <;> rfl

theorem readElements_append (lookup : Lookup) (quoting : Quoting) (es fs : List Element) :
    readElements lookup quoting (es ++ fs)
      = (readElements lookup quoting es).bind fun found =>
          (readElements lookup found.2 fs).after found.1 := by
  induction es generalizing quoting with
  | nil => exact (MarkReading.after_nil _).symm
  | cons e es ih =>
      rw [List.cons_append, readElements, readElements, Option.bind_assoc]
      congr 1
      funext found
      rw [ih]
      cases readElements lookup found.2 es with
      | none => rfl
      | some more => exact MarkReading.after_after _ _ _

theorem readText_blanks {blanks : Text} (h : ∀ c ∈ blanks, Text.isBlank c = true) (s : Text) :
    readText .bare (blanks ++ s)
      = (readText .bare s).after (List.replicate blanks.length .blank) := by
  induction blanks with
  | nil => exact (MarkReading.after_nil _).symm
  | cons c blanks ih =>
      obtain ⟨hc, hblanks⟩ := List.forall_mem_cons.mp h
      have hne : ∀ d, Text.isBlank d = false → c ≠ d := by
        rintro d hd rfl
        rw [hc] at hd
        cases hd
      rw [List.cons_append, readText.eq_def]
      simp only [if_neg (hne '\'' (by decide)), if_neg (hne '"' (by decide)),
        if_neg (hne '\\' (by decide)), if_pos hc]
      rw [ih hblanks, MarkReading.after_after]
      rfl

/-- The word `echo` as it is read. -/
def echoMarks : List Mark := [.bare 'e', .bare 'c', .bare 'h', .bare 'o']

theorem readText_echo (s : Text) :
    readText .bare ("echo".toList ++ s) = (readText .bare s).after echoMarks := by
  have hstep : ∀ c, c ≠ '\'' ∧ c ≠ '"' ∧ c ≠ '\\' ∧ Text.isBlank c = false → ∀ s : Text,
      readText .bare (c :: s) = (readText .bare s).after [.bare c] := by
    rintro c ⟨h₁, h₂, h₃, h₄⟩ s
    rw [readText.eq_def]
    simp only [if_neg h₁, if_neg h₂, if_neg h₃, h₄, Bool.false_eq_true, if_false]
  change readText .bare ('e' :: 'c' :: 'h' :: 'o' :: s) = _
  rw [hstep 'e' (by decide), hstep 'c' (by decide), hstep 'h' (by decide), hstep 'o' (by decide),
    MarkReading.after_after, MarkReading.after_after, MarkReading.after_after]
  rfl

/-- The word `echo` stands at the start of a line with arguments, between blanks. -/
theorem exists_of_echoArguments {s arguments : Text} (h : echoArguments? s = some arguments) :
    ∃ blanks gap, s = blanks ++ ("echo".toList ++ (gap ++ arguments))
      ∧ (∀ c ∈ blanks, Text.isBlank c = true) ∧ ∀ c ∈ gap, Text.isBlank c = true := by
  rw [echoArguments?] at h
  cases heat : Text.eat ['e', 'c', 'h', 'o'] (Text.trimStart s) with
  | none => simp only [heat] at h; cases h
  | some behind =>
      simp only [heat] at h
      by_cases hrun : (behind.head?.any fun c => !Text.isBlank c) = true
      · rw [if_pos hrun] at h; cases h
      · rw [if_neg hrun] at h
        split at h
        · cases h
        · cases h
          refine ⟨s.takeWhile Text.isBlank, behind.takeWhile Text.isBlank, ?_,
            List.all_eq_true.mp List.all_takeWhile, List.all_eq_true.mp List.all_takeWhile⟩
          have hecho : Text.trimStart s = "echo".toList ++ behind := Text.eat_eq_some_iff.mp heat
          rw [Text.trimStart, List.takeWhile_append_dropWhile, ← hecho, Text.trimStart,
            List.takeWhile_append_dropWhile]

/-- The whole line is read like its arguments, behind the word `echo`. -/
theorem readElements_echo {first : String} {arguments : Text}
    (h : echoArguments? first.toList = some arguments) (lookup : Lookup) (rest : List Element) :
    ∃ n gap, readElements lookup .bare (.text first :: rest)
        = (readElements lookup .bare (.text (String.ofList arguments) :: rest)).after
            (List.replicate n .blank ++ (echoMarks ++ List.replicate gap .blank)) := by
  obtain ⟨blanks, gap, hfirst, hblanks, hgap⟩ := exists_of_echoArguments h
  refine ⟨blanks.length, gap.length, ?_⟩
  rw [readElements, readElements, readElement, readElement, String.toList_ofList, hfirst,
    readText_blanks hblanks, readText_echo, readText_blanks hgap, MarkReading.after_after,
    MarkReading.after_after]
  cases readText .bare arguments with
  | none => rfl
  | some found =>
      simp only [MarkReading.after, Option.map_some, Option.bind_some, Option.map_map,
        Function.comp_def, List.append_assoc]

/-! ## What is printed -/

/-- A command that begins with the word `echo`, without options. -/
def Command.startsWithEcho (command : Command) : Bool :=
  match command.elements with
  | .text first :: _ => (echoArguments? first.toList).isSome
  | _ => false

theorem Command.echo_of_start {lookup : Lookup} {command : Command} {first : String}
    {rest : List Element} {arguments : Text} (hsilent : command.silent = true)
    (helements : command.elements = .text first :: rest)
    (harguments : echoArguments? first.toList = some arguments) :
    command.echo lookup
      = (readElements lookup .bare (.text (String.ofList arguments) :: rest)).bind fun found =>
          if found.1.any Mark.forShell = true ∨ found.2 ≠ .bare then none
          else some (String.ofList
            ((found.1.foldl (EchoLine.take lookup) {}).shown lookup)) := by
  obtain ⟨elements, silent, mayFail⟩ := command
  subst hsilent
  subst helements
  have hline := EchoLine.elements_eq_follow lookup {} (.text (String.ofList arguments) :: rest)
  rw [EchoLine.elements, EchoLine.element, String.toList_ofList] at hline
  rw [Command.echo]
  simp only [harguments, Option.bind_some]
  rw [← Option.bind_assoc, hline, EchoLine.follow, Option.bind_assoc]
  congr 1
  funext found
  obtain ⟨marks, quoting⟩ := found
  by_cases hshell : marks.any Mark.forShell = true
  · rw [if_pos hshell, if_pos (.inl hshell)]
    rfl
  · rw [if_neg hshell, Option.bind_some, EchoLine.finish]
    by_cases hquoting : quoting = .bare
    · rw [if_pos (by exact hquoting), if_neg (by rintro (h | h) <;> contradiction),
        EchoLine.shown, String.ofList_toList]
      rfl
    · rw [if_neg (by exact hquoting), if_pos (.inr hquoting)]

/-- **What is printed are the words that are read**, without those at the start that are empty. -/
theorem EchoLine.shown_line (lookup : Lookup) (marks : List Mark) :
    (marks.foldl (take lookup) {}).shown lookup
      = joined (((Mark.words marks).map (Mark.spoken lookup [])).dropWhile List.isEmpty) := by
  rw [(shown_foldl_take lookup marks).1 {} rfl, ← foldl_printed, Mark.words_eq marks]
  by_cases h : Mark.restOfWord marks = []
  · rw [if_pos h, h]
    change List.foldl printed (Text.expand lookup []) _ = _
    rw [Text.expand]
  · rw [if_neg h]
    rfl

/-- The word `echo`, and what stands directly behind it. -/
theorem Mark.words_echo (marks : List Mark) :
    words (echoMarks ++ marks) = (echoMarks ++ restOfWord marks) :: words (behindWord marks) := by
  change words (.bare 'e' :: .bare 'c' :: .bare 'h' :: .bare 'o' :: marks) = _
  rw [words_cons rfl, restOfWord_cons rfl, restOfWord_cons rfl, restOfWord_cons rfl,
    behindWord_cons rfl, behindWord_cons rfl, behindWord_cons rfl]
  rfl

/-- The words of a whole line are `echo`, with what runs on from it, and the others; what is printed
is what follows the four letters. -/
theorem Mark.words_line (lookup : Lookup) (n gap : Nat) (marks : List Mark) :
    ∃ ran args,
      (words (List.replicate n .blank ++ (echoMarks ++ List.replicate gap .blank) ++ marks)).map
          (spoken lookup []) = ("echo".toList ++ ran) :: args
        ∧ joined ((ran :: args).dropWhile List.isEmpty)
          = joined (((words marks).map (spoken lookup [])).dropWhile List.isEmpty) := by
  rw [List.append_assoc, words_blanks, List.append_assoc, words_echo]
  refine ⟨spoken lookup [] (restOfWord (List.replicate gap .blank ++ marks)),
    (words (behindWord (List.replicate gap .blank ++ marks))).map (spoken lookup []), ?_, ?_⟩
  · rw [List.map_cons]
    have hplain : '$' ∉ "echo".toList := by decide
    exact congrArg (· :: _) (spoken_of_plain hplain lookup [] _)
  · rw [← words_blanks gap marks, words_eq (_ ++ marks)]
    by_cases h : restOfWord (List.replicate gap .blank ++ marks) = []
    · rw [if_pos h, h]
      change joined ((Text.expand lookup [] :: _).dropWhile _) = _
      rw [Text.expand]
      rfl
    · rw [if_neg h]
      rfl

/-- The first word of a line that starts with `echo` is `echo`, with what runs on from it. -/
theorem Command.words_of_startsWithEcho {lookup : Lookup} {command : Command} {marks : List Mark}
    {quoting : Quoting} (h : command.startsWithEcho = true)
    (hread : readElements lookup .bare command.elements = some (marks, quoting)) :
    ∃ ran args, (Mark.words marks).map (Mark.spoken lookup [])
      = ("echo".toList ++ ran) :: args := by
  obtain ⟨elements, silent, mayFail⟩ := command
  rcases elements with _ | ⟨⟨first⟩ | _ | _ | _, rest⟩
  case cons.text =>
      obtain ⟨arguments, harguments⟩ := Option.isSome_iff_exists.mp h
      obtain ⟨n, gap, hline⟩ := readElements_echo harguments lookup rest
      obtain ⟨more, -, rfl⟩ := MarkReading.after_eq_some_iff.mp (hline.symm.trans hread)
      obtain ⟨ran, args, hwords, -⟩ := Mark.words_line lookup n gap more
      exact ⟨ran, args, hwords⟩
  all_goals cases h

/-- **THE BUILT-IN ECHO**: a line is printed if it is silent, starts with the word `echo`, closes
its quotes and has no mark for a shell. The words behind `echo` are printed, and what runs on from
it; empty ones at the start are left out. -/
theorem Command.echo_eq_some_iff {lookup : Lookup} {command : Command} {t : String} :
    command.echo lookup = some t ↔
      command.silent = true ∧ command.startsWithEcho = true
        ∧ ∃ marks, readElements lookup .bare command.elements = some (marks, .bare)
          ∧ marks.any Mark.forShell = false
          ∧ ∃ ran args, (Mark.words marks).map (Mark.spoken lookup [])
                = ("echo".toList ++ ran) :: args
            ∧ t = String.ofList (joined ((ran :: args).dropWhile List.isEmpty)) := by
  obtain ⟨elements, silent, mayFail⟩ := command
  cases silent with
  | false =>
      constructor
      · intro h
        cases h
      · intro h
        cases h.1
  | true =>
  rcases elements with _ | ⟨⟨first⟩ | _ | _ | _, rest⟩
  case cons.text =>
      cases harguments : echoArguments? first.toList with
      | none => simp [Command.echo, startsWithEcho, harguments]
      | some arguments =>
          have hstart : startsWithEcho ⟨.text first :: rest, true, mayFail⟩ = true :=
            Option.isSome_iff_exists.mpr ⟨arguments, harguments⟩
          have hnone : ∀ n gap, (List.replicate n Mark.blank ++ (echoMarks
              ++ List.replicate gap Mark.blank)).any Mark.forShell = false := by
            simp [echoMarks, Mark.forShell, EchoLine.shellCharacters]
          obtain ⟨n, gap, hread⟩ := readElements_echo harguments lookup rest
          rw [echo_of_start rfl rfl harguments]
          constructor
          · intro h
            obtain ⟨⟨marks, quoting⟩, hmarks, h⟩ := Option.bind_eq_some_iff.mp h
            split at h
            · cases h
            · rename_i hplain
              obtain ⟨hshell, hquoting⟩ := not_or.mp hplain
              cases Option.some.inj h
              obtain rfl : quoting = .bare := Decidable.not_not.mp hquoting
              refine ⟨rfl, hstart, _,
                hread.trans (MarkReading.after_eq_some_iff.mpr ⟨marks, hmarks, rfl⟩), ?_, ?_⟩
              · rw [List.any_append, hnone, Bool.eq_false_iff.mpr hshell]
                rfl
              · obtain ⟨ran, args, hwords, hjoined⟩ := Mark.words_line lookup n gap marks
                exact ⟨ran, args, hwords, by rw [hjoined, EchoLine.shown_line]⟩
          · rintro ⟨-, -, marks, hmarks, hshell, ran, args, hwords, rfl⟩
            obtain ⟨more, hmore, rfl⟩ :=
              MarkReading.after_eq_some_iff.mp (hread.symm.trans hmarks)
            rw [List.any_append, hnone, Bool.false_or] at hshell
            obtain ⟨ran', args', hwords', hjoined⟩ := Mark.words_line lookup n gap more
            obtain ⟨hran, rfl⟩ := List.cons.inj (hwords.symm.trans hwords')
            obtain rfl := List.append_cancel_left hran
            rw [hmore, Option.bind_some, if_neg (by simp [hshell]), EchoLine.shown_line, hjoined]
  all_goals
    constructor
    · intro h
      cases h
    · intro h
      cases h.2.1

end TaskRunner
