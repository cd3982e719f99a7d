import TaskRunner.Proofs.EchoValues
import TaskRunner.Proofs.LineCutting

/-! # Readings that are printed alike

    What a built-in echo prints depends on less than the marks of a line: whether one is for a
    shell, what its words are spoken as, and whether its quotes are closed (**`meaning`**,
    `Command.echo_congr`).  Marks in a row may be exchanged if both **stand for** the same text
    of their own (`Mark.StandsFor`): in any line the words are spoken alike
    (`StandsFor.words_eq`).

    A line is read piece by piece even where texts are joined (`readElements_joinTexts_append`).
    The one thing that could reach over the place where two texts meet is a backslash at the
    end of the first. -/

namespace TaskRunner

open Text

/-! ## What a reading means -/

/-- All that a built-in echo takes from a reading: whether there is a mark for a shell, the words as
they are spoken, and the quotes that are open behind it. -/
def MarkReading.meaning (lookup : Lookup) (read : MarkReading) :
    Option (Bool × List Text × Quoting) :=
  read.map fun found =>
    (found.1.any Mark.forShell, (Mark.words found.1).map (Mark.spoken lookup []), found.2)

theorem Command.echo_eq_some_iff_meaning {lookup : Lookup} {command : Command} {t : String} :
    command.echo lookup = some t ↔
      command.silent = true ∧ command.startsWithEcho = true ∧ ∃ ran args,
        (readElements lookup .bare command.elements).meaning lookup
            = some (false, ("echo".toList ++ ran) :: args, .bare)
          ∧ t = String.ofList (joined ((ran :: args).dropWhile List.isEmpty)) := by
  rw [echo_eq_some_iff]
  refine and_congr_right fun _ => and_congr_right fun _ => ⟨?_, ?_⟩
  · rintro ⟨marks, hread, hshell, ran, args, hwords, ht⟩
    refine ⟨ran, args, ?_, ht⟩
    rw [hread, MarkReading.meaning, Option.map_some, hshell, hwords]
  · rintro ⟨ran, args, hmeaning, ht⟩
    obtain ⟨⟨marks, quoting⟩, hread, heq⟩ := Option.map_eq_some_iff.mp hmeaning
    obtain ⟨hshell, hrest⟩ := Prod.mk.inj heq
    obtain ⟨hwords, rfl⟩ := Prod.mk.inj hrest
    exact ⟨marks, hread, hshell, ran, args, hwords, ht⟩

/-- **READINGS THAT MEAN THE SAME ARE PRINTED THE SAME WAY.** -/
theorem Command.echo_congr {lookup : Lookup} {command command' : Command}
    (hsilent : command.silent = command'.silent)
    (hstart : command.startsWithEcho = command'.startsWithEcho)
    (hmeaning : (readElements lookup .bare command.elements).meaning lookup
      = (readElements lookup .bare command'.elements).meaning lookup) :
    command.echo lookup = command'.echo lookup := by
  refine Option.ext fun t => ?_
  rw [echo_eq_some_iff_meaning, echo_eq_some_iff_meaning, hsilent, hstart, hmeaning]

namespace Mark

/-- Marks in a row that stand for a text of their own: they end no word, need no shell, and are
spoken as the text behind what waits in front of them. -/
structure StandsFor (lookup : Lookup) (run : List Mark) (text : Text) : Prop where
  inside : ∀ m ∈ run, m.endsWord = false
  nonempty : run ≠ []
  forShell : run.any forShell = false
  spoken : ∀ waiting rest, Mark.spoken lookup waiting (run ++ rest)
    = Text.expand lookup waiting ++ (text ++ Mark.spoken lookup [] rest)

theorem restOfWord_append {run : List Mark} (h : ∀ m ∈ run, m.endsWord = false)
    (marks : List Mark) : restOfWord (run ++ marks) = run ++ restOfWord marks :=
  List.takeWhile_append_of_pos fun m hm => by rw [h m hm]; rfl

theorem behindWord_append {run : List Mark} (h : ∀ m ∈ run, m.endsWord = false)
    (marks : List Mark) : behindWord (run ++ marks) = behindWord marks :=
  List.dropWhile_append_of_pos fun m hm => by rw [h m hm]; rfl

/-- A run of marks stands in the first word of what it begins. -/
theorem words_append {run : List Mark} (hne : run ≠ []) (h : ∀ m ∈ run, m.endsWord = false)
    (marks : List Mark) :
    words (run ++ marks) = (run ++ restOfWord marks) :: words (behindWord marks) := by
  rw [words_eq, restOfWord_append h, behindWord_append h,
    if_neg (List.append_ne_nil_of_left_ne_nil hne _)]

theorem spoken_cons_congr {lookup : Lookup} {marks marks' : List Mark}
    (h : ∀ waiting, spoken lookup waiting marks = spoken lookup waiting marks') (m : Mark)
    (waiting : Text) :
    spoken lookup waiting (m :: marks) = spoken lookup waiting (m :: marks') := by
  cases m with
  | blank | opening => exact h waiting
  | bare c | double c => exact h (waiting ++ [c])
  | value c | literal s => rw [spoken, spoken, h]

/-- **WHAT STANDS FOR ONE TEXT IS SPOKEN ALIKE** in any line. -/
theorem StandsFor.words_eq {lookup : Lookup} {run run' : List Mark} {text : Text}
    (h : StandsFor lookup run text) (h' : StandsFor lookup run' text) (before marks : List Mark) :
    (words (before ++ (run ++ marks))).map (Mark.spoken lookup [])
        = (words (before ++ (run' ++ marks))).map (Mark.spoken lookup [])
      ∧ (words (behindWord (before ++ (run ++ marks)))).map (Mark.spoken lookup [])
        = (words (behindWord (before ++ (run' ++ marks)))).map (Mark.spoken lookup [])
      ∧ ∀ waiting, Mark.spoken lookup waiting (restOfWord (before ++ (run ++ marks)))
        = Mark.spoken lookup waiting (restOfWord (before ++ (run' ++ marks))) := by
  -- the run is in the first word of what is left or behind it, so both are carried
  induction before with
  | nil =>
      have hfirst : ∀ waiting, Mark.spoken lookup waiting (run ++ restOfWord marks)
          = Mark.spoken lookup waiting (run' ++ restOfWord marks) :=
        fun waiting => (h.spoken waiting _).trans (h'.spoken waiting _).symm
      rw [List.nil_append, List.nil_append, words_append h.nonempty h.inside,
        words_append h'.nonempty h'.inside, behindWord_append h.inside,
        behindWord_append h'.inside, restOfWord_append h.inside, restOfWord_append h'.inside]
      exact ⟨by rw [List.map_cons, List.map_cons, hfirst], rfl, hfirst⟩
  | cons m before ih =>
      obtain ⟨hwords, hbehind, hrest⟩ := ih
      rw [List.cons_append, List.cons_append]
      cases hm : m.endsWord with
      | true =>
          obtain rfl : m = .blank := eq_of_beq hm
          rw [words_cons_blank, words_cons_blank]
          refine ⟨hwords, ?_, fun _ => rfl⟩
          change (words (.blank :: _)).map _ = (words (.blank :: _)).map _
          rw [words_cons_blank, words_cons_blank, hwords]
      | false =>
          have hfirst := spoken_cons_congr hrest m
          rw [words_cons hm, words_cons hm, behindWord_cons hm, behindWord_cons hm,
            restOfWord_cons hm, restOfWord_cons hm]
          exact ⟨by rw [List.map_cons, List.map_cons, hfirst, hbehind], hbehind, hfirst⟩

theorem standsFor_literal (v : Text) : StandsFor lookup [.literal v] v where
  inside := List.forall_mem_singleton.mpr rfl
  nonempty := List.cons_ne_nil _ _
  forShell := rfl
  spoken _ _ := rfl

/-- A value in quotes. -/
theorem standsFor_quoted (v : Text) : StandsFor lookup [.opening, .literal v] v where
  inside := List.forall_mem_cons.mpr ⟨rfl, List.forall_mem_singleton.mpr rfl⟩
  nonempty := List.cons_ne_nil _ _
  forShell := rfl
  spoken _ _ := rfl

/-- A value outside of quotes that needs none. -/
theorem standsFor_value {v : Text} (hne : v ≠ [])
    (hpattern : ∀ c ∈ EchoLine.patternCharacters, c ∉ v) :
    StandsFor lookup (v.map .value) v where
  inside := List.forall_mem_map.mpr fun _ _ => rfl
  nonempty := by simpa using hne
  forShell := by
    rw [List.any_map]
    refine List.any_eq_false.mpr fun c hc => ?_
    rw [Function.comp_apply, Mark.forShell, List.contains_iff_mem]
    exact fun hmem => hpattern c hmem hc
  spoken waiting rest := by
    have hverbatim : ∀ m ∈ v.map Mark.value, m.isVerbatim = true :=
      List.forall_mem_map.mpr fun _ _ => rfl
    have htext : (v.map Mark.value).flatMap text = v := by
      rw [List.flatMap_map]
      exact List.flatMap_singleton' v
    rw [spoken_of_verbatim (by simpa using hne) hverbatim, htext]

end Mark

theorem MarkReading.meaning_after {lookup : Lookup} {run run' : List Mark} {text : Text}
    (h : Mark.StandsFor lookup run text) (h' : Mark.StandsFor lookup run' text)
    (before : List Mark) (read : MarkReading) :
    ((read.after run).after before).meaning lookup
      = ((read.after run').after before).meaning lookup := by
  cases read with
  | none => rfl
  | some found =>
      obtain ⟨marks, quoting⟩ := found
      simp only [after, meaning, Option.map_some, List.any_append, h.forShell, h'.forShell,
        (h.words_eq h' before marks).1]

/-! ## Ordinary characters -/

namespace Text

theorem isBlank_of_isWordChar {c : Char} (h : isWordChar c = true) : isBlank c = false := by
  have hword : 48 ≤ c.toNat ∧ c.toNat ≤ 57 ∨ 65 ≤ c.toNat ∧ c.toNat ≤ 122 := by
    simp only [isWordChar, Char.isAlphanum, Char.isAlpha, Char.isUpper, Char.isLower, Char.isDigit,
      Bool.or_eq_true, Bool.and_eq_true, decide_eq_true_eq, beq_iff_eq, ge_iff_le,
      UInt32.le_iff_toNat_le] at h
    rcases h with ((⟨hlow, hhigh⟩ | ⟨hlow, hhigh⟩) | hdigit) | rfl
    · exact .inr ⟨hlow, hhigh.trans (by decide)⟩
    · exact .inr ⟨.trans (by decide) hlow, hhigh⟩
    · exact .inl hdigit
    · decide
  simp only [isBlank, blankRanges, List.any_cons, List.any_nil, Bool.or_false, Bool.or_eq_false_iff,
    Bool.and_eq_false_iff, decide_eq_false_iff_not]
  omega

/-- A character that stands for itself on a command line: no quote, no backslash, no blank, and none
for a shell. -/
def isOrdinary (c : Char) : Bool :=
  c != '\'' && c != '"' && c != '\\' && !isBlank c && !EchoLine.shellCharacters.contains c

theorem isOrdinary_of_isWordChar {c : Char} (h : isWordChar c = true) : isOrdinary c = true := by
  have hquotes : c ∉ ['\'', '"', '\\'] := not_mem_of_isWordChar h (by decide)
  have hshell : c ∉ EchoLine.shellCharacters := not_mem_of_isWordChar h (by decide)
  simp only [List.mem_cons, List.not_mem_nil, or_false, not_or] at hquotes
  simp [isOrdinary, hquotes, isBlank_of_isWordChar h, hshell]

end Text

/-- The mark of an ordinary character of a line. -/
def Quoting.mark (quoting : Quoting) (c : Char) : Mark :=
  if quoting = .bare then .bare c else .double c

theorem readText_ordinary {quoting : Quoting} (hquoting : quoting ≠ .single) {s : Text}
    (h : ∀ c ∈ s, isOrdinary c = true) :
    readText quoting s = some (s.map quoting.mark, quoting) := by
  induction s with
  | nil => rw [readText, List.map_nil]
  | cons c s ih =>
      obtain ⟨hc, hs⟩ := List.forall_mem_cons.mp h
      simp only [isOrdinary, Bool.and_eq_true, bne_iff_ne, ne_eq, Bool.not_eq_true'] at hc
      obtain ⟨⟨⟨⟨hsingle, hquote⟩, hescape⟩, hblank⟩, -⟩ := hc
      rw [readText.eq_def]
      cases quoting with
      | single => exact absurd rfl hquoting
      | double =>
          simp only [if_neg hquote, if_neg hescape, ih hs]
          rfl
      | bare =>
          simp only [if_neg hsingle, if_neg hquote, if_neg hescape, hblank, Bool.false_eq_true,
            if_false, ih hs]
          rfl

/-! ## Reading one text behind the other -/

/-- What is read behind a reading, inside the quotes that are open there. -/
def MarkReading.andThen (read : MarkReading) (next : Quoting → MarkReading) : MarkReading :=
  read.bind fun found => (next found.2).after found.1

namespace MarkReading

theorem after_andThen (marks : List Mark) (read : MarkReading) (next : Quoting → MarkReading) :
    (read.after marks).andThen next = (read.andThen next).after marks := by
  cases read with
  | none => rfl
  | some found => exact (after_after _ _ _).symm

theorem andThen_andThen (read : MarkReading) (next last : Quoting → MarkReading) :
    (read.andThen next).andThen last = read.andThen fun quoting => (next quoting).andThen last := by
  cases read with
  | none => rfl
  | some found => exact after_andThen _ _ _

theorem andThen_some (marks : List Mark) (quoting : Quoting) (next : Quoting → MarkReading) :
    andThen (some (marks, quoting)) next = (next quoting).after marks := rfl

end MarkReading

/-- A text is read like its two parts if the first one does not end with a backslash, which could
take the meaning from what follows. -/
theorem readText_append {s : Text} (h : s.getLast? ≠ some '\\') (quoting : Quoting) (t : Text) :
    readText quoting (s ++ t) = (readText quoting s).andThen (readText · t) := by
  have htail : ∀ {c : Char} {s : Text}, (c :: s).getLast? ≠ some '\\' →
      s.getLast? ≠ some '\\' := by
    intro c s h hs
    rw [List.getLast?_cons, hs] at h
    exact h rfl
  fun_induction readText quoting s with
  | case1 quoting => exact (MarkReading.after_nil _).symm
  | case5 | case11 => exact absurd rfl h
  | case2 rest ih | case4 rest ih =>
      rw [List.cons_append, readText.eq_def]
      simp only [if_true, ih (htail h)]
  | case3 c rest hc ih =>
      rw [List.cons_append, readText.eq_def]
      simp only [if_neg hc, ih (htail h), MarkReading.after_andThen]
  | case6 d rest hd hc ih =>
      rw [List.cons_append, List.cons_append, readText.eq_def]
      simp only [if_neg hc, if_true, if_pos hd, ih (htail (htail h)), MarkReading.after_andThen]
  | case7 d rest hd hc ih =>
      rw [List.cons_append, List.cons_append, readText.eq_def]
      simp only [if_neg hc, if_true, if_neg hd, ih (htail (htail h)), MarkReading.after_andThen]
  | case8 c rest hc hescape ih =>
      rw [List.cons_append, readText.eq_def]
      simp only [if_neg hc, if_neg hescape, ih (htail h), MarkReading.after_andThen]
  | case9 rest ih =>
      rw [List.cons_append, readText.eq_def]
      simp only [if_true, ih (htail h), MarkReading.after_andThen]
  | case10 rest hc ih =>
      rw [List.cons_append, readText.eq_def]
      simp only [if_neg hc, if_true, ih (htail h), MarkReading.after_andThen]
  | case12 d rest hsingle hquote ih =>
      rw [List.cons_append, List.cons_append, readText.eq_def]
      simp only [if_neg hsingle, if_neg hquote, if_true, ih (htail (htail h)),
        MarkReading.after_andThen]
  | case13 c rest hsingle hquote hescape hblank ih =>
      rw [List.cons_append, readText.eq_def]
      simp only [if_neg hsingle, if_neg hquote, if_neg hescape, if_pos hblank, ih (htail h),
        MarkReading.after_andThen]
  | case14 c rest hsingle hquote hescape hblank ih =>
      rw [List.cons_append, readText.eq_def]
      simp only [if_neg hsingle, if_neg hquote, if_neg hescape, if_neg hblank, ih (htail h),
        MarkReading.after_andThen]

theorem readElements_cons (lookup : Lookup) (quoting : Quoting) (e : Element)
    (es : List Element) :
    readElements lookup quoting (e :: es)
      = (readElement lookup quoting e).andThen (readElements lookup · es) := rfl

theorem readElements_ofText (lookup : Lookup) (quoting : Quoting) (s : Text)
    (es : List Element) :
    readElements lookup quoting (Element.ofText s :: es)
      = (readText quoting s).andThen (readElements lookup · es) := by
  rw [Element.ofText, readElements_cons, readElement, String.toList_ofList]

/-- A text is read in front of elements that it may be joined with. -/
theorem readElements_joinTexts_cons {s : Text} (h : s.getLast? ≠ some '\\') (lookup : Lookup)
    (quoting : Quoting) (es : List Element) :
    readElements lookup quoting (Element.joinTexts (Element.ofText s :: es))
      = (readText quoting s).andThen (readElements lookup · (Element.joinTexts es)) := by
  rw [Element.ofText, Element.joinTexts]
  split
  · rename_i more others hjoined
    rw [hjoined, readElements_cons, readElement, String.toList_append, String.toList_ofList,
      readText_append h, MarkReading.andThen_andThen]
    rfl
  · exact readElements_ofText lookup quoting s _

theorem readElements_joinTexts_nil (lookup : Lookup) (quoting : Quoting) (es : List Element) :
    readElements lookup quoting (Element.joinTexts (Element.ofText [] :: es))
      = readElements lookup quoting (Element.joinTexts es) := by
  rw [readElements_joinTexts_cons (by decide), readText, MarkReading.andThen_some,
    MarkReading.after_nil]

/-- The same with a text in front, which may take the one that is next to it. -/
theorem readElements_joinTexts_behind {es : List Element} {s w : Text} (h : Element.Spelled es w)
    (hlast : (s ++ w).getLast? ≠ some '\\') (lookup : Lookup) (quoting : Quoting)
    (fs : List Element) :
    readElements lookup quoting (Element.joinTexts (Element.ofText s :: (es ++ fs)))
      = (readElements lookup quoting (Element.joinTexts (Element.ofText s :: es))).andThen
          (readElements lookup · (Element.joinTexts fs)) := by
  induction h generalizing s quoting with
  | nil =>
      rw [List.append_nil] at hlast
      rw [List.nil_append, readElements_joinTexts_cons hlast, readElements_joinTexts_cons hlast,
        MarkReading.andThen_andThen]
      congr 1
      funext quoting
      exact (MarkReading.after_nil _).symm
  | @cons e es x w hspells hspelled ih =>
      have hbehind : w.getLast? ≠ some '\\' := by
        intro hw
        rw [List.getLast?_append, List.getLast?_append, hw] at hlast
        exact hlast rfl
      have htail : ∀ quoting, readElements lookup quoting (Element.joinTexts (es ++ fs))
          = (readElements lookup quoting (Element.joinTexts es)).andThen
              (readElements lookup · (Element.joinTexts fs)) := by
        intro quoting
        have hempty := ih (s := []) hbehind quoting
        rwa [readElements_joinTexts_nil, readElements_joinTexts_nil] at hempty
      cases hspells with
      | text value =>
          rw [← List.append_assoc] at hlast
          rw [List.cons_append, Element.text_eq_ofText, Element.joinTexts_ofText_ofText,
            Element.joinTexts_ofText_ofText]
          exact ih hlast quoting
      | «variable» name | backtick command | expression hparse =>
          change readElements lookup quoting (Element.ofText s :: _ :: Element.joinTexts (es ++ fs))
            = (readElements lookup quoting
                (Element.ofText s :: _ :: Element.joinTexts es)).andThen _
          simp only [readElements_cons, htail, MarkReading.andThen_andThen]

/-- **ELEMENTS ARE READ ONE BEHIND THE OTHER** even where texts are joined, if what stands in front
does not end with a backslash. -/
theorem readElements_joinTexts_append {es : List Element} {w : Text} (h : Element.Spelled es w)
    (hlast : w.getLast? ≠ some '\\') (lookup : Lookup) (quoting : Quoting) (fs : List Element) :
    readElements lookup quoting (Element.joinTexts (es ++ fs))
      = (readElements lookup quoting (Element.joinTexts es)).andThen
          (readElements lookup · (Element.joinTexts fs)) := by
  have hempty := readElements_joinTexts_behind (s := []) h hlast lookup quoting fs
  rwa [readElements_joinTexts_nil, readElements_joinTexts_nil] at hempty

/-! ## The word echo in front of a reference -/

/-- Whatever is put behind a text, it starts with the word `echo` if it did before, unless that is
put directly behind the word. -/
theorem isSome_echoArguments_append {s : Text} (hs : trimStart s ≠ "echo".toList) {c : Char}
    (hblank : isBlank c = false) (hecho : c ∉ ['e', 'c', 'h', 'o']) (hoption : c ≠ '-') (t : Text) :
    (echoArguments? (s ++ c :: t)).isSome = (echoArguments? s).isSome := by
  have htrim : ∀ s : Text, trimStart (s ++ c :: t) = trimStart s ++ c :: t :=
    fun s => dropWhile_stopped hblank s t
  rw [echoArguments?, echoArguments?, htrim]
  cases heat : eat ['e', 'c', 'h', 'o'] (trimStart s) with
  | none => rw [eat_stopped_of_none hecho heat]
  | some arguments =>
      rw [eat_append heat]
      dsimp only
      obtain ⟨d, arguments, rfl⟩ : ∃ d rest, arguments = d :: rest := by
        refine List.exists_cons_of_ne_nil ?_
        rintro rfl
        exact hs (eat_eq_some_iff.mp heat)
      have hdash : (trimStart (d :: arguments ++ c :: t)).head? = some '-'
          ↔ (trimStart (d :: arguments)).head? = some '-' := by
        rw [htrim]
        cases trimStart (d :: arguments) with
        | nil => simp [hoption]
        | cons e rest => rfl
      rw [List.cons_append, List.head?_cons, List.head?_cons, ← List.cons_append]
      split
      · rfl
      · simp only [hdash]
        split <;> rfl

namespace Command

/-- Whether a line starts with the word `echo` does not change with the elements at its end, if it
does not where there is only a text in front of them. -/
theorem startsWithEcho_append {es fs fs' : List Element} {s w : Text} (h : Element.Spelled es w)
    {silent mayFail : Bool}
    (hstart : startsWithEcho ⟨Element.joinTexts (Element.ofText (s ++ w) :: fs), silent, mayFail⟩
      = startsWithEcho ⟨Element.joinTexts (Element.ofText (s ++ w) :: fs'), silent, mayFail⟩) :
    startsWithEcho ⟨Element.joinTexts (Element.ofText s :: (es ++ fs)), silent, mayFail⟩
      = startsWithEcho ⟨Element.joinTexts (Element.ofText s :: (es ++ fs')), silent, mayFail⟩ := by
  induction h generalizing s with
  | nil =>
      rw [List.append_nil] at hstart
      exact hstart
  | cons hspells hspelled ih =>
      cases hspells with
      | text value =>
          rw [← List.append_assoc] at hstart
          rw [List.cons_append, List.cons_append, Element.text_eq_ofText,
            Element.joinTexts_ofText_ofText, Element.joinTexts_ofText_ofText]
          exact ih hstart
      | «variable» name | backtick command | expression hparse => rfl

theorem startsWithEcho_joinTexts_nil (es : List Element) (silent mayFail : Bool) :
    startsWithEcho ⟨Element.joinTexts (Element.ofText [] :: es), silent, mayFail⟩
      = startsWithEcho ⟨Element.joinTexts es, silent, mayFail⟩ := by
  rw [Element.ofText, Element.joinTexts, String.ofList_nil]
  rcases Element.joinTexts es with _ | ⟨⟨value⟩ | _ | _ | _, rest⟩
  case cons.text =>
      dsimp only
      rw [String.empty_append]
  all_goals rfl

/-- **WHETHER A LINE IS AN ECHO** does not change if a reference becomes a text, unless it stands
directly behind the word `echo`. -/
theorem startsWithEcho_exchange {es : List Element} {w : Text} (h : Element.Spelled es w)
    (hw : trimStart w ≠ "echo".toList) {c : Char} (hblank : isBlank c = false)
    (hecho : c ∉ ['e', 'c', 'h', 'o']) (hoption : c ≠ '-') (s : Text) (name : String)
    (fs fs' : List Element) (silent mayFail : Bool) :
    startsWithEcho ⟨Element.joinTexts (es ++ .variable name :: fs), silent, mayFail⟩
      = startsWithEcho
        ⟨Element.joinTexts (es ++ Element.ofText (c :: s) :: fs'), silent, mayFail⟩ := by
  obtain ⟨text, rest, hjoined, more, htext⟩ := Element.exists_joinTexts_ofText (w ++ c :: s) fs'
  have hfirst : (echoArguments? text.toList).isSome = (echoArguments? w).isSome := by
    rw [← htext, List.append_assoc, List.cons_append]
    exact isSome_echoArguments_append hw hblank hecho hoption _
  have hstart : startsWithEcho
        ⟨Element.joinTexts (Element.ofText w :: .variable name :: fs), silent, mayFail⟩
      = startsWithEcho
        ⟨Element.joinTexts (Element.ofText w :: Element.ofText (c :: s) :: fs'), silent,
          mayFail⟩ := by
    rw [Element.joinTexts_ofText_ofText, hjoined]
    change (echoArguments? (String.ofList w).toList).isSome = (echoArguments? text.toList).isSome
    rw [String.toList_ofList, hfirst]
  have hline := startsWithEcho_append (s := []) h hstart
  rwa [startsWithEcho_joinTexts_nil, startsWithEcho_joinTexts_nil] at hline

end Command

end TaskRunner
