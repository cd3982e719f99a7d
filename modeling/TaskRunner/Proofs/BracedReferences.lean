import TaskRunner.Proofs.EchoExchange
import TaskRunner.Proofs.ReferenceExpansion

/-! # References in braces on a command line

    A command line knows one way to write a reference, a dollar sign and a word.  With braces
    around the word it is plain text, which is only expanded when a built-in echo prints it.
    Nothing in front of such a text and nothing behind it changes what it is expanded to
    (`Text.expand_bracedReference`), so it **stands for the value as a whole**
    (`Mark.standsFor_bracedReference`), just as a value inside of double quotes does.  A value
    outside of quotes is cut at its blanks instead, and left to a shell if it has pattern
    characters.

    Therefore **a reference in braces is printed as one in double quotes**
    (`Command.braced_reference_is_quoted`), wherever it stands outside of single quotes.
    Whether there are braces or not makes no difference inside of double quotes, and outside
    of them only for values that double quotes make a difference for. -/

namespace TaskRunner

open Text

/-! ## References in braces -/

namespace Text

/-- Dollar, braces and name are no characters that the shell would look at first. -/
theorem isOrdinary_of_mem_bracedReference {name : Text} (h : IsWord name) :
    ∀ c ∈ bracedReference name, isOrdinary c = true := by
  intro c hc
  simp only [bracedReference, List.mem_cons, List.mem_append, List.not_mem_nil, or_false] at hc
  rcases hc with rfl | rfl | hc | rfl
  · decide
  · decide
  · exact isOrdinary_of_isWordChar (h.2 c hc)
  · decide

/-- A reference does not go on with a dollar sign. -/
theorem reference?_append_dollar (s t : Text) :
    reference? (s ++ '$' :: t)
      = (reference? s).map fun found => (found.1, found.2 ++ '$' :: t) := by
  have hword : isWordChar '$' = false := by decide
  cases s with
  | nil => rfl
  | cons c s =>
      rw [List.cons_append, reference?, reference?, ← List.cons_append, takeWhile_stopped hword,
        dropWhile_stopped hword, takeWhile_stopped hword, dropWhile_stopped hword]
      split
      · rfl
      · split
        · cases hdrop : s.dropWhile isWordChar with
          | nil => rfl
          | cons d after =>
              by_cases hd : d = '}'
              · subst hd
                simp only [List.cons_append]
                split <;> rfl
              · simp [hd]
        · rfl

/-- Texts are expanded apart from each other where the second one begins with a dollar sign. -/
theorem expand_append_dollar (lookup : Lookup) (s t : Text) :
    expand lookup (s ++ '$' :: t) = expand lookup s ++ expand lookup ('$' :: t) := by
  fun_induction expand lookup s with
  | case1 => rfl
  | case2 rest name after href _ ih =>
      have hmore := reference?_append_dollar rest t
      rw [href, Option.map_some] at hmore
      rw [List.cons_append, expand_of_reference hmore, ih, List.append_assoc]
  | case3 rest href ih =>
      have hmore := reference?_append_dollar rest t
      rw [href, Option.map_none] at hmore
      rw [List.cons_append, expand_of_no_reference hmore, ih]
      rfl
  | case4 c rest hc ih =>
      rw [List.cons_append, expand, if_neg hc, ih]
      rfl

/-- A name in braces is a reference up to the closing brace. -/
theorem reference?_braces {name : Text} (h : IsWord name) (t : Text) :
    reference? ('{' :: (name ++ '}' :: t)) = some (name, t) := by
  have hends : EndsWord ('}' :: t) := endsWord_cons (by decide) t
  rw [reference?, if_neg (by decide), if_pos rfl, dropWhile_word h hends, takeWhile_word h hends]
  exact if_neg h.not_isEmpty

/-- A reference in braces stands for its value, whatever stands around it. -/
theorem expand_bracedReference {name : Text} (h : IsWord name) (lookup : Lookup) (s t : Text) :
    expand lookup (s ++ (bracedReference name ++ t))
      = expand lookup s ++ (((lookup (String.ofList name)).getD "").toList ++ expand lookup t) := by
  have hreference : bracedReference name ++ t = '$' :: '{' :: (name ++ '}' :: t) := by
    simp [bracedReference]
  rw [hreference, expand_append_dollar, expand_of_reference (reference?_braces h t)]

end Text

namespace Mark

/-- Ordinary characters of a line wait to be expanded. -/
theorem spoken_ordinary (lookup : Lookup) (quoting : Quoting) (s waiting : Text)
    (rest : List Mark) :
    spoken lookup waiting (s.map quoting.mark ++ rest) = spoken lookup (waiting ++ s) rest := by
  induction s generalizing waiting with
  | nil => rw [List.map_nil, List.nil_append, List.append_nil]
  | cons c s ih =>
      have hstep : spoken lookup waiting (quoting.mark c :: (s.map quoting.mark ++ rest))
          = spoken lookup (waiting ++ [c]) (s.map quoting.mark ++ rest) := by
        cases quoting <;> rfl
      rw [List.map_cons, List.cons_append, hstep, ih, List.append_assoc, List.singleton_append]

/-- A reference in braces, outside of quotes or inside double ones. -/
theorem standsFor_bracedReference {name : Text} (h : IsWord name) (lookup : Lookup)
    (quoting : Quoting) :
    StandsFor lookup ((bracedReference name).map quoting.mark)
      ((lookup (String.ofList name)).getD "").toList where
  inside := List.forall_mem_map.mpr fun c _ => by cases quoting <;> rfl
  nonempty := by simp [bracedReference]
  forShell := by
    rw [List.any_map]
    refine List.any_eq_false.mpr fun c hc => ?_
    have hordinary := isOrdinary_of_mem_bracedReference h c hc
    simp only [isOrdinary, Bool.and_eq_true, Bool.not_eq_true'] at hordinary
    cases quoting with
    | bare =>
        change ¬ EchoLine.shellCharacters.contains c = true
        rw [hordinary.2]
        exact Bool.false_ne_true
    | single | double => exact Bool.false_ne_true
  spoken waiting rest := by
    have hexpand : ∀ more, expand lookup (waiting ++ bracedReference name ++ more)
        = expand lookup waiting ++ ((lookup (String.ofList name)).getD "").toList
          ++ expand lookup more := by
      intro more
      rw [List.append_assoc, expand_bracedReference h, List.append_assoc]
    have hspoken := spoken_append hexpand [] rest
    rw [List.append_nil] at hspoken
    rw [spoken_ordinary, hspoken, List.append_assoc]

end Mark

namespace Command

/-! ## How references are read -/

/-- A plain reference is read as its value, split and quoted as the place has it. -/
theorem read_plain (lookup : Lookup) {quoting : Quoting} (hquoting : quoting ≠ .single)
    (name : String) (fs : List Element) :
    readElements lookup quoting (Element.joinTexts (.variable name :: fs))
      = (readElements lookup quoting (Element.joinTexts fs)).after
          (readValue quoting ((lookup name).getD "")) := by
  change readElements lookup quoting (.variable name :: Element.joinTexts fs) = _
  rw [readElements_cons, readElement, if_neg hquoting, MarkReading.andThen_some]

/-- A braced one is read character by character, and expanded later. -/
theorem read_braced (lookup : Lookup) {quoting : Quoting} (hquoting : quoting ≠ .single)
    {name : Text} (hname : IsWord name) (fs : List Element) :
    readElements lookup quoting
        (Element.joinTexts (Element.ofText (bracedReference name) :: fs))
      = (readElements lookup quoting (Element.joinTexts fs)).after
          ((bracedReference name).map quoting.mark) := by
  have hlast : (bracedReference name).getLast? ≠ some '\\' := by
    simp [bracedReference, List.getLast?_cons]
  rw [readElements_joinTexts_cons hlast,
    readText_ordinary hquoting (isOrdinary_of_mem_bracedReference hname),
    MarkReading.andThen_some]

/-- One in quotes is read as its value in one piece. -/
theorem read_quoted (lookup : Lookup) (name : String) (fs : List Element) :
    readElements lookup .bare
        (Element.joinTexts (Element.ofText ['"'] :: .variable name :: Element.ofText ['"'] :: fs))
      = (readElements lookup .bare (Element.joinTexts fs)).after
          [.opening, .literal ((lookup name).getD "").toList] := by
  have hopens : readText .bare ['"'] = some ([.opening], .double) := by decide
  have hcloses : readText .double ['"'] = some ([], .bare) := by decide
  have hlast : (['"'] : Text).getLast? ≠ some '\\' := by decide
  rw [readElements_joinTexts_cons hlast, hopens, MarkReading.andThen_some,
    read_plain lookup (by decide), readElements_joinTexts_cons hlast, hcloses,
    MarkReading.andThen_some, MarkReading.after_nil, MarkReading.after_after]
  rfl

/-- A value without blanks is read as its characters. -/
theorem readValue_bare {v : String} (hblank : ∀ c ∈ v.toList, isBlank c = false) :
    readValue .bare v = v.toList.map .value := by
  rw [readValue, if_pos rfl]
  exact List.map_congr_left fun c hc => by rw [Mark.ofValue, if_neg (by rw [hblank c hc]; decide)]

/-! ## The command of a line -/

/-- A command that is silent has a mark that says so. -/
theorem Marks.ne_nil {mayFail : Bool} {marks : Text} (h : Marks true mayFail marks) :
    marks ≠ [] := by
  cases h with
  | silent _ _ => simp
  | mayFail _ _ => simp

/-- Marks begin no comment. -/
theorem Marks.head_ne {silent mayFail : Bool} {marks : Text} (h : Marks silent mayFail marks) :
    marks.head? ≠ some '#' := by
  induction h with
  | none => exact nofun
  | @silent mayFail marks blanks _ _ ih =>
      cases marks with
      | nil => exact fun h => absurd (Option.some.inj h) (by decide)
      | cons c marks => exact ih
  | @mayFail silent marks blanks _ _ ih =>
      cases marks with
      | nil => exact fun h => absurd (Option.some.inj h) (by decide)
      | cons c marks => exact ih

/-- Blanks are trimmed behind the last other character only. -/
theorem trimEnd_append {c : Char} (hc : isBlank c = false) (s t : Text) :
    trimEnd (s ++ c :: t) = s ++ c :: trimEnd t := by
  rw [trimEnd, List.reverse_append, List.reverse_cons, List.append_assoc, List.singleton_append,
    dropWhile_stopped hc, List.reverse_append, List.reverse_cons, List.reverse_reverse,
    List.append_assoc, trimEnd]
  rfl

/-- What is left begins as the text did. -/
theorem head?_of_trimEnd {s : Text} {c : Char} (h : (trimEnd s).head? = some c) :
    s.head? = some c := by
  obtain ⟨t, ht⟩ := isPrefix_trimEnd s
  rw [← ht, List.head?_append, h]
  rfl

/-- A text that begins neither with a blank nor with a modifier and does not end with a blank, so
that nothing of it is taken away at the start or the end of a line. -/
structure Firm (x : Text) : Prop where
  nonempty : x ≠ []
  head : ∀ c ∈ x.head?, isBlank c = false ∧ c ≠ '@' ∧ c ≠ '-'
  last : ∀ c ∈ x.getLast?, isBlank c = false

/-- In a line a firm text keeps what stands between the blanks and itself. -/
theorem trim_line {x : Text} (hx : Firm x) (front behind : Text) :
    trim (front ++ (x ++ behind)) = trimStart front ++ (x ++ trimEnd behind) := by
  obtain ⟨c, rest, hc⟩ := List.exists_cons_of_ne_nil hx.nonempty
  have hstart : trimStart (front ++ (x ++ behind)) = trimStart front ++ (x ++ behind) := by
    rw [hc, List.cons_append]
    exact dropWhile_stopped (hx.head c (by rw [hc]; rfl)).1 front _
  obtain ⟨inside, d, hd⟩ : ∃ inside d, x = inside ++ [d] :=
    ⟨_, _, (List.dropLast_append_getLast hx.nonempty).symm⟩
  have hblank : isBlank d = false := hx.last d (by rw [hd]; exact List.getLast?_concat)
  rw [trim, hstart, hd, List.append_assoc, List.singleton_append, ← List.append_assoc,
    trimEnd_append hblank]
  simp only [List.append_assoc, List.singleton_append]

/-- Marks are read in front of the text, which may go on. -/
theorem Behind.append {line rest x : Text} {silent mayFail : Bool}
    (h : Behind line silent mayFail rest) (hx : Firm x) (behind : Text) :
    Behind (line ++ (x ++ behind)) silent mayFail (rest ++ (x ++ behind)) := by
  obtain ⟨⟨marks, hmarks, rfl⟩, hends⟩ := h
  refine ⟨⟨marks, hmarks, List.append_assoc ..⟩, ?_⟩
  obtain ⟨c, x, rfl⟩ := List.exists_cons_of_ne_nil hx.nonempty
  obtain ⟨hblank, hat, hhyphen⟩ := hx.head c rfl
  cases rest with
  | nil =>
      refine ⟨head_cons hblank, fun h => ?_, fun h => ?_⟩
      · exact absurd (Option.some.inj h) hat
      · exact absurd (Option.some.inj h) hhyphen
  | cons d rest => exact ⟨hends.blank, hends.silent, hends.mayFail⟩

/-- The command of a line in which a text stands. -/
theorem parseBody_line {front behind before x : Text} {mayFail : Bool} (hx : Firm x)
    (h : Behind (trimStart front) true mayFail before)
    (hfeed : '\n' ∉ front ++ (x ++ behind)) :
    parseBody (front ++ (x ++ behind))
      = [⟨Element.parseLine (before ++ (x ++ trimEnd behind)), true, mayFail⟩] := by
  obtain ⟨marks, hmarks, hfront⟩ := h.marks
  have htrim := trim_line hx front behind
  have hcarries : Carries (front ++ (x ++ behind)) true mayFail
      (before ++ (x ++ trimEnd behind)) := by
    refine ⟨?_, ?_, ?_, ?_⟩
    · rw [htrim]
      exact List.append_ne_nil_of_right_ne_nil _ (List.append_ne_nil_of_left_ne_nil hx.nonempty _)
    · rw [htrim, hfront, List.append_assoc, List.head?_append_of_ne_nil _ hmarks.ne_nil]
      exact hmarks.head_ne
    · rw [htrim]
      exact h.append hx _
    · exact List.append_ne_nil_of_right_ne_nil _ (List.append_ne_nil_of_left_ne_nil hx.nonempty _)
  have hlines : lines (front ++ (x ++ behind)) = [front ++ (x ++ behind)] :=
    List.splitOn_eq_singleton hfeed
  rw [parseBody, hlines, List.filterMap_cons_some (ofLine?_of_carries hcarries), List.filterMap_nil]

/-- A text is firm if both its ends are. -/
theorem firm_of_ends {c d : Char} {x : Text} (hhead : isBlank c = false ∧ c ≠ '@' ∧ c ≠ '-')
    (hlast : isBlank d = false) : Firm (c :: (x ++ [d])) where
  nonempty := List.cons_ne_nil _ _
  head := by
    intro e he
    obtain rfl := Option.some.inj he
    exact hhead
  last := by
    intro e he
    rw [← List.cons_append, List.getLast?_concat] at he
    obtain rfl := Option.some.inj he
    exact hlast

/-- A reference is firm. -/
theorem firm_reference {name : Text} (h : IsWord name) : Firm ('$' :: name) := by
  have hname := List.dropLast_append_getLast h.1
  rw [← hname]
  exact firm_of_ends (by decide) (isBlank_of_isWordChar (h.2 _ (List.getLast_mem h.1)))

/-! ## References on a silent line -/

/-- A silent line refers to a name outside of braces and backticks: the line is cut in front of the
reference, and no backslash stands there. What stands around the reference are `front` and
`behind`, and `es` are the elements between the modifiers and the reference. -/
structure RefersTo (front name behind before : Text) (es : List Element) (mayFail : Bool) :
    Prop where
  word : IsWord name
  ends : EndsWord behind
  oneLine : '\n' ∉ front ++ behind
  marks : Behind (trimStart front) true mayFail before
  cut : Element.Cutting (before ++ '$' :: (name ++ trimEnd behind)) es
    ('$' :: (name ++ trimEnd behind))
  escape : front.getLast? ≠ some '\\'

/-- What the commands of a body print; `none` for those that are left to a shell. -/
def echoes (lookup : Lookup) (body : Text) : List (Option String) :=
  (parseBody body).map (echo lookup)

/-- A silent command with the elements `fs` behind those in front of a reference. -/
def filled (es fs : List Element) (mayFail : Bool) : Command :=
  ⟨Element.joinTexts (es ++ fs), true, mayFail⟩

/-- What joins alike makes the same command. -/
theorem filled_congr {fs fs' : List Element} (h : Element.joinTexts fs = Element.joinTexts fs')
    (es : List Element) (mayFail : Bool) : filled es fs mayFail = filled es fs' mayFail := by
  rw [filled, filled, Element.joinTexts_append_congr h]

namespace RefersTo

variable {front name behind before : Text} {es : List Element} {mayFail : Bool}

/-- The reference is not escaped. -/
theorem getLast?_before (h : RefersTo front name behind before es mayFail) :
    before.getLast? ≠ some '\\' := by
  intro hlast
  refine h.escape ?_
  obtain ⟨marks, -, hfront⟩ := h.marks.marks
  have hline : front = front.takeWhile isBlank ++ marks ++ before := by
    rw [List.append_assoc, ← hfront, trimStart, List.takeWhile_append_dropWhile]
  rw [hline, List.getLast?_append, hlast]
  rfl

/-- The elements before it spell the text before it. -/
theorem spelled (h : RefersTo front name behind before es mayFail) :
    Element.Spelled es before :=
  h.cut.spelled

/-- Its name ends there as well when the blanks behind are taken away. -/
theorem endsWord_trimEnd (h : RefersTo front name behind before es mayFail) :
    EndsWord (trimEnd behind) :=
  fun c hc => h.ends c (head?_of_trimEnd hc)

/-- **WHAT IS PRINTED OF THE LINE** with another text in place of the reference. -/
theorem echoes_exchange (h : RefersTo front name behind before es mayFail) {x : Text}
    (hx : Firm x) (hfeed : '\n' ∉ x)
    (hexchange : Element.Exchangeable before ('$' :: (name ++ trimEnd behind))
      (x ++ trimEnd behind)) (lookup : Lookup) :
    echoes lookup (front ++ (x ++ behind))
      = [echo lookup (filled es (Element.pieces (x ++ trimEnd behind)) mayFail)] := by
  have hline : '\n' ∉ front ++ (x ++ behind) := by
    have hone := h.oneLine
    simp only [List.mem_append, not_or] at hone ⊢
    exact ⟨hone.1, hfeed, hone.2⟩
  rw [echoes, parseBody_line hx h.marks hline, Element.parseLine, h.cut.exchange hexchange]
  rfl

/-- The line is one command, and the reference is an element of it. -/
theorem echoes_plain (h : RefersTo front name behind before es mayFail) (lookup : Lookup) :
    echoes lookup (front ++ ('$' :: name ++ behind))
      = [echo lookup (filled es (.variable (String.ofList name)
          :: Element.pieces (trimEnd behind)) mayFail)] := by
  have hsame : Element.Exchangeable before ('$' :: (name ++ trimEnd behind))
      ('$' :: name ++ trimEnd behind) :=
    ⟨endsWord_cons (by decide) _, nofun, id, fun _ _ => id⟩
  have hfeed : '\n' ∉ '$' :: name := by
    simpa using h.word.not_mem (c := '\n') (by decide)
  rw [h.echoes_exchange (firm_reference h.word) hfeed hsame, List.cons_append,
    Element.pieces_reference h.word h.endsWord_trimEnd]

/-- With braces it is a text element, which the shell or the echo expands. -/
theorem echoes_braced (h : RefersTo front name behind before es mayFail)
    (hbraces : behind.head? = some '}' → ¬ OpensBraces before) (lookup : Lookup) :
    echoes lookup (front ++ (bracedReference name ++ behind))
      = [echo lookup (filled es (Element.ofText (bracedReference name)
          :: Element.pieces (trimEnd behind)) mayFail)] := by
  have hfeed : '\n' ∉ bracedReference name := by
    simpa [bracedReference] using h.word.not_mem (c := '\n') (by decide)
  have hends : (trimEnd behind).head? = some '}' → ¬ OpensBraces before :=
    fun hhead => hbraces (head?_of_trimEnd hhead)
  have hfirm : Firm (bracedReference name) :=
    firm_of_ends (x := '{' :: name) (by decide) (by decide)
  rw [h.echoes_exchange hfirm hfeed (Element.exchangeable_bracedReference h.word hends),
    filled_congr (Element.joinTexts_bracedReference h.word _)]

/-- In quotes it is an element between two marks. -/
theorem echoes_quoted (h : RefersTo front name behind before es mayFail) (lookup : Lookup) :
    echoes lookup (front ++ (quotedReference name ++ behind))
      = [echo lookup (filled es (Element.ofText ['"'] :: .variable (String.ofList name)
          :: Element.ofText ['"'] :: Element.pieces (trimEnd behind)) mayFail)] := by
  have hfeed : '\n' ∉ quotedReference name := by
    simpa [quotedReference] using h.word.not_mem (c := '\n') (by decide)
  have hfirm : Firm (quotedReference name) :=
    firm_of_ends (x := '$' :: name) (by decide) (by decide)
  rw [h.echoes_exchange hfirm hfeed (Element.exchangeable_quotedReference h.word),
    filled_congr (Element.joinTexts_quotedReference h.word _)]

/-- **A LINE IS PRINTED THE SAME WAY** with elements that stand for the same text at one place. -/
theorem echo_filled (h : RefersTo front name behind before es mayFail) {lookup : Lookup}
    {marks run run' : List Mark} {quoting : Quoting} {text : Text} {read : MarkReading}
    {fs fs' : List Element}
    (hstart : startsWithEcho (filled es fs mayFail) = startsWithEcho (filled es fs' mayFail))
    (hread : readElements lookup .bare (Element.joinTexts es) = some (marks, quoting))
    (hfs : readElements lookup quoting (Element.joinTexts fs) = read.after run)
    (hfs' : readElements lookup quoting (Element.joinTexts fs') = read.after run')
    (hrun : Mark.StandsFor lookup run text) (hrun' : Mark.StandsFor lookup run' text) :
    echo lookup (filled es fs mayFail) = echo lookup (filled es fs' mayFail) := by
  refine echo_congr rfl hstart ?_
  rw [filled, filled, readElements_joinTexts_append h.spelled h.getLast?_before,
    readElements_joinTexts_append h.spelled h.getLast?_before, hread, MarkReading.andThen_some,
    MarkReading.andThen_some, hfs, hfs']
  exact MarkReading.meaning_after hrun hrun' marks read

/-- Where the elements before it cannot be echoed, nothing can. -/
theorem echo_filled_of_none (h : RefersTo front name behind before es mayFail) {lookup : Lookup}
    (hread : readElements lookup .bare (Element.joinTexts es) = none) (fs : List Element) :
    echo lookup (filled es fs mayFail) = none := by
  refine Option.eq_none_iff_forall_ne_some.mpr fun t ht => ?_
  obtain ⟨-, -, marks, hmarks, -⟩ := echo_eq_some_iff.mp ht
  rw [filled, readElements_joinTexts_append h.spelled h.getLast?_before, hread] at hmarks
  cases hmarks

/-! ## References in each other's place -/

/-- Whether the command is an echo is decided by what stands before. -/
theorem startsWithEcho_filled (h : RefersTo front name behind before es mayFail)
    (hbefore : before ≠ "echo".toList) {c : Char} (hblank : isBlank c = false)
    (hecho : c ∉ ['e', 'c', 'h', 'o']) (hoption : c ≠ '-') (s : Text) (fs fs' : List Element) :
    startsWithEcho (filled es (.variable (String.ofList name) :: fs) mayFail)
      = startsWithEcho (filled es (Element.ofText (c :: s) :: fs') mayFail) := by
  have hbegin : trimStart before = before := by
    have htrim : trimStart ([] ++ before) = before := trimStart_blanks nofun h.marks.ends.blank
    rwa [List.nil_append] at htrim
  exact startsWithEcho_exchange h.spelled (hbegin.symm ▸ hbefore) hblank hecho hoption _ _ _ _ _ _

variable {lookup : Lookup} {marks : List Mark}

/-- Inside of double quotes braces make no difference. -/
theorem echo_inside_quotes (h : RefersTo front name behind before es mayFail)
    (hecho : before ≠ "echo".toList)
    (hread : readElements lookup .bare (Element.joinTexts es) = some (marks, .double))
    (fs : List Element) :
    echo lookup (filled es (Element.ofText (bracedReference name) :: fs) mayFail)
      = echo lookup (filled es (.variable (String.ofList name) :: fs) mayFail) := by
  have hstart := h.startsWithEcho_filled hecho (c := '$') (by decide) (by decide) (by decide)
    ('{' :: (name ++ ['}'])) fs fs
  exact h.echo_filled hstart.symm hread (read_braced lookup (by decide) h.word fs)
    (read_plain lookup (by decide) _ fs) (Mark.standsFor_bracedReference h.word lookup .double)
    (Mark.standsFor_literal _)

/-- Outside of quotes braces do what double quotes do. -/
theorem echo_outside_quotes (h : RefersTo front name behind before es mayFail)
    (hecho : before ≠ "echo".toList)
    (hread : readElements lookup .bare (Element.joinTexts es) = some (marks, .bare))
    (fs : List Element) :
    echo lookup (filled es (Element.ofText (bracedReference name) :: fs) mayFail)
      = echo lookup (filled es (Element.ofText ['"'] :: .variable (String.ofList name)
          :: Element.ofText ['"'] :: fs) mayFail) := by
  have hstart := h.startsWithEcho_filled hecho (c := '$') (by decide) (by decide) (by decide)
    ('{' :: (name ++ ['}'])) fs fs
  have hquoted := h.startsWithEcho_filled hecho (c := '"') (by decide) (by decide) (by decide)
    [] fs (.variable (String.ofList name) :: Element.ofText ['"'] :: fs)
  exact h.echo_filled (hstart.symm.trans hquoted) hread
    (read_braced lookup (by decide) h.word fs) (read_quoted lookup _ fs)
    (Mark.standsFor_bracedReference h.word lookup .bare) (Mark.standsFor_quoted _)

/-- A value that needs no quotes is printed as it is with braces and without. -/
theorem echo_of_plain_value (h : RefersTo front name behind before es mayFail)
    (hecho : before ≠ "echo".toList)
    (hread : readElements lookup .bare (Element.joinTexts es) = some (marks, .bare)) {v : String}
    (hv : lookup (String.ofList name) = some v) (hne : v ≠ "")
    (hplain : ∀ c ∈ v.toList, isBlank c = false ∧ c ∉ EchoLine.patternCharacters)
    (fs : List Element) :
    echo lookup (filled es (Element.ofText (bracedReference name) :: fs) mayFail)
      = echo lookup (filled es (.variable (String.ofList name) :: fs) mayFail) := by
  have hstart := h.startsWithEcho_filled hecho (c := '$') (by decide) (by decide) (by decide)
    ('{' :: (name ++ ['}'])) fs fs
  have hread' := read_plain lookup (by decide : Quoting.bare ≠ .single) (String.ofList name) fs
  have hbraced := Mark.standsFor_bracedReference h.word lookup .bare
  rw [hv, Option.getD_some] at hread' hbraced
  rw [readValue_bare fun c hc => (hplain c hc).1] at hread'
  have hvalue : Mark.StandsFor lookup (v.toList.map .value) v.toList :=
    Mark.standsFor_value (fun hnil => hne (String.toList_eq_nil_iff.mp hnil))
      fun c hc hmem => (hplain c hmem).2 hc
  exact h.echo_filled hstart.symm hread (read_braced lookup (by decide) h.word fs) hread' hbraced
    hvalue

end RefersTo

/-- **BRACES DO WHAT DOUBLE QUOTES DO**: with braces around its name a reference is printed as
before inside of double quotes, and outside of quotes as if it stood in double quotes, whatever
its value is. So outside of quotes braces make no difference for a value that is not empty and has
no blanks and no pattern characters. Directly behind the word `echo`, and where a brace behind the
reference would close two that are open, braces make another line. -/
theorem braced_reference_is_quoted {front name behind before : Text} {es : List Element}
    {mayFail : Bool} (h : RefersTo front name behind before es mayFail)
    (hecho : before ≠ "echo".toList) (hbraces : behind.head? = some '}' → ¬ OpensBraces before)
    (lookup : Lookup) {quotes : Option Quoting}
    (hquotes : (readElements lookup .bare (Element.joinTexts es)).map Prod.snd = quotes) :
    (quotes ≠ some .bare → quotes ≠ some .single →
      echoes lookup (front ++ (bracedReference name ++ behind))
        = echoes lookup (front ++ ('$' :: name ++ behind)))
    ∧ (quotes = some .bare →
      echoes lookup (front ++ (bracedReference name ++ behind))
        = echoes lookup (front ++ (quotedReference name ++ behind)))
    ∧ ∀ v, lookup (String.ofList name) = some v → v ≠ "" →
      (∀ c ∈ v.toList, isBlank c = false ∧ c ∉ EchoLine.patternCharacters) →
      quotes ≠ some .single →
        echoes lookup (front ++ (bracedReference name ++ behind))
          = echoes lookup (front ++ ('$' :: name ++ behind)) := by
  rw [h.echoes_plain, h.echoes_braced hbraces, h.echoes_quoted]
  subst hquotes
  cases hread : readElements lookup .bare (Element.joinTexts es) with
  | none =>
      rw [h.echo_filled_of_none hread, h.echo_filled_of_none hread]
      exact ⟨fun _ _ => rfl, nofun, fun _ _ _ _ _ => rfl⟩
  | some found =>
      obtain ⟨marks, quoting⟩ := found
      cases quoting with
      | single =>
          exact ⟨fun _ hsingle => absurd rfl hsingle, nofun, fun _ _ _ _ hsingle =>
            absurd rfl hsingle⟩
      | double =>
          rw [h.echo_inside_quotes hecho hread]
          exact ⟨fun _ _ => rfl, nofun, fun _ _ _ _ _ => rfl⟩
      | bare =>
          refine ⟨fun hbare => absurd rfl hbare, fun _ => ?_, fun v hv hne hplain _ => ?_⟩
          · rw [h.echo_outside_quotes hecho hread]
          · rw [h.echo_of_plain_value hecho hread hv hne hplain]

/-- A line that refers to a name outside of quotes: `@echo Hi $name!`. -/
theorem refersTo_greeting : RefersTo "@echo Hi ".toList "name".toList "!".toList
    "echo Hi ".toList [.text "echo Hi "] false where
  word := ⟨by decide, List.all_eq_true.mp (by decide)⟩
  ends := endsWord_cons (by decide) _
  oneLine := by decide
  marks := by
    refine ⟨⟨['@'], .silent .none nofun, by decide⟩, ?_, nofun, nofun⟩
    exact head_cons (by decide)
  cut := by
    have hnext : Element.next 'e' "cho Hi $name!".toList = (.text "echo Hi ", "$name!".toList) := by
      decide +kernel
    have hcut : Element.Cutting ('e' :: "cho Hi $name!".toList) _ _ := .piece (.here _)
    rw [hnext] at hcut
    exact hcut
  escape := by decide

/-- With braces two blanks of a value stay two, as they do in quotes. -/
theorem greeting_keeps_blanks :
    RefersTo "@echo Hi ".toList "name".toList "!".toList "echo Hi ".toList [.text "echo Hi "] false
      ∧ "echo Hi ".toList ≠ "echo".toList ∧ "!".toList.head? ≠ some '}'
      ∧ (readElements (fun _ => some "a  b") .bare (Element.joinTexts [.text "echo Hi "])).map
          Prod.snd = some .bare
      ∧ echoes (fun _ => some "a  b") "@echo Hi $\x7bname\x7d!".toList
        = echoes (fun _ => some "a  b") "@echo Hi \"$name\"!".toList
      ∧ echoes (fun _ => some "a  b") "@echo Hi \"$name\"!".toList = [some "Hi a  b!"] := by
  have hecho : "echo Hi ".toList ≠ "echo".toList := by decide
  have hbrace : "!".toList.head? ≠ some '}' := by decide
  have hquotes : (readElements (fun _ => some "a  b") .bare
      (Element.joinTexts [.text "echo Hi "])).map Prod.snd = some .bare := by
    decide +kernel
  have hprinted : echoes (fun _ => some "a  b") "@echo Hi \"$name\"!".toList
      = [some "Hi a  b!"] := by
    decide +kernel
  have hsame := braced_reference_is_quoted refersTo_greeting hecho (fun h => absurd h hbrace) _
    hquotes
  exact ⟨refersTo_greeting, hecho, hbrace, hquotes, hsame.2.1 rfl, hprinted⟩

/-- Braces do make a difference outside of quotes: without them two blanks of a value become one. -/
theorem braces_may_keep_blanks :
    ¬ ∀ (lookup : Lookup) (front name behind before : Text) (es : List Element) (mayFail : Bool),
      RefersTo front name behind before es mayFail →
        (readElements lookup .bare (Element.joinTexts es)).map Prod.snd ≠ some .single →
          echoes lookup (front ++ (bracedReference name ++ behind))
            = echoes lookup (front ++ ('$' :: name ++ behind)) := by
  intro hall
  have hquotes : (readElements (fun _ => some "a  b") .bare
      (Element.joinTexts [.text "echo Hi "])).map Prod.snd = some .bare := by
    decide +kernel
  have hbraced : echoes (fun _ => some "a  b") "@echo Hi $\x7bname\x7d!".toList
      = [some "Hi a  b!"] := by
    decide +kernel
  have hplain : echoes (fun _ => some "a  b") "@echo Hi $name!".toList = [some "Hi a b!"] := by
    decide +kernel
  have hsame := hall (fun _ => some "a  b") _ _ _ _ _ _ refersTo_greeting (by rw [hquotes]; decide)
  have hprinted := hbraced.symm.trans (hsame.trans hplain)
  exact absurd hprinted (by decide)

end Command

end TaskRunner
