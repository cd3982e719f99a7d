import TaskRunner.Proofs.EchoFields

/-! # What values do to a built-in echo

    The quotes of a line are those of its texts.  So two readings of one line with different
    values go through the same quotes, and **what decides about a line is the same for both**
    unless a value brings a pattern character (`verdict_readElements`).  It is the same from
    element to element, and what a value does is told by one element (`verdict_readElement`).
    Hence the line has the same quotes open in front of each element
    (`EchoLine.quoting_ofElements`).

    The marks of a value keep apart from what is expanded (`Mark.isVerbatim`).  Marks of that
    kind in a row are spoken as they stand, whatever waits in front of them
    (`Mark.infix_spoken`); without a blank among them they are in one word, and no word that
    is not empty gets lost (`Mark.infix_printed`).

    Hence **`Command.values_inject_nothing`**. -/

namespace TaskRunner

/-! ## What the values of a line decide -/

namespace Element

/-- The value that an element is replaced by. -/
def value? (lookup : Lookup) : Element → Option String
  | .variable name => some ((lookup name).getD "")
  | .expression e => some (e.value lookup)
  | _ => none

/-- No value of the elements would make a shell look for files. -/
def PlainValues (lookup : Lookup) (es : List Element) : Prop :=
  ∀ e ∈ es, ∀ v ∈ e.value? lookup, ∀ c ∈ EchoLine.patternCharacters, c ∉ v.toList

end Element

/-- What decides about a line: whether a mark is one for a shell, and which quotes are open behind
it. -/
def MarkReading.verdict (read : MarkReading) : Option (Bool × Quoting) :=
  read.map fun found => (found.1.any Mark.forShell, found.2)

theorem verdict_readElements_cons (lookup : Lookup) (quoting : Quoting) (e : Element)
    (es : List Element) :
    (readElements lookup quoting (e :: es)).verdict
      = (readElement lookup quoting e).verdict.bind fun found =>
          (readElements lookup found.2 es).verdict.map fun more =>
            (found.1 || more.1, more.2) := by
  rw [readElements]
  cases readElement lookup quoting e with
  | none => rfl
  | some found =>
      simp only [MarkReading.verdict, MarkReading.after, Option.bind_some, Option.map_some,
        Option.map_map, Function.comp_def, List.any_append]

theorem any_forShell_readValue {v : String} (h : ∀ c ∈ EchoLine.patternCharacters, c ∉ v.toList)
    (quoting : Quoting) : (readValue quoting v).any Mark.forShell = false := by
  rw [readValue]
  split
  · rw [List.any_map]
    refine List.any_eq_false.mpr fun c hc => ?_
    rw [Function.comp_apply, EchoLine.forShell_ofValue, List.contains_iff_mem]
    exact fun hmem => h c hmem hc
  · rfl

theorem verdict_readElement {lookup lookup' : Lookup} {e : Element}
    (h : ∀ v ∈ e.value? lookup, ∀ c ∈ EchoLine.patternCharacters, c ∉ v.toList)
    (h' : ∀ v ∈ e.value? lookup', ∀ c ∈ EchoLine.patternCharacters, c ∉ v.toList)
    (quoting : Quoting) :
    (readElement lookup quoting e).verdict = (readElement lookup' quoting e).verdict := by
  have hvalue : ∀ v v' : String, (∀ c ∈ EchoLine.patternCharacters, c ∉ v.toList) →
      (∀ c ∈ EchoLine.patternCharacters, c ∉ v'.toList) →
      MarkReading.verdict (some (readValue quoting v, quoting))
        = MarkReading.verdict (some (readValue quoting v', quoting)) := by
    intro v v' hv hv'
    simp only [MarkReading.verdict, Option.map_some, any_forShell_readValue hv,
      any_forShell_readValue hv']
  cases e with
  | text s => rfl
  | «variable» name =>
      rw [readElement, readElement]
      split
      · rfl
      · exact hvalue _ _ (h _ rfl) (h' _ rfl)
  | backtick command => rfl
  | expression e => exact hvalue _ _ (h _ rfl) (h' _ rfl)

/-- **A LINE IS READ THE SAME WAY WHATEVER ITS VALUES ARE**, if none is for a shell: the same quotes
    are open at the end, and the same is left to a shell. -/
theorem verdict_readElements {lookup lookup' : Lookup} {es : List Element}
    (h : Element.PlainValues lookup es) (h' : Element.PlainValues lookup' es) (quoting : Quoting) :
    (readElements lookup quoting es).verdict = (readElements lookup' quoting es).verdict := by
  induction es generalizing quoting with
  | nil => rfl
  | cons e es ih =>
      obtain ⟨hvalue, hvalues⟩ := List.forall_mem_cons.mp h
      obtain ⟨hvalue', hvalues'⟩ := List.forall_mem_cons.mp h'
      rw [verdict_readElements_cons, verdict_readElements_cons,
        verdict_readElement hvalue hvalue' quoting]
      congr 1
      funext found
      rw [ih hvalues hvalues']

/-! ## The line in front of an element -/

/-- The line of a command behind some of its elements; `none` if they make it one for the shell. -/
def EchoLine.ofElements (lookup : Lookup) : List Element → Option EchoLine
  | .text first :: es =>
    (echoArguments? first.toList).bind fun arguments =>
      (({} : EchoLine).text lookup arguments).bind fun line => line.elements lookup es
  | _ => none

theorem Command.echo_eq {command : Command} (h : command.silent = true) (lookup : Lookup) :
    command.echo lookup
      = (EchoLine.ofElements lookup command.elements).bind fun line => line.finish lookup := by
  obtain ⟨elements, silent, mayFail⟩ := command
  obtain rfl : silent = true := h
  rcases elements with _ | ⟨⟨first⟩ | _ | _ | _, rest⟩
  case cons.text => simp only [Command.echo, EchoLine.ofElements, Option.bind_assoc]
  all_goals rfl

namespace EchoLine

/-- The line is the one of the marks that are read of the arguments. -/
theorem ofElements_cons (lookup : Lookup) (first : String) (es : List Element) :
    ofElements lookup (.text first :: es)
      = (echoArguments? first.toList).bind fun arguments =>
          ({} : EchoLine).follow lookup
            (readElements lookup .bare (.text (String.ofList arguments) :: es)) := by
  rw [ofElements]
  congr 1
  funext arguments
  have hline := elements_eq_follow lookup {} (.text (String.ofList arguments) :: es)
  rwa [elements, element, String.toList_ofList] at hline

theorem quoting_follow (lookup : Lookup) (line : EchoLine) (read : MarkReading) :
    (line.follow lookup read).map quoting
      = read.verdict.bind fun found => if found.1 = true then none else some found.2 := by
  cases read with
  | none => rfl
  | some found =>
      rw [follow, MarkReading.verdict, Option.bind_some, Option.map_some, Option.bind_some]
      split <;> rfl

/-- **A LINE COMES TO THE SAME QUOTES WHATEVER ITS VALUES ARE**, or goes to the shell with all of
    them, if none of them is for a shell. -/
theorem quoting_ofElements {lookup lookup' : Lookup} {es : List Element}
    (h : Element.PlainValues lookup es) (h' : Element.PlainValues lookup' es) :
    (ofElements lookup es).map quoting = (ofElements lookup' es).map quoting := by
  rcases es with _ | ⟨⟨first⟩ | _ | _ | _, rest⟩
  case cons.text =>
      have hplain : ∀ {l : Lookup}, Element.PlainValues l (.text first :: rest) →
          ∀ arguments, Element.PlainValues l (.text arguments :: rest) :=
        fun hl _ => List.forall_mem_cons.mpr ⟨nofun, (List.forall_mem_cons.mp hl).2⟩
      rw [ofElements_cons, ofElements_cons, Option.map_bind, Option.map_bind]
      congr 1
      funext arguments
      rw [Function.comp_apply, Function.comp_apply, quoting_follow, quoting_follow,
        verdict_readElements (hplain h _) (hplain h' _)]
  all_goals rfl

end EchoLine

theorem Command.isSome_echo_iff {lookup : Lookup} {command : Command} :
    (command.echo lookup).isSome = true ↔
      command.silent = true
        ∧ (EchoLine.ofElements lookup command.elements).map EchoLine.quoting = some .bare := by
  by_cases hsilent : command.silent = true
  · rw [echo_eq hsilent]
    cases EchoLine.ofElements lookup command.elements with
    | none => simp
    | some line => simp [hsilent, EchoLine.finish, apply_ite Option.isSome]
  · obtain ⟨elements, silent, mayFail⟩ := command
    obtain rfl : silent = false := Bool.eq_false_iff.mpr hsilent
    simp [Command.echo]

/-! ## Where values are printed -/

namespace Text

/-- The words of a text stand in it, without a blank in them; the first one starts it if no blank
does. -/
theorem words_infix (s : Text) :
    (∀ word ∈ words s, word <:+: s ∧ ∀ c ∈ word, isBlank c = false)
      ∧ (s.head?.any isBlank = false → ∀ word ∈ (words s).head?, word <+: s) := by
  induction s with
  | nil => exact ⟨nofun, fun _ => nofun⟩
  | cons c s ih =>
      obtain ⟨hwords, hfirst⟩ := ih
      have hlater : ∀ word ∈ words s, word <:+: c :: s ∧ ∀ c ∈ word, isBlank c = false :=
        fun word hword => ⟨List.infix_cons (hwords word hword).1, (hwords word hword).2⟩
      cases hc : isBlank c with
      | true =>
          rw [words_cons_of_blank hc]
          refine ⟨hlater, fun h => ?_⟩
          cases hc.symm.trans h
      | false =>
          obtain ⟨-, heq⟩ | ⟨hhead, first, rest, hs, heq⟩ := words_cons_of_not_blank hc s
          · have hstart : [c] <+: c :: s := List.prefix_append [c] s
            rw [heq]
            refine ⟨List.forall_mem_cons.mpr ⟨⟨hstart.isInfix, ?_⟩, hlater⟩,
              fun _ word hword => ?_⟩
            · exact List.forall_mem_singleton.mpr hc
            · obtain rfl := Option.some.inj hword
              exact hstart
          · rw [hs] at hfirst hwords hlater
            have hstart : c :: first <+: c :: s :=
              List.cons_prefix_cons.mpr ⟨rfl, hfirst hhead first rfl⟩
            rw [heq]
            refine ⟨List.forall_mem_cons.mpr ⟨⟨hstart.isInfix, ?_⟩, fun word hword => ?_⟩,
              fun _ word hword => ?_⟩
            · exact List.forall_mem_cons.mpr ⟨hc, (hwords first List.mem_cons_self).2⟩
            · exact hlater word (List.mem_cons_of_mem _ hword)
            · obtain rfl := Option.some.inj hword
              exact hstart

end Text

namespace Mark

/-- No reference is looked for in what the mark stands for. -/
def isVerbatim : Mark → Bool
  | .value _ | .literal _ => true
  | _ => false

theorem spoken_cons_of_verbatim {m : Mark} (h : m.isVerbatim = true) (lookup : Lookup)
    (waiting : Text) (rest : List Mark) :
    spoken lookup waiting (m :: rest)
      = Text.expand lookup waiting ++ (m.text ++ spoken lookup [] rest) := by
  cases m with
  | value c | literal s => rfl
  | _ => cases h

/-- A run of such marks is spoken as it is. -/
theorem spoken_run {run : List Mark} (h : ∀ m ∈ run, m.isVerbatim = true) (lookup : Lookup)
    (rest : List Mark) :
    spoken lookup [] (run ++ rest) = run.flatMap text ++ spoken lookup [] rest := by
  induction run with
  | nil => rfl
  | cons m run ih =>
      obtain ⟨hm, hrun⟩ := List.forall_mem_cons.mp h
      rw [List.cons_append, spoken_cons_of_verbatim hm, ih hrun, Text.expand, List.flatMap_cons,
        List.append_assoc]
      rfl

theorem spoken_of_verbatim {run : List Mark} (hne : run ≠ [])
    (h : ∀ m ∈ run, m.isVerbatim = true) (lookup : Lookup) (waiting : Text) (rest : List Mark) :
    spoken lookup waiting (run ++ rest)
      = Text.expand lookup waiting ++ (run.flatMap text ++ spoken lookup [] rest) := by
  obtain ⟨m, run, rfl⟩ := List.exists_cons_of_ne_nil hne
  obtain ⟨hm, hrun⟩ := List.forall_mem_cons.mp h
  rw [List.cons_append, spoken_cons_of_verbatim hm, spoken_run hrun, List.flatMap_cons,
    List.append_assoc]

/-- What is spoken of a word ends with what is spoken of the rest of it. -/
theorem exists_spoken_append (lookup : Lookup) (waiting : Text) (before rest : List Mark) :
    ∃ front waiting', spoken lookup waiting (before ++ rest)
      = front ++ spoken lookup waiting' rest := by
  induction before generalizing waiting with
  | nil => exact ⟨[], waiting, rfl⟩
  | cons m before ih =>
      cases m with
      | blank | opening => exact ih waiting
      | bare c | double c => exact ih (waiting ++ [c])
      | value c =>
          obtain ⟨front, waiting', heq⟩ := ih []
          exact ⟨Text.expand lookup waiting ++ c :: front, waiting', by
            rw [List.cons_append, spoken, heq, List.append_assoc, List.cons_append]⟩
      | literal s =>
          obtain ⟨front, waiting', heq⟩ := ih []
          exact ⟨Text.expand lookup waiting ++ (s ++ front), waiting', by
            rw [List.cons_append, spoken, heq, List.append_assoc, List.append_assoc]⟩

theorem infix_spoken {run word : List Mark} (h : ∀ m ∈ run, m.isVerbatim = true)
    (hword : run <:+: word) (lookup : Lookup) (waiting : Text) :
    run.flatMap text <:+: spoken lookup waiting word := by
  obtain ⟨before, behind, rfl⟩ := hword
  rw [List.append_assoc]
  obtain ⟨front, waiting', heq⟩ := exists_spoken_append lookup waiting before (run ++ behind)
  rw [heq]
  refine List.infix_append_of_infix_right ?_
  by_cases hne : run = []
  · subst hne
    exact List.nil_infix
  · rw [spoken_of_verbatim hne h]
    exact List.infix_append_of_infix_right (List.prefix_append _ _).isInfix

/-- Marks in a row that end no word stand in one word. -/
theorem exists_word {run marks : List Mark} (hne : run ≠ []) (h : ∀ m ∈ run, m.endsWord = false)
    (hmarks : run <:+: marks) : ∃ word ∈ words marks, run <:+: word := by
  obtain ⟨before, behind, rfl⟩ := hmarks
  induction before with
  | nil =>
      rw [List.nil_append, words_eq]
      have hrest : restOfWord (run ++ behind) = run ++ restOfWord behind :=
        List.takeWhile_append_of_pos fun m hm => by rw [h m hm]; rfl
      rw [hrest, if_neg (List.append_ne_nil_of_left_ne_nil hne _)]
      exact ⟨_, List.mem_cons_self, (List.prefix_append _ _).isInfix⟩
  | cons m before ih =>
      obtain ⟨word, hword, hrun⟩ := ih
      rw [List.cons_append, List.cons_append]
      cases hm : m.endsWord with
      | true =>
          obtain rfl : m = .blank := eq_of_beq hm
          rw [words_cons_blank]
          exact ⟨word, hword, hrun⟩
      | false =>
          rw [words_cons hm]
          rw [words_eq] at hword
          split at hword
          · exact ⟨word, List.mem_cons_of_mem _ hword, hrun⟩
          · rcases List.mem_cons.mp hword with rfl | hword
            · exact ⟨_, List.mem_cons_self, List.infix_cons hrun⟩
            · exact ⟨word, List.mem_cons_of_mem _ hword, hrun⟩

end Mark

theorem infix_joined {text : Text} {texts : List Text} (h : text ∈ texts) :
    text <:+: joined texts := by
  induction texts with
  | nil => cases h
  | cons first texts ih =>
      cases texts with
      | nil =>
          rw [joined, List.intercalate_singleton]
          exact List.mem_singleton.mp h ▸ List.infix_rfl
      | cons second texts =>
          rw [joined_cons_cons]
          rcases List.mem_cons.mp h with rfl | h
          · exact (List.prefix_append _ _).isInfix
          · exact List.infix_append_of_infix_right (List.infix_cons (ih h))

/-- **WHAT STANDS FOR ITSELF IS PRINTED AS IT IS**: marks in a row without a blank, in which no
    reference is looked for, are printed in one piece. -/
theorem Mark.infix_printed {run marks : List Mark} (hrun : ∀ m ∈ run, m.isVerbatim = true)
    (h : run <:+: marks) (lookup : Lookup) :
    run.flatMap text
      <:+: joined (((words marks).map (spoken lookup [])).dropWhile List.isEmpty) := by
  by_cases hempty : run.flatMap text = []
  · rw [hempty]
    exact List.nil_infix
  · have hne : run ≠ [] := by
      rintro rfl
      exact hempty rfl
    have hends : ∀ m ∈ run, m.endsWord = false := by
      intro m hm
      have hverbatim := hrun m hm
      cases m <;> first | rfl | cases hverbatim
    obtain ⟨word, hword, hinfix⟩ := exists_word hne hends h
    have hspoken := infix_spoken hrun hinfix lookup []
    refine hspoken.trans (infix_joined ?_)
    have hmem := List.mem_map_of_mem (f := spoken lookup []) hword
    rw [← List.takeWhile_append_dropWhile (p := List.isEmpty)
      (l := (words marks).map (spoken lookup []))] at hmem
    refine (List.mem_append.mp hmem).resolve_left fun hdropped => hempty ?_
    have hnil := List.isEmpty_iff.mp (List.all_eq_true.mp List.all_takeWhile _ hdropped)
    rw [hnil] at hspoken
    exact List.infix_nil.mp hspoken

namespace Command

/-- What is read of an element that is no text is in a row in what is printed. -/
theorem infix_echo {lookup : Lookup} {command : Command} {t v : String}
    (h : command.echo lookup = some t) {es fs : List Element} {e : Element}
    (helements : command.elements = es ++ e :: fs) (hv : v ∈ e.value? lookup) {line : EchoLine}
    (hline : EchoLine.ofElements lookup es = some line) (hquoting : line.quoting ≠ .single)
    {run : List Mark} (hrun : run <:+: readValue line.quoting v)
    (hverbatim : ∀ m ∈ run, m.isVerbatim = true) : run.flatMap Mark.text <:+: t.toList := by
  obtain ⟨hsilent, -⟩ := echo_eq_some_iff.mp h
  rcases es with _ | ⟨⟨first⟩ | _ | _ | _, es⟩
  case cons.text =>
      rw [EchoLine.ofElements_cons] at hline
      obtain ⟨arguments, harguments, hfollow⟩ := Option.bind_eq_some_iff.mp hline
      obtain ⟨⟨before, quoting⟩, hbefore, hplain⟩ := Option.bind_eq_some_iff.mp hfollow
      obtain rfl : quoting = line.quoting := by
        split at hplain
        · cases hplain
        · exact congrArg EchoLine.quoting (Option.some.inj hplain)
      have hvalue : readElement lookup line.quoting e
          = some (readValue line.quoting v, line.quoting) := by
        cases e with
        | text s => cases hv
        | «variable» name =>
            obtain rfl := Option.some.inj hv
            rw [readElement, if_neg hquoting]
        | backtick command => cases hv
        | expression e =>
            obtain rfl := Option.some.inj hv
            rfl
      rw [echo_of_start hsilent helements harguments] at h
      obtain ⟨⟨all, quoting⟩, hall, hprinted⟩ := Option.bind_eq_some_iff.mp h
      split at hprinted
      · cases hprinted
      · rw [← Option.some.inj hprinted, String.toList_ofList, EchoLine.shown_line]
        refine Mark.infix_printed hverbatim ?_ lookup
        -- the marks of the value stand behind those of the elements in front of it
        rw [List.append_eq, ← List.cons_append, readElements_append, hbefore, Option.bind_some,
          readElements, hvalue, Option.bind_some] at hall
        obtain ⟨more, hmore, rfl⟩ := MarkReading.after_eq_some_iff.mp hall
        obtain ⟨behind, -, rfl⟩ := MarkReading.after_eq_some_iff.mp hmore
        exact List.infix_append_of_infix_right (List.infix_append_of_infix_left hrun)
  all_goals cases hline

/-- **VALUES INJECT NOTHING**: two sets of values without pattern characters leave the same lines to
    a shell, and the line has the same quotes open in front of any of the elements.  A value
    inside double quotes is printed as it stands, and so is each word of a value outside of
    quotes, so that no reference is looked for in them. -/
theorem values_inject_nothing (command : Command) :
    (∀ lookup lookup' : Lookup, Element.PlainValues lookup command.elements →
      Element.PlainValues lookup' command.elements →
        ((command.echo lookup).isSome = true ↔ (command.echo lookup').isSome = true)
        ∧ ∀ es fs, command.elements = es ++ fs →
          (EchoLine.ofElements lookup es).map EchoLine.quoting
            = (EchoLine.ofElements lookup' es).map EchoLine.quoting)
    ∧ ∀ (lookup : Lookup) (t : String), command.echo lookup = some t →
      ∀ es e fs v line, command.elements = es ++ e :: fs → v ∈ e.value? lookup →
        EchoLine.ofElements lookup es = some line →
          (line.quoting = .double → v.toList <:+: t.toList)
          ∧ (line.quoting = .bare → ∀ word ∈ Text.words v.toList, word <:+: t.toList) := by
  constructor
  · intro lookup lookup' h h'
    constructor
    · rw [isSome_echo_iff, isSome_echo_iff, EchoLine.quoting_ofElements h h']
    · intro es fs helements
      have hfront : ∀ {l : Lookup}, Element.PlainValues l command.elements →
          Element.PlainValues l es :=
        fun hl e he => hl e (helements ▸ List.mem_append_left _ he)
      exact EchoLine.quoting_ofElements (hfront h) (hfront h')
  · intro lookup t h es e fs v line helements hv hline
    constructor
    · intro hdouble
      have hrun : [Mark.literal v.toList] <:+: readValue line.quoting v := by
        rw [hdouble]
        exact List.infix_rfl
      have hinfix := infix_echo h helements hv hline (by rw [hdouble]; decide) hrun
        (List.forall_mem_singleton.mpr rfl)
      rwa [List.flatMap_singleton] at hinfix
    · intro hbare word hword
      obtain ⟨hword, hplain⟩ := (Text.words_infix v.toList).1 word hword
      have hrun : word.map Mark.ofValue = word.map Mark.value :=
        List.map_congr_left fun c hc => by rw [Mark.ofValue, if_neg (by rw [hplain c hc]; decide)]
      have hvalue : word.map Mark.value <:+: readValue line.quoting v := by
        rw [hbare, readValue, if_pos rfl, ← hrun]
        exact hword.map _
      have hinfix := infix_echo h helements hv hline (by rw [hbare]; decide) hvalue
        (List.forall_mem_map.mpr fun _ _ => rfl)
      rwa [List.flatMap_map, show word.flatMap (fun c => (Mark.value c).text) = word from
        List.flatMap_singleton' word] at hinfix

/-- A line with a value inside of double quotes and the same one outside of them. -/
def quoting : Command :=
  ⟨[.text "echo \"Hi ", .variable "name", .text "\" and ", .variable "name"], true, false⟩

/-- A value with what could be quotes, an escape, a reference, a pipe and a line feed. -/
def hostile : String := "it's \"$name\" \\|\nmore"

/-- The value that could do most is printed word for word, and the empty one is printed as well. -/
theorem hostile_injects_nothing :
    Element.PlainValues (fun _ => some hostile) quoting.elements
      ∧ Element.PlainValues (fun _ => none) quoting.elements
      ∧ ((quoting.echo fun _ => some hostile).isSome = true
        ↔ (quoting.echo fun _ => none).isSome = true)
      ∧ (quoting.echo fun _ => some hostile)
        = some "Hi it's \"$name\" \\|\nmore and it's \"$name\" \\| more"
      ∧ hostile.toList <:+: "Hi it's \"$name\" \\|\nmore and it's \"$name\" \\| more".toList := by
  have hplain : ∀ c ∈ EchoLine.patternCharacters, c ∉ hostile.toList := by
    simp [EchoLine.patternCharacters, hostile]
  have h : Element.PlainValues (fun _ => some hostile) quoting.elements := by
    simpa [Element.PlainValues, quoting, Element.value?] using hplain
  have h' : Element.PlainValues (fun _ => none) quoting.elements := by
    simp [Element.PlainValues, quoting, Element.value?]
  have hecho : (quoting.echo fun _ => some hostile)
      = some "Hi it's \"$name\" \\|\nmore and it's \"$name\" \\| more" := by
    decide +kernel
  have hline : EchoLine.ofElements (fun _ => some hostile) [.text "echo \"Hi "]
      = some { pending := "Hi ", quoting := .double } := by
    decide +kernel
  exact ⟨h, h', ((values_inject_nothing quoting).1 _ _ h h').1, hecho,
    ((values_inject_nothing quoting).2 _ _ hecho _ (.variable "name") _ _ _ rfl rfl hline).1 rfl⟩

end Command

end TaskRunner
