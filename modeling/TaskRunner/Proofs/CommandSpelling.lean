import TaskRunner.Command.Parser
import TaskRunner.Proofs.ExpressionGrammar

/-! # What is written on command lines

    An element can be **written** in one way, except for an expression, which can be written
    with any text between the braces that reads as it (`Element.Spells`).  The cutter of
    lines takes pieces that it has a spelling for (`next_spells`), and where it falls back to
    plain text it takes just the characters that it looked at; so the pieces of a line spell
    the line (`spelled_pieces`).  Joining neighbouring texts changes none of this
    (`spelled_joinTexts`) and leaves no two texts next to each other (`apart_joinTexts`).

    What stands in front of a command are its marks (**`Marks`**): each modifier at most once,
    in either order, with blanks behind each.  No line has marks in two ways, since the text
    behind them goes on neither with a blank nor with a mark that is still free
    (`Behind.modifiers`).

    Hence **`splitting_loses_nothing`**: the commands of a body are its command lines, one to
    one and in order, with the flags that their marks say, and the elements of each spell
    all that stands behind the marks. -/

namespace TaskRunner

open Text

namespace Text

/-! ## Spans -/

/-- A span that ends at the first mark has no mark inside. -/
theorem not_mem_of_upTo {mark : Char} {s inside rest : Text}
    (h : upTo [mark] s = some (inside, rest)) : mark ∉ inside := by
  induction s generalizing inside with
  | nil => cases h
  | cons c s ih =>
      rw [upTo] at h
      split at h
      · obtain ⟨rfl, -⟩ := Prod.mk.inj (Option.some.inj h)
        exact List.not_mem_nil
      · rename_i hnone
        obtain ⟨found, hfound, heq⟩ := Option.map_eq_some_iff.mp h
        obtain ⟨rfl, rfl⟩ := Prod.mk.inj heq
        rw [List.mem_cons, not_or]
        refine ⟨?_, ih hfound⟩
        rintro rfl
        have heaten : eat [mark] (mark :: s) = some s := eat_eq_some_iff.mpr rfl
        exact hnone (by rw [heaten]; rfl)

theorem not_mem_of_upThrough {mark : Char} {s inside rest : Text}
    (h : upThrough [mark] s = some (inside, rest)) : mark ∉ inside := by
  obtain ⟨found, hfound, heq⟩ := Option.map_eq_some_iff.mp h
  obtain ⟨rfl, -⟩ := Prod.mk.inj heq
  exact not_mem_of_upTo hfound

theorem isSome_eat_iff {word s : Text} : (eat word s).isSome = true ↔ word <+: s := by
  constructor
  · intro h
    obtain ⟨rest, hrest⟩ := Option.isSome_iff_exists.mp h
    exact ⟨rest, (eat_eq_some_iff.mp hrest).symm⟩
  · rintro ⟨rest, hrest⟩
    rw [eat_eq_some_iff.mpr hrest.symm]
    rfl

/-- A mark is missed exactly where it does not stand in the text. -/
theorem upTo_eq_none_iff {mark s : Text} : upTo mark s = none ↔ ¬ mark <:+: s := by
  induction s with
  | nil =>
      rw [upTo, List.infix_nil]
      cases mark with
      | nil => exact iff_of_false (Option.some_ne_none _) fun h => h rfl
      | cons c mark => exact iff_of_true rfl (List.cons_ne_nil c mark)
  | cons c s ih =>
      rw [upTo, List.infix_cons_iff, not_or, ← isSome_eat_iff, ← ih]
      split
      · rename_i hsome
        exact iff_of_false (Option.some_ne_none _) fun h => h.1 hsome
      · rename_i hnone
        rw [Option.map_eq_none_iff]
        exact (and_iff_right hnone).symm

theorem upThrough_eq_none_iff {mark s : Text} : upThrough mark s = none ↔ ¬ mark <:+: s := by
  rw [upThrough, Option.map_eq_none_iff, upTo_eq_none_iff]

/-- No mark stands earlier than the one that is found. -/
theorem length_le_of_upTo {mark s before rest a b : Text} (h : upTo mark s = some (before, rest))
    (hs : s = a ++ (mark ++ b)) : before.length ≤ a.length := by
  induction s generalizing a before with
  | nil =>
      rw [(List.append_eq_nil_iff.mp (append_of_upTo h).symm).1]
      exact Nat.zero_le _
  | cons c s ih =>
      rw [upTo] at h
      split at h
      · cases h
        exact Nat.zero_le _
      · rename_i hnone
        obtain ⟨found, hfound, heq⟩ := Option.map_eq_some_iff.mp h
        obtain ⟨rfl, rfl⟩ := Prod.mk.inj heq
        cases a with
        | nil => exact absurd (isSome_eat_iff.mpr ⟨b, hs.symm⟩) hnone
        | cons d a => exact Nat.succ_le_succ (ih hfound (List.cons.inj hs).2)

theorem length_le_of_upThrough {mark s before rest a b : Text}
    (h : upThrough mark s = some (before, rest)) (hs : s = a ++ (mark ++ b)) :
    before.length ≤ a.length := by
  obtain ⟨found, hfound, heq⟩ := Option.map_eq_some_iff.mp h
  obtain ⟨rfl, -⟩ := Prod.mk.inj heq
  exact length_le_of_upTo hfound hs

end Text

namespace Element

/-! ## Spellings -/

/-- An element may be written so. -/
inductive Spells : Element → Text → Prop
  | text (value : String) : Spells (.text value) value.toList
  | variable (name : String) : Spells (.variable name) ('$' :: name.toList)
  | backtick (command : String) : Spells (.backtick command) ('`' :: (command.toList ++ ['`']))
  | expression {inside : Text} {e : Expression} : Expression.parse inside = .ok e →
      Spells (.expression e) ('{' :: '{' :: (inside ++ ['}', '}']))

/-- Elements may be written so, one behind the other. -/
inductive Spelled : List Element → Text → Prop
  | nil : Spelled [] []
  | cons {e : Element} {elements : List Element} {s t : Text} :
      e.Spells s → Spelled elements t → Spelled (e :: elements) (s ++ t)

/-- Plain text. -/
def IsText : Element → Prop
  | .text _ => True
  | _ => False

/-- Of two neighbours not both are plain text. -/
def Apart (e next : Element) : Prop := ¬ (e.IsText ∧ next.IsText)

/-- A text that is not empty, a word after a dollar sign, or a span without a backtick inside. -/
def WellFormed : Element → Prop
  | .text value => value ≠ ""
  | .variable name => IsWord name.toList
  | .backtick command => '`' ∉ command.toList
  | .expression _ => True

/-- What the elements of a line are: at least one, which spell the line, each well formed, and no
two texts next to each other. -/
structure Cuts (elements : List Element) (line : Text) : Prop where
  nonempty : elements ≠ []
  spelled : Spelled elements line
  wellFormed : ∀ e ∈ elements, e.WellFormed
  apart : elements.IsChain Apart

theorem spells_ofText (s : Text) : (ofText s).Spells s := by
  have htext := Spells.text (String.ofList s)
  rwa [String.toList_ofList] at htext

theorem wellFormed_ofText {s : Text} (h : s ≠ []) : (ofText s).WellFormed := by
  intro hempty
  exact h (String.ofList_eq_empty_iff.mp hempty)

/-! ## The pieces of a line spell it -/

/-- The text between braces with its braces, whether it is an expression or not. -/
theorem spells_ofBraces (inside : Text) :
    (ofBraces inside).Spells ('{' :: '{' :: (inside ++ ['}', '}'])) := by
  rw [ofBraces]
  split
  · rename_i e hread
    refine .expression ?_
    rw [Expression.parse, hread]
  · exact spells_ofText _

/-- **A PIECE SPELLS WHAT IT TAKES**: what it is written like and the rest are the line. -/
theorem next_spells (c : Char) (rest : Text) :
    ∃ s, (next c rest).1.Spells s ∧ c :: rest = s ++ (next c rest).2 := by
  fun_cases next c rest with
  | case1 hc inner inside after hspan =>
      refine ⟨_, spells_ofBraces inside, ?_⟩
      rw [hc, append_of_upThrough hspan]
      simp
  | case2 hc inner => exact ⟨_, spells_ofText _, by rw [hc]; rfl⟩
  | case3 _ hc => exact ⟨_, spells_ofText _, by rw [hc]; rfl⟩
  | case4 _ _ hc inside after hspan =>
      refine ⟨_, .backtick _, ?_⟩
      rw [hc, String.toList_ofList, append_of_upThrough hspan]
      simp
  | case5 _ _ hc => exact ⟨_, spells_ofText _, by rw [hc]; rfl⟩
  | case6 _ _ _ hc => exact ⟨_, spells_ofText _, by rw [hc]; rfl⟩
  | case7 _ _ _ hc =>
      refine ⟨_, .variable _, ?_⟩
      rw [hc, String.toList_ofList, List.cons_append, List.takeWhile_append_dropWhile]
  | case8 =>
      refine ⟨_, spells_ofText _, ?_⟩
      rw [List.cons_append, List.takeWhile_append_dropWhile]

theorem spelled_pieces (line : Text) : Spelled (pieces line) line := by
  fun_induction pieces line with
  | case1 => exact .nil
  | case2 c rest ih =>
      obtain ⟨s, hspells, heq⟩ := next_spells c rest
      rw [heq]
      exact .cons hspells ih

theorem next_wellFormed (c : Char) (rest : Text) : (next c rest).1.WellFormed := by
  fun_cases next c rest with
  | case1 _ inner inside =>
      show (ofBraces inside).WellFormed
      rw [ofBraces]
      split
      · trivial
      · exact wellFormed_ofText nofun
  | case4 _ _ _ inside after hspan =>
      show _ ∉ (String.ofList inside).toList
      rw [String.toList_ofList]
      exact not_mem_of_upThrough hspan
  | case7 _ _ _ hc hname =>
      show IsWord (String.ofList _).toList
      rw [String.toList_ofList]
      exact isWord_takeWhile hname
  | _ => exact wellFormed_ofText nofun

theorem wellFormed_pieces (line : Text) : ∀ e ∈ pieces line, e.WellFormed := by
  fun_induction pieces line with
  | case1 => exact nofun
  | case2 c rest ih =>
      intro e he
      rcases List.mem_cons.mp he with rfl | he
      · exact next_wellFormed c rest
      · exact ih e he

/-! ## Joining neighbouring texts -/

theorem spelled_joinTexts {elements : List Element} {line : Text} (h : Spelled elements line) :
    Spelled (joinTexts elements) line := by
  induction h with
  | nil => exact .nil
  | @cons e elements s t hspells _ ih =>
      cases hspells with
      | text value =>
          rw [joinTexts]
          split
          · -- a text takes the text behind it, and with it what that one spells
            rename_i more others hjoined
            rw [hjoined] at ih
            obtain ⟨-⟩ | ⟨⟨-⟩, hothers⟩ := ih
            rw [← List.append_assoc, ← String.toList_append]
            exact .cons (.text _) hothers
          · exact .cons (.text value) ih
      | «variable» name => exact .cons (.variable name) ih
      | backtick command => exact .cons (.backtick command) ih
      | expression hparse => exact .cons (.expression hparse) ih

/-- A text at the start stays there, with the texts that stand behind it. -/
theorem exists_joinTexts_ofText (s : Text) (es : List Element) :
    ∃ text rest, joinTexts (ofText s :: es) = .text text :: rest ∧ s <+: text.toList := by
  rw [ofText, joinTexts]
  split
  · refine ⟨_, _, rfl, ?_⟩
    rw [String.toList_append, String.toList_ofList]
    exact List.prefix_append _ _
  · exact ⟨_, _, rfl, by rw [String.toList_ofList]⟩

theorem wellFormed_joinTexts {elements : List Element} (h : ∀ e ∈ elements, e.WellFormed) :
    ∀ e ∈ joinTexts elements, e.WellFormed := by
  fun_induction joinTexts elements with
  | case1 => exact h
  | case2 value rest more others hjoined ih =>
      obtain ⟨hvalue, hrest⟩ := List.forall_mem_cons.mp h
      have hothers := ih hrest
      rw [hjoined] at hothers
      refine List.forall_mem_cons.mpr ⟨?_, (List.forall_mem_cons.mp hothers).2⟩
      intro hempty
      exact hvalue (String.append_eq_empty_iff.mp hempty).1
  | case3 value rest hjoined ih =>
      obtain ⟨hvalue, hrest⟩ := List.forall_mem_cons.mp h
      exact List.forall_mem_cons.mpr ⟨hvalue, ih hrest⟩
  | case4 e rest hother ih =>
      obtain ⟨he, hrest⟩ := List.forall_mem_cons.mp h
      exact List.forall_mem_cons.mpr ⟨he, ih hrest⟩

/-- **JOINED TEXTS ARE APART**: none has another one next to it. -/
theorem apart_joinTexts (elements : List Element) : (joinTexts elements).IsChain Apart := by
  fun_induction joinTexts elements with
  | case1 => exact .nil
  | case2 value rest more others hjoined ih =>
      rw [hjoined] at ih
      cases ih with
      | singleton => exact .singleton _
      | cons_cons hapart hothers => exact .cons_cons hapart hothers
  | case3 value rest hjoined ih =>
      cases hrest : joinTexts rest with
      | nil => exact .singleton _
      | cons e others =>
          rw [hrest] at ih
          refine .cons_cons ?_ ih
          rintro ⟨-, htext⟩
          cases e with
          | text more => exact hjoined more others hrest
          | _ => exact htext
  | case4 e rest hother ih =>
      cases hrest : joinTexts rest with
      | nil => exact .singleton _
      | cons next others =>
          rw [hrest] at ih
          refine .cons_cons ?_ ih
          rintro ⟨htext, -⟩
          cases e with
          | text value => exact hother value rfl
          | _ => exact htext

theorem cuts_parseLine {line : Text} (h : line ≠ []) : Cuts (parseLine line) line := by
  have hspelled : Spelled (parseLine line) line := spelled_joinTexts (spelled_pieces line)
  refine ⟨?_, hspelled, wellFormed_joinTexts (wellFormed_pieces line), apart_joinTexts _⟩
  intro hnil
  rw [hnil] at hspelled
  cases hspelled
  exact h rfl

end Element

namespace Text

/-! ## Trimmed texts -/

theorem head_trimStart {s : Text} : ∀ c ∈ (trimStart s).head?, isBlank c = false := by
  intro c hc
  have hhead := List.head?_dropWhile_not isBlank s
  rw [← trimStart, Option.mem_def.mp hc] at hhead
  exact hhead

/-- What is left of a text at its end is a beginning of it. -/
theorem isPrefix_trimEnd (s : Text) : trimEnd s <+: s := by
  have hsuffix : s.reverse.dropWhile isBlank <:+ s.reverse := List.dropWhile_suffix _
  have hprefix := List.reverse_prefix.mpr hsuffix
  rwa [List.reverse_reverse] at hprefix

/-- What is left of a text at its end does not end with a blank. -/
theorem getLast_trimEnd {s : Text} : ∀ c ∈ (trimEnd s).getLast?, isBlank c = false := by
  intro c hc
  rw [trimEnd, List.getLast?_reverse] at hc
  have hhead := List.head?_dropWhile_not isBlank s.reverse
  rw [Option.mem_def.mp hc] at hhead
  exact hhead

/-- A trimmed text does not begin with a blank. -/
theorem head_trim {s : Text} : ∀ c ∈ (trim s).head?, isBlank c = false := by
  intro c hc
  obtain ⟨back, hback⟩ := isPrefix_trimEnd (trimStart s)
  refine head_trimStart (s := s) c ?_
  rw [← hback, ← trim, List.head?_append, Option.mem_def.mp hc]
  rfl

theorem head_cons {c : Char} {s : Text} (h : isBlank c = false) :
    ∀ d ∈ (c :: s).head?, isBlank d = false := by
  intro d hd
  obtain rfl := Option.some.inj hd
  exact h

theorem trimStart_blanks {blanks rest : Text} (hblanks : ∀ c ∈ blanks, isBlank c = true)
    (hrest : ∀ c ∈ rest.head?, isBlank c = false) : trimStart (blanks ++ rest) = rest := by
  rw [trimStart, List.dropWhile_append_of_pos hblanks]
  cases rest with
  | nil => rfl
  | cons c rest => rw [List.dropWhile_cons_of_neg (by simp [hrest c rfl])]

/-- A blank behind a text is trimmed away. -/
theorem trim_concat {c : Char} (hc : isBlank c = true) (s : Text) : trim (s ++ [c]) = trim s := by
  have hend : ∀ t, trimEnd (t ++ [c]) = trimEnd t := by
    intro t
    rw [trimEnd, List.reverse_concat, List.dropWhile_cons_of_pos hc, trimEnd]
  rw [trim, trim, trimStart, List.dropWhile_append]
  split
  · rename_i hblank
    rw [List.dropWhile_cons_of_pos hc, List.dropWhile_nil, trimStart, List.isEmpty_iff.mp hblank]
  · exact hend _

end Text

namespace Command

/-! ## Marks -/

/-- The modifiers in front of a command: each at most once, in either order, with blanks behind
each. The flags say which of them there are. -/
inductive Marks : Bool → Bool → Text → Prop
  | none : Marks false false []
  | silent {mayFail : Bool} {marks blanks : Text} : Marks false mayFail marks →
      (∀ c ∈ blanks, isBlank c = true) → Marks true mayFail (marks ++ '@' :: blanks)
  | mayFail {silent : Bool} {marks blanks : Text} : Marks silent false marks →
      (∀ c ∈ blanks, isBlank c = true) → Marks silent true (marks ++ '-' :: blanks)

/-- A text goes on neither with a blank nor with a modifier that there is not yet. -/
structure Ends (silent mayFail : Bool) (rest : Text) : Prop where
  blank : ∀ c ∈ rest.head?, isBlank c = false
  silent : rest.head? = some '@' → silent = true
  mayFail : rest.head? = some '-' → mayFail = true

/-- All the modifiers that a line begins with are taken from it, and `rest` is left. -/
structure Behind (line : Text) (silent mayFail : Bool) (rest : Text) : Prop where
  marks : ∃ marks, Marks silent mayFail marks ∧ line = marks ++ rest
  ends : Ends silent mayFail rest

/-- **THE READER GOES THROUGH MARKS**, whatever stands behind them. -/
theorem modifiers_marks {silent mayFail : Bool} {marks rest : Text}
    (h : Marks silent mayFail marks) (hrest : ∀ c ∈ rest.head?, isBlank c = false) :
    modifiers false false (marks ++ rest) = modifiers silent mayFail rest := by
  induction h generalizing rest with
  | none => rfl
  | silent _ hblanks ih =>
      rw [List.append_assoc, List.cons_append, ih (head_cons (by decide)), modifiers,
        if_pos ⟨rfl, rfl⟩, trimStart_blanks hblanks hrest]
  | mayFail _ hblanks ih =>
      rw [List.append_assoc, List.cons_append, ih (head_cons (by decide)), modifiers,
        if_neg (by simp), if_pos ⟨rfl, rfl⟩, trimStart_blanks hblanks hrest]

theorem modifiers_of_ends {silent mayFail : Bool} {rest : Text} (h : Ends silent mayFail rest) :
    modifiers silent mayFail rest = (silent, mayFail, rest) := by
  cases rest with
  | nil => rw [modifiers]
  | cons c rest =>
      have hat : ¬ (c = '@' ∧ silent = false) := by
        rintro ⟨rfl, hfree⟩
        cases hfree.symm.trans (h.silent rfl)
      have hhyphen : ¬ (c = '-' ∧ mayFail = false) := by
        rintro ⟨rfl, hfree⟩
        cases hfree.symm.trans (h.mayFail rfl)
      rw [modifiers, if_neg hat, if_neg hhyphen]

/-- The blanks behind a mark go with it. -/
theorem append_mark (marks : Text) (mark : Char) (rest : Text) :
    marks ++ mark :: rest = marks ++ mark :: rest.takeWhile isBlank ++ trimStart rest := by
  rw [List.append_assoc, List.cons_append, trimStart, List.takeWhile_append_dropWhile]

/-- **WHAT THE READER TAKES ARE MARKS**, and it takes all that there are. -/
theorem behind_modifiers {silent mayFail : Bool} {marks rest : Text}
    (h : Marks silent mayFail marks) (hrest : ∀ c ∈ rest.head?, isBlank c = false) :
    Behind (marks ++ rest) (modifiers silent mayFail rest).1 (modifiers silent mayFail rest).2.1
      (modifiers silent mayFail rest).2.2 := by
  -- the marks that are taken so far grow from step to step
  fun_induction modifiers silent mayFail rest generalizing marks with
  | case1 silent mayFail => exact ⟨⟨marks, h, rfl⟩, hrest, nofun, nofun⟩
  | case2 silent mayFail c rest hat ih =>
      obtain ⟨rfl, rfl⟩ := hat
      rw [append_mark]
      exact ih (h.silent fun _ hc => List.mem_takeWhile_imp hc) head_trimStart
  | case3 silent mayFail c rest hat hhyphen ih =>
      obtain ⟨rfl, rfl⟩ := hhyphen
      rw [append_mark]
      exact ih (h.mayFail fun _ hc => List.mem_takeWhile_imp hc) head_trimStart
  | case4 silent mayFail c rest hat hhyphen =>
      refine ⟨⟨marks, h, rfl⟩, hrest, ?_, ?_⟩
      · intro hc
        cases silent with
        | true => rfl
        | false => exact absurd ⟨Option.some.inj hc, rfl⟩ hat
      · intro hc
        cases mayFail with
        | true => rfl
        | false => exact absurd ⟨Option.some.inj hc, rfl⟩ hhyphen

/-- No line has marks in two ways. -/
theorem Behind.modifiers {line rest : Text} {silent mayFail : Bool}
    (h : Behind line silent mayFail rest) :
    modifiers false false line = (silent, mayFail, rest) := by
  obtain ⟨⟨marks, hmarks, rfl⟩, hends⟩ := h
  rw [modifiers_marks hmarks hends.blank]
  exact modifiers_of_ends hends

/-! ## Command lines -/

/-- A line carries a command with the given text: the line is neither blank nor a comment, and the
text, which is not empty, stands behind its modifiers. -/
structure Carries (line : Text) (silent mayFail : Bool) (rest : Text) : Prop where
  full : trim line ≠ []
  noComment : (trim line).head? ≠ some '#'
  behind : Behind (trim line) silent mayFail rest
  nonempty : rest ≠ []

/-- A line that carries a command. -/
def IsCommandLine (line : Text) : Prop := ∃ silent mayFail rest, Carries line silent mayFail rest

theorem ofLine?_of_carries {line rest : Text} {silent mayFail : Bool}
    (h : Carries line silent mayFail rest) :
    ofLine? line = some ⟨Element.parseLine rest, silent, mayFail⟩ := by
  obtain ⟨c, more, hline⟩ := List.exists_cons_of_ne_nil h.full
  have hcomment : c ≠ '#' := by
    rintro rfl
    exact h.noComment (by rw [hline]; rfl)
  have hmodifiers := h.behind.modifiers
  obtain ⟨d, rest, rfl⟩ := List.exists_cons_of_ne_nil h.nonempty
  rw [hline] at hmodifiers
  rw [ofLine?, hline]
  dsimp only
  rw [if_neg hcomment, hmodifiers]

theorem carries_of_ofLine? {line : Text} {command : Command} (h : ofLine? line = some command) :
    ∃ rest, Carries line command.silent command.mayFail rest ∧
      command.elements = Element.parseLine rest := by
  rw [ofLine?] at h
  split at h
  · cases h
  · rename_i c more hline
    split at h
    · cases h
    · rename_i hcomment
      have hbehind := behind_modifiers .none (head_trim (s := line))
      rw [List.nil_append] at hbehind
      rw [← hline] at h
      split at h
      · cases h
      · rename_i silent mayFail rest hrest hmodifiers
        obtain rfl := Option.some.inj h
        rw [hmodifiers] at hbehind
        refine ⟨rest, ⟨?_, ?_, hbehind, hrest⟩, rfl⟩
        · rw [hline]
          exact List.cons_ne_nil _ _
        · rw [hline]
          exact fun hc => hcomment (Option.some.inj hc)

theorem isSome_ofLine?_iff (line : Text) : (ofLine? line).isSome = true ↔ IsCommandLine line := by
  constructor
  · intro h
    obtain ⟨command, hcommand⟩ := Option.isSome_iff_exists.mp h
    obtain ⟨rest, hcarries, -⟩ := carries_of_ofLine? hcommand
    exact ⟨_, _, rest, hcarries⟩
  · rintro ⟨silent, mayFail, rest, hcarries⟩
    rw [ofLine?_of_carries hcarries]
    rfl

instance : DecidablePred IsCommandLine := fun line => decidable_of_iff _ (isSome_ofLine?_iff line)

/-- A line carries one command. -/
theorem Carries.unique {line rest rest' : Text} {silent silent' mayFail mayFail' : Bool}
    (h : Carries line silent mayFail rest) (h' : Carries line silent' mayFail' rest') :
    silent' = silent ∧ mayFail' = mayFail ∧ rest' = rest := by
  have heq := h'.behind.modifiers.symm.trans h.behind.modifiers
  obtain ⟨hsilent, hmore⟩ := Prod.mk.inj heq
  exact ⟨hsilent, Prod.mk.inj hmore⟩

/-- What is made of the elements that something is made of, in order. -/
theorem forall₂_filterMap {α β : Type} {f : α → Option β} {p : α → Prop} [DecidablePred p]
    {R : α → β → Prop} (hp : ∀ a, (f a).isSome = true ↔ p a) (hR : ∀ a b, f a = some b → R a b)
    (l : List α) : List.Forall₂ R (l.filter (p ·)) (l.filterMap f) := by
  induction l with
  | nil => exact .nil
  | cons a l ih =>
      cases hfa : f a with
      | none =>
          have hpa : ¬ p a := by
            rw [← hp a, hfa]
            exact nofun
          rw [List.filterMap_cons_none hfa, List.filter_cons_of_neg (by simpa using hpa)]
          exact ih
      | some b =>
          have hpa : p a := by
            rw [← hp a, hfa]
            rfl
          rw [List.filterMap_cons_some hfa, List.filter_cons_of_pos (by simpa using hpa)]
          exact .cons (hR a b hfa) ih

/-- **SPLITTING LOSES NOTHING**: the commands of a body are, one to one and in order, its lines that
    are neither blank nor comments and have something behind their modifiers.  The flags say
    which modifiers were taken, and the elements of each command are those of the text
    behind the modifiers: at least one, written one behind the other just as the text is,
    with no empty text and no two texts next to each other. -/
theorem splitting_loses_nothing (body : Text) :
    List.Forall₂
      (fun line command => ∃ rest,
        Carries line command.silent command.mayFail rest ∧
        (∀ silent mayFail other, Carries line silent mayFail other →
          silent = command.silent ∧ mayFail = command.mayFail ∧ other = rest) ∧
        command.elements = Element.parseLine rest ∧
        Element.Cuts command.elements rest)
      ((body.splitOn '\n').filter (IsCommandLine ·)) (parseBody body) := by
  refine forall₂_filterMap isSome_ofLine?_iff ?_ _
  intro line command hcommand
  obtain ⟨rest, hcarries, helements⟩ := carries_of_ofLine? hcommand
  refine ⟨rest, hcarries, fun silent mayFail other hother => hcarries.unique hother, helements, ?_⟩
  rw [helements]
  exact Element.cuts_parseLine hcarries.nonempty

/-- A mark that never closes and braces without an expression are text, together with what stands
around them; the second line has nothing behind its modifiers. -/
example :
    parseBody "- @echo {{ a }}{{}} $b`c\n@ -\n # d".toList
      = [⟨[.text "echo ", .expression (.identifier "a"), .text "{{}} ", .variable "b",
          .text "`c"], true, true⟩] := by
  cbv

end Command

end TaskRunner
