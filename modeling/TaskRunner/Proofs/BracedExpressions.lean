import TaskRunner.Proofs.ErrorPlaces

/-! # Expressions between braces

    The reader of an expression knows its strings; the search for the two braces that close it
    does not.  Outside of its strings an expression has no closing brace (**`Unbraced`**,
    `unbraced_of_parse`), so the two can disagree on nothing but the content of strings.

    The braces found first close the expression.  If none stand in it, they are those behind
    it, and not one character earlier, since an expression does not end with a brace
    (`upThrough_braces`).  If two stand in it, what is taken stops inside a string, and a text
    that stops there is no expression, because its closing braces are all in strings as well
    (`Unbraced.not_append`, `upThrough_braces_of_infix`).

    So **an expression can be written between braces exactly if it has no two closing braces
    in it** (`braced_expressions_exact`).  As the value of a variable it is refused otherwise,
    and on a command line it is plain text. -/

namespace TaskRunner

open Text

/-! ## Variables -/

/-- Reading a variable comes to its value, if that does not begin with a blank. -/
theorem Item.declaration_assigned {word : Text} (hword : IsWord word) {s : Text}
    (hs : skipInline s = s) :
    Item.declaration [] (word ++ ' ' :: '=' :: ' ' :: s)
      = match Item.value s with
        | .ok (value, rest) => .ok (.variable ⟨String.ofList word, value⟩, rest)
        | .error e => .error e := by
  have hends : EndsWord (' ' :: '=' :: ' ' :: s) := endsWord_cons (by decide) _
  have hbrace : eat ['}'] (word ++ ' ' :: '=' :: ' ' :: s) = none := by
    obtain ⟨c, rest, rfl⟩ := List.exists_cons_of_ne_nil hword.1
    have hc : c ≠ '}' := ne_of_mem_of_not_mem List.mem_cons_self (hword.not_mem (by decide))
    rw [List.cons_append, eat, if_neg hc.symm]
  have hassignment : Item.assignment? (word ++ ' ' :: '=' :: ' ' :: s) = some (word, s) := by
    rw [Item.assignment?, takeWhile_word hword hends, dropWhile_word hword hends,
      if_neg hword.not_isEmpty]
    show some (word, skipInline s) = _
    rw [hs]
  rw [Item.declaration, hbrace]
  dsimp only
  split
  · rename_i hfound
    cases hassignment.symm.trans hfound
    rfl
  · rename_i hnone
    cases hassignment.symm.trans hnone

/-- A text that begins with a word begins neither with a blank nor with a comment. -/
theorem Text.IsWord.exists_start {word : Text} (hword : IsWord word) (s : Text) :
    ∃ c rest, word ++ s = c :: rest ∧ skipSpacing (word ++ s) = c :: rest ∧ c ≠ '#' := by
  obtain ⟨c, rest, rfl⟩ := List.exists_cons_of_ne_nil hword.1
  have hcomment : c ≠ '#' := ne_of_mem_of_not_mem List.mem_cons_self (hword.not_mem (by decide))
  have hc : isSpacing c = false := by
    cases hspacing : isSpacing c with
    | false => rfl
    | true =>
        have hstops := Expression.stops_spacing hspacing [] c rfl
        cases hstops.1.symm.trans (hword.2 c List.mem_cons_self)
  refine ⟨c, rest ++ s, rfl, ?_, hcomment⟩
  rw [skipSpacing, List.cons_append, List.dropWhile_cons_of_neg (by rw [hc]; decide)]

/-- A variable is a whole file, if its value does not begin with a blank and is read to the end. -/
theorem TaskFile.parse_assigned {word source : String} {s : Text} {value : Value}
    (hword : IsWord word.toList) (hs : skipInline s = s) (hvalue : Item.value s = .ok (value, []))
    (hsource : source.toList = word.toList ++ ' ' :: '=' :: ' ' :: s) :
    TaskFile.parse source = .ok { vars := [⟨word, value⟩] } := by
  have hitem := Item.declaration_assigned hword hs
  rw [hvalue, String.ofList_toList] at hitem
  obtain ⟨c, rest, hstart, hskip, hplain⟩ := hword.exists_start (' ' :: '=' :: ' ' :: s)
  rw [hstart] at hitem
  have hend : (Item.variable ⟨word, value⟩).behind [] = .ok [] := rfl
  refine parse_eq_ok_iff.mpr (read_eq_ok_iff.mpr ⟨[.variable ⟨word, value⟩], ?_, rfl⟩)
  rw [hsource, items_cons hskip hplain hitem hend, items_of_blank rfl]

namespace Expression

/-! ## Texts with their closing braces in strings -/

/-- Outside of its strings a text has no closing brace, and its strings are closed. -/
inductive Unbraced : Text → Prop
  | nil : Unbraced []
  | plain {c : Char} {s : Text} : c ≠ '"' → c ≠ '}' → Unbraced s → Unbraced (c :: s)
  | string {inside s : Text} : IsQuoted '"' inside → Unbraced s →
      Unbraced ('"' :: (inside ++ '"' :: s))

namespace Unbraced

/-- A text without quotes and closing braces has no two of them outside of a literal. -/
theorem of_plain {s : Text} (h : ∀ c ∈ s, c ≠ '"' ∧ c ≠ '}') : Unbraced s := by
  induction s with
  | nil => exact .nil
  | cons c s ih =>
      obtain ⟨hc, hs⟩ := List.forall_mem_cons.mp h
      exact .plain hc.1 hc.2 (ih hs)

/-- Literals are closed where a text ends, so texts can be put together. -/
theorem append {s t : Text} (hs : Unbraced s) (ht : Unbraced t) : Unbraced (s ++ t) := by
  induction hs with
  | nil => exact ht
  | plain hquote hbrace _ ih => exact .plain hquote hbrace ih
  | string hinside _ ih =>
      rw [List.cons_append, List.append_assoc, List.cons_append]
      exact .string hinside ih

/-- Such a text begins with a character outside of literals, or with a whole literal. -/
theorem of_cons {c : Char} {s : Text} (h : Unbraced (c :: s)) :
    c ≠ '"' ∧ c ≠ '}' ∧ Unbraced s
      ∨ c = '"' ∧ ∃ inside rest, IsQuoted '"' inside ∧ s = inside ++ '"' :: rest
        ∧ Unbraced rest := by
  cases h with
  | plain hquote hbrace hs => exact .inl ⟨hquote, hbrace, hs⟩
  | string hinside hrest => exact .inr ⟨rfl, _, _, hinside, rfl, hrest⟩

/-- A closing brace in such a text stands in a string, which is not closed in front of it. -/
theorem not_append {s r : Text} (hs : Unbraced s) : ¬ Unbraced (s ++ '}' :: r) := by
  induction hs with
  | nil =>
      intro h
      obtain ⟨-, hbrace, -⟩ | ⟨hquote, -⟩ := h.of_cons
      · exact hbrace rfl
      · cases hquote
  | plain hquote _ _ ih =>
      intro h
      obtain ⟨-, -, hrest⟩ | ⟨hquote', -⟩ := h.of_cons
      · exact ih hrest
      · exact hquote hquote'
  | @string inside s hinside _ ih =>
      intro h
      obtain ⟨hquote, -⟩ | ⟨-, inside', rest, hinside', htext, hrest⟩ := h.of_cons
      · exact hquote rfl
      · -- both strings begin at the same quote, so they are the same one
        rw [List.append_eq, List.append_assoc, List.cons_append] at htext
        have hspan : quotedSpan '"' (inside ++ '"' :: (s ++ '}' :: r))
            = some (inside, s ++ '}' :: r) :=
          (quotedSpan_eq_some_iff (by decide)).mpr ⟨hinside, rfl⟩
        have hspan' := (quotedSpan_eq_some_iff (by decide)).mpr ⟨hinside', htext⟩
        obtain ⟨-, rfl⟩ := Prod.mk.inj (Option.some.inj (hspan.symm.trans hspan'))
        exact ih hrest

/-- The last character of such a text is no closing brace. -/
theorem getLast?_ne {s : Text} (h : Unbraced s) : s.getLast? ≠ some '}' := by
  induction h with
  | nil => exact nofun
  | @plain c s _ hbrace _ ih =>
      rw [List.getLast?_cons]
      cases hlast : s.getLast? with
      | none => exact fun h => hbrace (Option.some.inj h)
      | some d => rwa [hlast] at ih
  | @string inside s _ _ ih =>
      rw [← List.cons_append, List.getLast?_append, List.getLast?_cons]
      cases hlast : s.getLast? with
      | none => exact fun h => absurd (Option.some.inj h) (by decide)
      | some d => rwa [hlast] at ih

end Unbraced

/-! ## Expressions -/

/-- Words have neither quotes nor braces. -/
theorem unbraced_word {w : Text} (h : IsWord w) : Unbraced w :=
  .of_plain fun _ hc =>
    ⟨ne_of_mem_of_not_mem hc (h.not_mem (by decide)),
      ne_of_mem_of_not_mem hc (h.not_mem (by decide))⟩

/-- Nor have blanks. -/
theorem unbraced_spacing {blanks : Text} (h : ∀ c ∈ blanks, isSpacing c = true) :
    Unbraced blanks :=
  .of_plain fun c hc => by
    constructor <;>
    · rintro rfl
      exact absurd (h _ hc) (by decide)

/-- An operand is a literal, or words between points. -/
theorem Operand.Fits.unbraced {o : Operand} (h : o.Fits) : Unbraced o.text := by
  cases o with
  | path name properties =>
      refine (unbraced_word h.1).append ?_
      induction properties with
      | nil => exact .nil
      | cons property properties ih =>
          obtain ⟨hname, hproperties⟩ := h
          obtain ⟨hproperty, hmore⟩ := List.forall_mem_cons.mp hproperties
          exact .plain (by decide) (by decide)
            ((unbraced_word hproperty).append (ih ⟨hname, hmore⟩))
  | string inside => exact .string h .nil

/-- A bar and an operand with blanks around them. -/
theorem Link.Fits.unbraced {link : Link} (h : link.Fits) : Unbraced link.text :=
  (unbraced_spacing h.before).append (h.operand.unbraced.append (unbraced_spacing h.behind))

/-- So any number of them. -/
theorem unbraced_barred {more : List Link} (h : ∀ link ∈ more, link.Fits) :
    Unbraced (barred more) := by
  induction more with
  | nil => exact .nil
  | cons link more ih =>
      obtain ⟨hlink, hmore⟩ := List.forall_mem_cons.mp h
      exact .plain (by decide) (by decide)
        (.plain (by decide) (by decide) (hlink.unbraced.append (ih hmore)))

/-- **AN EXPRESSION HAS NO CLOSING BRACES OUTSIDE OF ITS LITERALS.** -/
theorem Chain.Fits.unbraced {chain : Chain} (h : chain.Fits) : Unbraced chain.text :=
  h.first.unbraced.append (unbraced_barred h.more)

/-- What is an expression is read as one. -/
theorem read_of_parse {s : Text} {e : Expression} (h : parse s = .ok e) : read s = .ok e := by
  rw [parse] at h
  split at h
  · rename_i hread
    rw [hread, Except.ok.inj h]
  · cases h

/-- What is read as an expression has its closing braces in strings. -/
theorem unbraced_of_parse {s : Text} {e : Expression} (h : parse s = .ok e) : Unbraced s := by
  obtain ⟨chain, hchain, rfl, -⟩ := read_eq_ok_iff.mp (read_of_parse h)
  exact hchain.unbraced

/-! ## Between braces -/

/-- Without two closing braces in it, an expression ends where the braces behind it begin. -/
theorem upThrough_braces {u : Text} (h : Unbraced u) (hmark : ¬ ['}', '}'] <:+: u) :
    upThrough ['}', '}'] (u ++ ['}', '}']) = some (u, []) := by
  have hinfix : ['}', '}'] <:+: u ++ ['}', '}'] := List.infix_append_of_infix_right List.infix_rfl
  cases hspan : upThrough ['}', '}'] (u ++ ['}', '}']) with
  | none => exact absurd hinfix (upThrough_eq_none_iff.mp hspan)
  | some found =>
      obtain ⟨inside, after⟩ := found
      have htext := append_of_upThrough hspan
      have hlength : inside.length ≤ u.length :=
        length_le_of_upThrough hspan (b := []) (by rw [List.append_nil])
      obtain ⟨r, rfl⟩ : inside <+: u :=
        List.prefix_of_prefix_length_le ⟨_, htext.symm⟩ (List.prefix_append _ _) hlength
      rw [List.append_assoc, List.append_cancel_left_eq] at htext
      -- what is left of the expression begins with the braces, or is one brace, or is nothing
      rcases r with _ | ⟨c, _ | ⟨d, r⟩⟩
      · cases htext
        rw [List.append_nil]
      · obtain rfl := (List.cons.inj htext).1
        exact absurd List.getLast?_concat h.getLast?_ne
      · obtain ⟨rfl, hrest⟩ := List.cons.inj htext
        obtain rfl := (List.cons.inj hrest).1
        exact absurd ⟨inside, r, by simp⟩ hmark

/-- With two closing braces in it, less is taken, and that is no expression. -/
theorem upThrough_braces_of_infix {u : Text} (h : Unbraced u) (hmark : ['}', '}'] <:+: u) :
    ∃ inside after fault, u = inside ++ '}' :: '}' :: after
      ∧ upThrough ['}', '}'] (u ++ ['}', '}']) = some (inside, after ++ ['}', '}'])
      ∧ read inside = .error fault := by
  cases hspan : upThrough ['}', '}'] u with
  | none => exact absurd hmark (upThrough_eq_none_iff.mp hspan)
  | some found =>
      obtain ⟨inside, after⟩ := found
      have htext := append_of_upThrough hspan
      cases hread : read inside with
      | ok e =>
          rw [htext] at h
          exact absurd h (unbraced_of_parse (by rw [parse, hread])).not_append
      | error fault =>
          exact ⟨inside, after, fault, htext, upThrough_append (by decide) hspan _, hread⟩

/-! ## Texts with an expression in braces -/

/-- Reading a variable comes to what stands behind its braces. -/
theorem declaration_braces {word : Text} (hword : IsWord word) (s : Text) :
    Item.declaration [] (word ++ ' ' :: '=' :: ' ' :: '{' :: '{' :: s)
      = match Item.bracedExpression ('{' :: '{' :: s) s with
        | .ok (value, rest) => .ok (.variable ⟨String.ofList word, value⟩, rest)
        | .error e => .error e :=
  Item.declaration_assigned hword rfl

/-- The characters of a variable whose value stands in braces. -/
theorem toList_variable (word u : String) :
    (word ++ " = \x7b\x7b" ++ u ++ "\x7d\x7d").toList
      = word.toList ++ ' ' :: '=' :: ' ' :: '{' :: '{' :: (u.toList ++ ['}', '}']) := by
  simp

/-- The characters of the braces alone. -/
theorem toList_braces (u : String) :
    ("\x7b\x7b" ++ u ++ "\x7d\x7d").toList = '{' :: '{' :: (u.toList ++ ['}', '}']) := by
  simp

/-- A line that begins with braces is cut where they are closed first. -/
theorem parseLine_braces {u inside after : Text}
    (h : upThrough ['}', '}'] (u ++ ['}', '}']) = some (inside, after)) :
    Element.parseLine ('{' :: '{' :: (u ++ ['}', '}']))
      = Element.joinTexts (Element.ofBraces inside :: Element.pieces after) := by
  rw [Element.parseLine, Element.pieces, Element.next, if_pos rfl]
  simp only [h]

/-- A variable whose braces are closed at their end has the expression for its value. -/
theorem parse_variable {word u : String} {e : Expression} (hword : IsWord word.toList)
    (h : parse u.toList = .ok e)
    (hspan : upThrough ['}', '}'] (u.toList ++ ['}', '}']) = some (u.toList, [])) :
    TaskFile.parse (word ++ " = \x7b\x7b" ++ u ++ "\x7d\x7d")
      = .ok { vars := [⟨word, .expression e⟩] } := by
  have hvalue : Item.value ('{' :: '{' :: (u.toList ++ ['}', '}'])) = .ok (.expression e, []) := by
    show Item.bracedExpression _ (u.toList ++ ['}', '}']) = _
    rw [Item.bracedExpression, hspan]
    simp only [h]
  exact TaskFile.parse_assigned hword rfl hvalue (toList_variable word u)

/-- One whose braces are closed before, inside of a literal, is refused with what stands before. -/
theorem parse_variable_error {word u : String} {inside after : Text} {fault : Fault}
    (hword : IsWord word.toList) (hread : read inside = .error fault)
    (hspan : upThrough ['}', '}'] (u.toList ++ ['}', '}']) = some (inside, after)) :
    ∃ place, TaskFile.parse (word ++ " = \x7b\x7b" ++ u ++ "\x7d\x7d")
      = .error (.invalidExpression (String.ofList (trim inside)) fault.1 place) := by
  have hinside : Item.bracedExpression ('{' :: '{' :: (u.toList ++ ['}', '}']))
      (u.toList ++ ['}', '}']) = .error (.invalidExpression (String.ofList (trim inside)) fault.1
        ('{' :: '{' :: (u.toList ++ ['}', '}']))) := by
    rw [Item.bracedExpression, hspan]
    simp only [parse, hread]
    rfl
  have hitem := declaration_braces hword (u.toList ++ ['}', '}'])
  rw [hinside] at hitem
  obtain ⟨c, rest, hstart, hskip, hplain⟩ := hword.exists_start
    (' ' :: '=' :: ' ' :: '{' :: '{' :: (u.toList ++ ['}', '}']))
  rw [hstart] at hitem
  refine ⟨Position.ofRest
    (word.toList ++ ' ' :: '=' :: ' ' :: '{' :: '{' :: (u.toList ++ ['}', '}']))
    ('{' :: '{' :: (u.toList ++ ['}', '}'])), ?_⟩
  rw [TaskFile.parse, TaskFile.read, toList_variable, items_of_error hskip hplain hitem]
  rfl

/-- **EXPRESSIONS BETWEEN BRACES**: an expression that has no two closing braces in it is read
    between double braces as it is read alone, both as the value of a variable and on a
    command line.  One that has them, which only its strings can have, is neither: the first
    two close it, what stands in front of them is no expression, and so the variable is
    refused, and on a command line the braces and what they close are plain text. -/
theorem braced_expressions_exact {u word : String} {e : Expression}
    (h : parse u.toList = .ok e) (hword : IsWord word.toList) :
    (¬ ['}', '}'] <:+: u.toList →
      TaskFile.parse (word ++ " = \x7b\x7b" ++ u ++ "\x7d\x7d")
          = .ok { vars := [⟨word, .expression e⟩] }
        ∧ Element.parseLine ("\x7b\x7b" ++ u ++ "\x7d\x7d").toList = [.expression e])
    ∧ (['}', '}'] <:+: u.toList → ∃ inside after, u.toList = inside ++ '}' :: '}' :: after
      ∧ (∃ fault place, TaskFile.parse (word ++ " = \x7b\x7b" ++ u ++ "\x7d\x7d")
          = .error (.invalidExpression (String.ofList (trim inside)) fault place))
      ∧ ∃ text rest, Element.parseLine ("\x7b\x7b" ++ u ++ "\x7d\x7d").toList
          = .text text :: rest ∧ '{' :: '{' :: (inside ++ ['}', '}']) <+: text.toList) := by
  have hunbraced := unbraced_of_parse h
  constructor
  · intro hmark
    have hspan := upThrough_braces hunbraced hmark
    refine ⟨parse_variable hword h hspan, ?_⟩
    rw [toList_braces, parseLine_braces hspan, Element.ofBraces, read_of_parse h, Element.pieces]
    rfl
  · intro hmark
    obtain ⟨inside, after, fault, htext, hspan, hread⟩ :=
      upThrough_braces_of_infix hunbraced hmark
    refine ⟨inside, after, htext, ⟨fault.1, parse_variable_error hword hread hspan⟩, ?_⟩
    rw [toList_braces, parseLine_braces hspan, Element.ofBraces, hread]
    exact Element.exists_joinTexts_ofText _ _

/-- An expression with a single closing brace at the end of its string. -/
def closingBrace : String := "name || \"\x7d\""

/-- An expression with two closing braces in its string. -/
def closingBraces : String := "\"\x7d\x7d\""

/-- The text is an expression by itself. -/
theorem parse_closingBrace :
    parse closingBrace.toList = .ok (.either (.identifier "name") (.literal "\x7d")) := by
  cbv

/-- So is this one. -/
theorem parse_closingBraces : parse closingBraces.toList = .ok (.literal "\x7d\x7d") := by
  cbv

/-- A string may end in a brace in front of the braces that close the expression. -/
theorem closing_brace_is_read :
    parse closingBrace.toList = .ok (.either (.identifier "name") (.literal "\x7d"))
      ∧ ¬ ['}', '}'] <:+: closingBrace.toList
      ∧ TaskFile.parse ("MODE" ++ " = \x7b\x7b" ++ closingBrace ++ "\x7d\x7d")
          = .ok { vars := [⟨"MODE", .expression (.either (.identifier "name") (.literal "\x7d"))⟩] }
      ∧ Element.parseLine ("\x7b\x7b" ++ closingBrace ++ "\x7d\x7d").toList
          = [.expression (.either (.identifier "name") (.literal "\x7d"))] := by
  have hword : IsWord "MODE".toList := ⟨by decide, List.all_eq_true.mp (by decide)⟩
  have hmark : ¬ ['}', '}'] <:+: closingBrace.toList := by decide +kernel
  exact ⟨parse_closingBrace, hmark, (braced_expressions_exact parse_closingBrace hword).1 hmark⟩

/-- Not every expression can be written between braces: two closing braces in a string end it. -/
theorem braces_may_close_too_early :
    ¬ ∀ (u word : String) (e : Expression), '\n' ∉ u.toList → parse u.toList = .ok e →
      IsWord word.toList →
        TaskFile.parse (word ++ " = \x7b\x7b" ++ u ++ "\x7d\x7d")
            = .ok { vars := [⟨word, .expression e⟩] }
          ∧ Element.parseLine ("\x7b\x7b" ++ u ++ "\x7d\x7d").toList = [.expression e] := by
  intro hall
  have hword : IsWord "X".toList := ⟨by decide, List.all_eq_true.mp (by decide)⟩
  have hline : Element.parseLine ("\x7b\x7b" ++ closingBraces ++ "\x7d\x7d").toList
      = [.text "\x7b\x7b\"\x7d\x7d\"\x7d\x7d"] := by
    decide +kernel
  have hread := (hall closingBraces "X" _ (by decide +kernel) parse_closingBraces hword).2
  cases hline.symm.trans hread

end Expression
end TaskRunner
