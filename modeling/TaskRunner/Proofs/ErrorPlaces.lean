import TaskRunner.Proofs.CommandSpelling
import TaskRunner.Proofs.ReadingRuns

/-! # Errors point at what they name

    While a text is read, the place of an error is the text still to come there.  So an
    error is at a place of the file if that is an end of the file, and it points at what it
    names if that end begins with it (**`ParseError.Placed`**).

    Some errors are raised far from the place that they point at.  The scanner of a block
    reaches the end of the text and blames a brace or a quote that it has passed; what it
    keeps of them is placed from the start (`scanBlock_error`).  An error in an expression
    is at a place of the text between the braces, and is moved to the braces.  The nesting
    raises errors about items that were read before, so the items that hold places, and the
    open blocks, hold places of the file (`Item.Placed`, `Nesting.Placed`).

    Every error that reading a file ends with is placed (`TaskFile.read_placed`), and hence
    **`errors_point_at_what_they_name`**. -/

namespace TaskRunner

open Text

/-! ## Places -/

namespace Text

/-- A text begins with the keyword of a namespace and, behind blanks, the name. -/
def DeclaresNamespace (name s : Text) : Prop :=
  IsWord name ∧ ∃ blanks after, blanks ≠ [] ∧ (∀ c ∈ blanks, isInlineBlank c = true) ∧
    EndsWord after ∧ s = "namespace".toList ++ (blanks ++ (name ++ after))

/-- What a message quotes of the line that a text begins with: the line without the blanks at its
end, and of that at most forty characters. -/
def QuotesLine (quoted s : Text) : Prop :=
  ∃ more blanks after, s = quoted ++ (more ++ (blanks ++ after)) ∧
    '\n' ∉ quoted ++ (more ++ blanks) ∧ (∀ c ∈ after.head?, c = '\n') ∧
    (∀ c ∈ blanks, isBlank c = true) ∧ (∀ c ∈ (quoted ++ more).getLast?, isBlank c = false) ∧
    quoted.length ≤ 40 ∧ (more ≠ [] → quoted.length = 40)

/-- At a place of the text there is an opening brace. -/
def IsBrace (source place : Text) : Prop := place <:+ source ∧ ['{'] <+: place

/-- What is eaten stands at the start. -/
theorem prefix_of_eat {word s rest : Text} (h : eat word s = some rest) : word <+: s :=
  ⟨rest, (eat_eq_some_iff.mp h).symm⟩

/-- No task name runs on from a keyword. -/
theorem head_of_eatKeyword {word s rest : Text} (h : eatKeyword word s = some rest) :
    ∀ c ∈ rest.head?, isTaskNameChar c = false := by
  rw [eatKeyword] at h
  split at h
  · cases h
  · obtain rfl := Option.some.inj h
    intro c hc
    cases hc
  · split at h
    · cases h
    · rename_i hplain
      obtain rfl := Option.some.inj h
      intro c hc
      obtain rfl := Option.some.inj hc
      exact Bool.eq_false_iff.mpr hplain

end Text

namespace ParseError

/-- A text begins with what an error names: the mark or the braces that are not closed, the braces
around what is no expression, the line that was not expected, as far as it is quoted, or the
declaration of a namespace.  What was expected is not there, but where it is the end of a list its
beginning is. -/
def PointsAt {ρ : Type} (s : Text) : ParseError ρ → Prop
  | .unterminatedQuote mark _ => (mark = '"' ∨ mark = '\'') ∧ [mark] <+: s
  | .unterminatedBlock kind _ => kind ≠ .block ∧ ['{'] <+: s
  | .unterminatedMultiline _ => ['"', '"', '"'] <+: s
  | .unterminatedSubstitution _ => ['`'] <+: s
  | .unterminatedExpression _ => ['{', '{'] <+: s
  | .invalidExpression _ _ _ => ['{', '{'] <+: s
  | .expected what _ => what = .argumentListEnd → ['('] <+: s
  | .unexpectedInput found _ => QuotesLine found.toList s
  | .duplicateFileNamespace _ second _ => DeclaresNamespace second.toList s
  | .mixedNamespaceForms _ _ => ∃ name, DeclaresNamespace name s

/-- What an error names does not depend on how its place is said. -/
theorem pointsAt_map {ρ σ : Type} (f : ρ → σ) (s : Text) (e : ParseError ρ) :
    (e.map f).PointsAt s ↔ e.PointsAt s := by
  cases e <;> exact Iff.rfl

/-- An error is at a place of a text and points there at what it names. -/
def Placed (s : Text) (e : ParseError Text) : Prop := e.place <:+ s ∧ e.PointsAt e.place

/-- What is placed in the end of a text is placed in the text. -/
theorem Placed.mono {s t : Text} {e : ParseError Text} (h : e.Placed t) (hs : t <:+ s) :
    e.Placed s :=
  ⟨h.1.trans hs, h.2⟩

/-- Only the end of a list of arguments is missed at the place where something else began. -/
theorem placed_expected {s place : Text} {what : Expectation} (hwhat : what ≠ .argumentListEnd)
    (hplace : place <:+ s) : Placed s (.expected what place) :=
  ⟨hplace, fun hend => absurd hend hwhat⟩

/-- A brace is to blame where a brace stands. -/
theorem placed_unterminatedBlock {s brace : Text} {kind : BlockKind} (hkind : kind ≠ .block)
    (hbrace : IsBrace s brace) : Placed s (.unterminatedBlock kind brace) :=
  ⟨hbrace.1, hkind, hbrace.2⟩

end ParseError

open ParseError

/-! ## Blocks -/

namespace Text

/-- What a scanner is inside of began in the text, where the mark stands. -/
def Inside.Placed (source : Text) : Inside → Prop
  | .quotes mark opening =>
    (mark = '"' ∨ mark = '\'') ∧ opening <:+ source ∧ [mark] <+: opening
  | _ => True

/-- What was read before a scan fails does not change its error. -/
theorem error_of_prepend {read : Text} {scan : Except (ParseError Text) (Text × Text)}
    {e : ParseError Text} (h : prepend read scan = .error e) : scan = .error e := by
  cases scan with
  | error e' => exact h
  | ok found => cases h

/-- Where a brace is open inside, the block is blamed on a brace of the text. -/
theorem unclosed_placed {source : Text} {opens : List Text}
    (hopens : ∀ brace ∈ opens, IsBrace source brace) :
    unclosed opens = .unterminatedBlock .block [] ∨ (unclosed opens).Placed source := by
  rw [unclosed]
  cases hlast : opens.getLast? with
  | none => exact Or.inl rfl
  | some brace =>
      have hbrace : IsBrace source brace := hopens brace (List.mem_of_getLast? hlast)
      exact Or.inr (placed_unterminatedBlock (by decide) hbrace)

/-- **A SCAN THAT FAILS** blames the block itself, or else a brace or a quote of the text. -/
theorem scanBlock_error {source : Text} {opens : List Text} {inside : Inside} {s : Text}
    {e : ParseError Text} (hs : s <:+ source) (hopens : ∀ brace ∈ opens, IsBrace source brace)
    (hinside : inside.Placed source) (h : scanBlock opens inside s = .error e) :
    e = .unterminatedBlock .block [] ∨ e.Placed source := by
  have htail : ∀ {c : Char} {rest : Text}, c :: rest <:+ source → rest <:+ source := by
    intro c rest hrest
    exact (List.suffix_cons c rest).trans hrest
  -- the scan goes on in an end of the text, and only braces and quotes that it passes are kept
  fun_induction scanBlock opens inside s with
  | case1 opens mark opening =>
      obtain rfl := Except.error.inj h
      exact Or.inr ⟨hinside.2.1, hinside.1, hinside.2.2⟩
  | case2 opens mark opening =>
      obtain rfl := Except.error.inj h
      exact Or.inr ⟨hinside.2.1, hinside.1, hinside.2.2⟩
  | case3 opens mark opening d rest ih =>
      exact ih (htail (htail hs)) hopens hinside (error_of_prepend h)
  | case5 opens mark opening c rest hescape hclose ih =>
      exact ih (htail hs) hopens hinside (error_of_prepend h)
  | case6 opens | case9 opens | case17 opens =>
      obtain rfl := Except.error.inj h
      exact unclosed_placed hopens
  | case13 => cases h
  | case14 =>
      rename_i ih
      exact ih (htail hs) (List.forall_mem_cons.mp hopens).2 trivial (error_of_prepend h)
  | case15 opens here c rest hfeed hblank hcomment hclose hquote ih =>
      exact ih (htail hs) hopens ⟨hquote, hs, rest, rfl⟩ (error_of_prepend h)
  | case16 opens here rest hfeed hblank hcomment hclose hquote ih =>
      exact ih (htail hs) (List.forall_mem_cons.mpr ⟨⟨hs, rest, rfl⟩, hopens⟩) trivial
        (error_of_prepend h)
  | case18 opens here d rest hfeed hblank hcomment hclose hquote hopen ih =>
      exact ih (htail (htail hs)) hopens trivial (error_of_prepend h)
  | _ =>
      rename_i ih
      exact ih (htail hs) hopens trivial (error_of_prepend h)

end Text

namespace Item

/-! ## Variables -/

/-- An error in an expression is moved to its braces. -/
theorem bracedExpression_placed {s rest : Text} {e : ParseError Text}
    (hs : eat ['{', '{'] s = some rest) (h : bracedExpression s rest = .error e) : e.Placed s := by
  rw [bracedExpression] at h
  split at h
  · obtain rfl := Except.error.inj h
    exact ⟨List.suffix_rfl, prefix_of_eat hs⟩
  · split at h
    · cases h
    · rename_i e' hparse
      obtain rfl := Except.error.inj h
      rw [Expression.parse] at hparse
      split at hparse
      · cases hparse
      · obtain rfl := Except.error.inj hparse
        exact ⟨List.suffix_rfl, prefix_of_eat hs⟩

/-- A value that fails began with the mark that is not closed, or did not begin at all. -/
theorem value_placed {s : Text} {e : ParseError Text} (h : value s = .error e) : e.Placed s := by
  rw [value] at h
  split at h
  · rename_i hstart
    rw [multiline] at h
    split at h
    · cases h
    · obtain rfl := Except.error.inj h
      exact ⟨List.suffix_rfl, prefix_of_eat hstart⟩
  · split at h
    · rename_i hstart
      rw [substitution] at h
      split at h
      · cases h
      · obtain rfl := Except.error.inj h
        exact ⟨List.suffix_rfl, prefix_of_eat hstart⟩
    · split at h
      · rename_i hstart
        exact bracedExpression_placed hstart h
      · split at h
        · rename_i hstart
          rw [quotedString] at h
          split at h
          · cases h
          · obtain rfl := Except.error.inj h
            exact ⟨List.suffix_rfl, Or.inl rfl, prefix_of_eat hstart⟩
        · obtain rfl := Except.error.inj h
          exact placed_expected (by decide) List.suffix_rfl

/-! ## Tasks -/

/-- Arguments that are not closed are blamed where they open. -/
theorem arguments_placed {s : Text} {e : ParseError Text} (h : arguments s = .error e) :
    e.Placed s := by
  rw [arguments] at h
  split at h
  · cases h
  · rename_i hstart
    split at h
    · obtain rfl := Except.error.inj h
      exact ⟨List.suffix_rfl, fun _ => prefix_of_eat hstart⟩
    · cases h

/-- Where no brace is to blame inside of the body of a task, its own brace is. -/
theorem body_placed {s : Text} {e : ParseError Text} (h : body s = .error e) : e.Placed s := by
  rw [body] at h
  split at h
  · cases h
  · rename_i rest hstart
    have hrest : rest <:+ s := (suffix_of_eat hstart).trans (List.dropWhile_suffix _)
    split at h
    · cases h
    · obtain rfl := Except.error.inj h
      exact placed_unterminatedBlock (by decide) ⟨List.dropWhile_suffix _, prefix_of_eat hstart⟩
    · rename_i e' hblock hscan
      obtain rfl := Except.error.inj h
      have hcode : Inside.Placed s (.code false) := trivial
      rcases scanBlock_error hrest (List.forall_mem_nil _) hcode hscan with rfl | hplaced
      · exact absurd rfl (hblock _)
      · exact hplaced

/-- A task fails at its name, in its arguments or in its body. -/
theorem taskDeclaration_placed {description : Option String} {s : Text} {e : ParseError Text}
    (h : taskDeclaration description s = .error e) : e.Placed s := by
  have hname : skipInline s <:+ s := List.dropWhile_suffix _
  have hhead : skipInline ((skipInline s).dropWhile isTaskNameChar) <:+ s :=
    (List.dropWhile_suffix _).trans ((List.dropWhile_suffix _).trans hname)
  rw [taskDeclaration] at h
  split at h
  · obtain rfl := Except.error.inj h
    exact placed_expected (by decide) hname
  · split at h
    · rename_i hargs
      obtain rfl := Except.error.inj h
      exact (arguments_placed hargs).mono hhead
    · rename_i hargs
      split at h
      · rename_i hbody
        obtain rfl := Except.error.inj h
        exact (body_placed hbody).mono
          ((dependencies_suffix _).trans ((arguments_suffix hargs).trans hhead))
      · cases h

/-! ## Items -/

/-- The places that an item keeps are places of the text, and look as they should. -/
def Placed (source : Text) : Item → Prop
  | .opening name start brace =>
    start <:+ source ∧ DeclaresNamespace name.toList start ∧ IsBrace source brace
  | .closing place => place <:+ source
  | .fileNamespace name start after =>
    start <:+ source ∧ DeclaresNamespace name.toList start ∧ after <:+ source
  | _ => True

/-- What is placed in the end of a text is placed in the text. -/
theorem Placed.mono {s t : Text} {item : Item} (h : item.Placed t) (hs : t <:+ s) :
    item.Placed s := by
  cases item with
  | opening name start brace => exact ⟨h.1.trans hs, h.2.1, h.2.2.1.trans hs, h.2.2.2⟩
  | closing place => exact List.IsSuffix.trans h hs
  | fileNamespace name start after => exact ⟨h.1.trans hs, h.2.1, h.2.2.trans hs⟩
  | _ => trivial

/-- What is found where no item starts quotes the line there. -/
theorem quotesLine_found (s : Text) : QuotesLine (found s).toList s := by
  let line := s.takeWhile (· != '\n')
  have htrimmed : trimEnd line ++ line.rtakeWhile isBlank = line :=
    List.rdropWhile_append_rtakeWhile
  have hline : (trimEnd line).take 40 ++ ((trimEnd line).drop 40 ++ line.rtakeWhile isBlank)
      = line := by
    rw [← List.append_assoc, List.take_append_drop, htrimmed]
  rw [found, String.toList_ofList]
  refine ⟨(trimEnd line).drop 40, line.rtakeWhile isBlank, s.dropWhile (· != '\n'),
    ?whole, ?one, ?ends, ?blank, ?trimmed, ?short, ?full⟩
  case whole =>
      rw [← List.append_assoc, ← List.append_assoc, List.append_assoc (List.take ..), hline]
      exact (List.takeWhile_append_dropWhile ..).symm
  case one =>
      rw [hline]
      intro hfeed
      exact absurd (List.mem_takeWhile_imp hfeed) (by decide)
  case ends =>
      intro c hc
      have hhead := List.head?_dropWhile_not (· != '\n') s
      rw [Option.mem_def.mp hc] at hhead
      simpa using hhead
  case blank => exact fun c hc => List.mem_rtakeWhile_imp hc
  case trimmed =>
      intro c hc
      rw [List.take_append_drop] at hc
      exact getLast_trimEnd c hc
  case short => exact List.length_take_le ..
  case full =>
      intro hmore
      have hlong : 40 < (trimEnd line).length := by
        have hpos := List.length_pos_iff.mpr hmore
        rw [List.length_drop] at hpos
        omega
      rw [List.length_take, Nat.min_eq_left hlong.le]

/-- Behind the keyword there are blanks and a word. -/
theorem declaresNamespace {s rest : Text} (hkeyword : eatKeyword "namespace".toList s = some rest)
    (hword : IsWord ((skipInline rest).takeWhile isWordChar)) :
    DeclaresNamespace ((skipInline rest).takeWhile isWordChar) s := by
  refine ⟨hword, rest.takeWhile isInlineBlank, (skipInline rest).dropWhile isWordChar,
    ?_, ?_, ?_, ?_⟩
  · -- without a blank the keyword would run on into the name
    intro hnone
    have hskip : skipInline rest = rest := by
      have hboth := List.takeWhile_append_dropWhile (p := isInlineBlank) (l := rest)
      rwa [hnone, List.nil_append] at hboth
    rw [hskip] at hword
    obtain ⟨c, more, hrest⟩ := List.exists_cons_of_ne_nil hword.1
    have hc : isTaskNameChar c = true :=
      isTaskNameChar_of_isWordChar (hword.2 c (hrest ▸ List.mem_cons_self))
    have hhead : c ∈ rest.head? := by
      obtain ⟨back, hback⟩ := List.takeWhile_prefix (l := rest) isWordChar
      rw [← hback, hrest]
      rfl
    rw [head_of_eatKeyword hkeyword c hhead] at hc
    cases hc
  · intro c hc
    exact List.mem_takeWhile_imp hc
  · intro c hc
    have hhead := List.head?_dropWhile_not isWordChar (skipInline rest)
    rw [Option.mem_def.mp hc] at hhead
    exact hhead
  · rw [List.takeWhile_append_dropWhile, skipInline, List.takeWhile_append_dropWhile]
    exact eat_of_eatKeyword hkeyword

/-- A namespace fails only at its name. -/
theorem namespaceDeclaration_placed {s rest : Text} {e : ParseError Text} (hrest : rest <:+ s)
    (h : namespaceDeclaration s rest = .error e) : e.Placed s := by
  rw [namespaceDeclaration] at h
  split at h
  · obtain rfl := Except.error.inj h
    exact placed_expected (by decide) ((List.dropWhile_suffix _).trans hrest)
  · dsimp only at h
    split at h
    · cases h
    · cases h

/-- **AN ERROR IN A DECLARATION** is placed. -/
theorem declaration_placed {doc : List Text} {s : Text} {e : ParseError Text}
    (h : declaration doc s = .error e) : e.Placed s := by
  rw [declaration] at h
  split at h
  · cases h
  · split at h
    · rename_i hassign
      split at h
      · cases h
      · rename_i hvalue
        obtain rfl := Except.error.inj h
        obtain ⟨c, tail, rfl, hrest⟩ := assignment?_suffix hassign
        exact (value_placed hvalue).mono (hrest.trans (List.suffix_cons c tail))
    · split at h
      · rename_i hkeyword
        split at h
        · cases h
        · rename_i htask
          obtain rfl := Except.error.inj h
          exact (taskDeclaration_placed htask).mono (suffix_of_eatKeyword hkeyword)
      · split at h
        · rename_i hkeyword
          exact namespaceDeclaration_placed (suffix_of_eatKeyword hkeyword) h
        · obtain rfl := Except.error.inj h
          exact ⟨List.suffix_rfl, quotesLine_found s⟩

/-- **THE PLACES THAT AN ITEM KEEPS** are placed. -/
theorem placed_of_declaration {doc : List Text} {s rest : Text} {item : Item}
    (h : declaration doc s = .ok (item, rest)) : item.Placed s := by
  rw [declaration_eq_ok_iff] at h
  cases h with
  | closing hbrace => exact List.suffix_rfl
  | assignment hassign hvalue => exact True.intro
  | task hassign hkeyword htask => exact True.intro
  | @namespaced after _ _ hassign hkeyword hnamespace =>
      obtain ⟨name, behind, rfl, hname, rfl, hitem⟩ := namespaceDeclaration_cases hnamespace
      have hdeclares := declaresNamespace hkeyword hname
      rw [← String.toList_ofList (l := (skipInline after).takeWhile isWordChar)] at hdeclares
      have hbehind : skipInline ((skipInline after).dropWhile isWordChar) <:+ s :=
        (List.dropWhile_suffix _).trans ((List.dropWhile_suffix _).trans
          ((List.dropWhile_suffix _).trans (suffix_of_eatKeyword hkeyword)))
      rcases hitem with ⟨hbrace, rfl⟩ | rfl
      · exact ⟨List.suffix_rfl, hdeclares, hbehind, prefix_of_eat hbrace⟩
      · exact ⟨List.suffix_rfl, hdeclares, hbehind⟩

/-- What stands behind an item in its line is not expected there. -/
theorem endOfItem_placed {s : Text} {e : ParseError Text} (h : endOfItem s = .error e) :
    e.Placed s := by
  rw [endOfItem] at h
  split at h
  · cases h
  · split at h
    · cases h
    · obtain rfl := Except.error.inj h
      exact placed_expected (by decide) (skipComment_suffix s)

/-- Behind an opening brace there may stand anything. -/
theorem behind_placed {item : Item} {s : Text} {e : ParseError Text}
    (h : item.behind s = .error e) : e.Placed s := by
  rw [behind.eq_def] at h
  split at h
  · cases h
  · exact endOfItem_placed h

end Item

/-! ## All items of a text -/

/-- A text that begins with no item, and with no comment, has no items. -/
theorem items_of_error {s rest : Text} {c : Char} {e : ParseError Text}
    (hstart : skipSpacing s = c :: rest) (hplain : c ≠ '#')
    (hitem : Item.declaration [] (c :: rest) = .error e) : items s = ([], some e) := by
  rw [items_eq, Item.leadingComments_of_ne hstart hplain, itemsFrom, hitem]

open Item in
/-- **THE READER'S ITEMS AND ITS ERROR ARE PLACED.** -/
theorem Reads.placed {s : Text} {found : List Item} {failure : Option (ParseError Text)}
    (h : Reads s found failure) :
    (∀ item ∈ found, item.Placed s) ∧ ∀ e ∈ failure, e.Placed s := by
  have hstart : ∀ {s t : Text} {doc : List Text}, leadingComments [] s = (doc, t) → t <:+ s := by
    intro s t doc hlead
    have hsuffix := leadingComments_suffix [] s
    rwa [hlead] at hsuffix
  induction h with
  | atEnd =>
      refine ⟨List.forall_mem_nil _, ?_⟩
      intro e he
      cases he
  | noItem hlead hitem =>
      refine ⟨List.forall_mem_nil _, ?_⟩
      intro e he
      obtain rfl := Option.some.inj he
      exact (declaration_placed hitem).mono (hstart hlead)
  | noEnd hlead hitem hend =>
      refine ⟨List.forall_mem_singleton.mpr ((placed_of_declaration hitem).mono (hstart hlead)), ?_⟩
      intro e he
      obtain rfl := Option.some.inj he
      exact (behind_placed hend).mono ((declaration_suffix hitem).trans (hstart hlead))
  | item hlead hitem hend _ ih =>
      have hnext := (behind_suffix hend).trans ((declaration_suffix hitem).trans (hstart hlead))
      refine ⟨List.forall_mem_cons.mpr ⟨(placed_of_declaration hitem).mono (hstart hlead), ?_⟩, ?_⟩
      · intro item hmem
        exact (ih.1 item hmem).mono hnext
      · intro e he
        exact (ih.2 e he).mono hnext

/-! ## Items in a nesting -/

namespace Nesting

variable {n m : Nesting} {source : Text} {item : Item}

/-- Where the braces of the open blocks stand. -/
def braces (n : Nesting) : List Text := n.blocks.map (·.brace)

/-- A variable opens no block. -/
theorem braces_addVariable (n : Nesting) (v : Variable) : (n.addVariable v).braces = n.braces := by
  obtain ⟨file, _ | ⟨block, outer⟩⟩ := n <;> rfl

/-- Nor does a task. -/
theorem braces_addTask (n : Nesting) (task : Task) : (n.addTask task).braces = n.braces := by
  obtain ⟨file, _ | ⟨block, outer⟩⟩ := n <;> rfl

/-- And a block that is closed is not open. -/
theorem braces_addNamespace (n : Nesting) (ns : Namespace) :
    (n.addNamespace ns).braces = n.braces := by
  obtain ⟨file, _ | ⟨block, outer⟩⟩ := n <;> rfl

/-- The braces of the open blocks are braces of the text. -/
def Placed (source : Text) (n : Nesting) : Prop := ∀ brace ∈ n.braces, IsBrace source brace

/-- **AN ITEM WITH PLACES LEAVES A NESTING PLACED.** -/
theorem Placed.add (hn : n.Placed source) (hitem : item.Placed source)
    (h : n.add item = .ok m) : m.Placed source := by
  cases adds_of_add h with
  | «variable» v => rwa [Placed, braces_addVariable]
  | task declared => rwa [Placed, braces_addTask]
  | opening hform => exact List.forall_mem_cons.mpr ⟨hitem.2.2, hn⟩
  | closing hblocks =>
      rw [Placed, braces, hblocks] at hn
      rw [Placed, braces_addNamespace]
      exact (List.forall_mem_cons.mp hn).2
  | fileNamespace hblocks hform => exact hn

/-- **AN ITEM THAT DOES NOT BELONG WHERE IT STANDS** is blamed at a place of its own. -/
theorem add_error_placed {e : ParseError Text} (hitem : item.Placed source)
    (h : n.add item = .error e) : e.Placed source := by
  cases item with
  | «variable» v => cases h
  | task declared => cases h
  | opening name start brace =>
      rw [add, openBlock] at h
      split at h
      · obtain rfl := Except.error.inj h
        exact ⟨hitem.1, _, hitem.2.1⟩
      · cases h
  | closing place =>
      rw [add, closeBlock] at h
      split at h
      · obtain rfl := Except.error.inj h
        exact ⟨hitem, Item.quotesLine_found place⟩
      · cases h
  | fileNamespace name start after =>
      rw [add, nameFile] at h
      split at h
      · obtain rfl := Except.error.inj h
        exact placed_expected (by decide) hitem.2.2
      · obtain rfl := Except.error.inj h
        exact ⟨hitem.1, hitem.2.1⟩
      · split at h
        · cases h
        · obtain rfl := Except.error.inj h
          exact ⟨hitem.1, _, hitem.2.1⟩

/-- At the end of the text the innermost open block is blamed at its brace. -/
theorem finish_error_placed {e : ParseError Text} (hn : n.Placed source)
    (h : n.finish = .error e) : e.Placed source := by
  rw [finish] at h
  split at h
  · cases h
  · rename_i block outer hblocks
    obtain rfl := Except.error.inj h
    have hmem : block ∈ n.blocks := hblocks ▸ List.mem_cons_self
    exact placed_unterminatedBlock (by decide) (hn block.brace (List.mem_map_of_mem hmem))

end Nesting

/-! ## Whole files -/

namespace TaskFile

/-- **EVERY ERROR OF A FILE IS PLACED**, be it in an item, behind one, or about how items are
nested. -/
theorem read_placed {s : Text} {e : ParseError Text} (h : read s = .error e) : e.Placed s := by
  obtain ⟨hitems, hfailure⟩ := (reads_items s).placed
  have hempty : Nesting.empty.Placed s := List.forall_mem_nil _
  have hadd : ∀ item ∈ (items s).1, ∀ n m : Nesting, n.Placed s → n.add item = .ok m →
      m.Placed s := by
    intro item hmem n m hn hm
    exact hn.add (hitems item hmem) hm
  rcases read_error h with hitem | hitem | ⟨n, hall, hfinish⟩
  · obtain ⟨item, hmem, n, -, herror⟩ := Nesting.exists_of_addAll_error hadd hempty hitem
    exact Nesting.add_error_placed (hitems item hmem) herror
  · exact hfailure e hitem
  · exact Nesting.finish_error_placed (Nesting.addAll_preserves hadd hempty hall) hfinish

/-- The position of a place is the one of the octets in front of it. -/
theorem lineColumn_of_append (before rest : Text) :
    lineColumn (before ++ rest) (octets before) = Position.ofRest (before ++ rest) rest := by
  rw [lineColumn, takeOctets_octets, Position.ofRest]
  simp

/-- **ERRORS POINT AT WHAT THEY NAME**: where a text is refused, its line and column are those of an
    offset between two characters, and the text behind that offset begins with what the error
    names: the quote, the brace or the other marks that are not closed, the braces of the
    expression, the line that was not expected, or the declaration of a namespace. -/
theorem errors_point_at_what_they_name {source : String} {e : ParseError Position}
    (h : parse source = .error e) :
    ∃ before rest, source.toList = before ++ rest ∧
      lineColumn source.toList (octets before) = e.place ∧ e.PointsAt rest := by
  rw [parse] at h
  split at h
  · cases h
  · rename_i e' hread
    obtain rfl := Except.error.inj h
    obtain ⟨⟨before, hbefore⟩, hpoints⟩ := read_placed hread
    refine ⟨before, e'.place, hbefore.symm, ?_, ?_⟩
    · rw [← hbefore, lineColumn_of_append, hbefore, ParseError.locate, ParseError.place_map]
    · exact (ParseError.pointsAt_map _ _ _).mpr hpoints

/-- A task whose body is cut off where two braces were opened inside, and one of them closed. -/
def cutOff : String := "v = \"é\"\ntask b \x7b\n  é \x7b \x7b \x7d\n"

/-- The error is at the outer one of the two braces inside. -/
theorem parse_cutOff : parse cutOff = .error (.unterminatedBlock .nested ⟨3, 5⟩) := by
  rewrite [parse, read,
    items_cons (by cbv) (by decide) (by cbv) (by cbv),
    items_of_error (by cbv) (by decide) (by cbv)]
  rfl

/-- The outermost brace that is open inside is blamed, and its column counts characters. -/
theorem outermost_brace_is_blamed :
    ∃ before rest, cutOff.toList = before ++ rest ∧
      lineColumn cutOff.toList (octets before) = ⟨3, 5⟩ ∧ ['{'] <+: rest := by
  obtain ⟨before, rest, happend, hposition, -, hbrace⟩ :=
    errors_point_at_what_they_name parse_cutOff
  exact ⟨before, rest, happend, hposition, hbrace⟩

end TaskFile

end TaskRunner
