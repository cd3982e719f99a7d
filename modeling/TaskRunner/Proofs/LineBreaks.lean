import TaskRunner.Proofs.CarriageReturns
import TaskRunner.Proofs.Declarations
import TaskRunner.Proofs.LineStarts

/-! # Line breaks

    Each reader of an item comes to the same thing when there is a carriage return in front of
    each line feed of the text, and leaves the same text with carriage returns.  Only a line
    of dependencies takes the carriage return at its end, so what it leaves may begin with
    the bare line feed (`Leaves`); a body goes over it, or else it ends the item
    (`endOfItem_withReturns`).  What keeps its line feeds is what stands between the marks of
    a value, and inside of the name of an argument: there must be none (`Item.texts`).

    From the readers this goes over to an item and what stands behind it
    (`declaration_withReturns`), to the comment lines above it
    (`leadingComments_withReturns`), and by induction on the run of the reader to all items
    (**`Reads.withReturns`**).  All that an item holds is found in the file again, so it is
    enough to look at the file: where no value and no name of an argument in it has a line
    feed, **the text with carriage returns is read as the same file**. -/

namespace TaskRunner

open Text

/-! ## Values -/

/-- What stands in a value between marks: the one text, or the strings of an expression, whose
names are words and never go over a line. -/
def Value.texts : Value → List String
  | .literal text | .substitution text | .multiline text => [text]
  | .expression e => e.literals

namespace Item

/-- The line end behind three quotes may be of either kind. -/
theorem firstLineEnd_withReturns {s : Text} (hs : '\r' ∉ s) :
    (eat ['\r', '\n'] (withReturns s) <|> eat ['\n'] (withReturns s)).getD (withReturns s)
      = withReturns ((eat ['\r', '\n'] s <|> eat ['\n'] s).getD s) := by
  cases s with
  | nil => rfl
  | cons c s =>
      rw [List.mem_cons, not_or] at hs
      by_cases hc : c = '\n'
      · subst hc
        rfl
      · have hnone : ∀ t : Text, eat ['\r', '\n'] (c :: t) = none ∧ eat ['\n'] (c :: t) = none := by
          intro t
          rw [eat, if_neg hs.1, eat, if_neg (Ne.symm hc)]
          exact ⟨rfl, rfl⟩
        rw [withReturns_cons hc, (hnone _).1, (hnone _).2, (hnone _).1, (hnone _).2]
        exact (withReturns_cons hc s).symm

/-- A block of lines would keep its carriage returns, so it must be of one line. -/
theorem multiline_withReturns {start start' s rest : Text} {v : Value} (hs : PlainFeeds s)
    (h : multiline start s = .ok (v, rest)) (hline : Unbroken v.texts) :
    multiline start' (withReturns s) = .ok (v, withReturns rest) := by
  unfold multiline at h
  dsimp only at h
  split at h
  · rename_i inside after hthrough
    obtain ⟨rfl, rfl⟩ := Prod.mk.inj (Except.ok.inj h)
    have hthrough' := upThrough_withReturns (by decide) (by decide) hthrough
    rw [withReturns_line (hline.not_mem List.mem_cons_self)] at hthrough'
    rw [multiline]
    simp only [firstLineEnd_withReturns hs.returnless, hthrough']
  · cases h

/-- A command that is captured is of one line, too. -/
theorem substitution_withReturns {start start' s rest : Text} {v : Value}
    (h : substitution start s = .ok (v, rest)) (hline : Unbroken v.texts) :
    substitution start' (withReturns s) = .ok (v, withReturns rest) := by
  unfold substitution at h
  split at h
  · rename_i inside after hthrough
    obtain ⟨rfl, rfl⟩ := Prod.mk.inj (Except.ok.inj h)
    have hthrough' := upThrough_withReturns (by decide) (by decide) hthrough
    rw [withReturns_line (hline.not_mem List.mem_cons_self)] at hthrough'
    rw [substitution, hthrough']
  · cases h

/-- Braces may be of many lines, if their literals are not. -/
theorem bracedExpression_withReturns {start start' s rest : Text} {v : Value} (hs : PlainFeeds s)
    (h : bracedExpression start s = .ok (v, rest))
    (hline : Unbroken v.texts) :
    bracedExpression start' (withReturns s) = .ok (v, withReturns rest) := by
  unfold bracedExpression at h
  split at h
  · cases h
  · rename_i inside after hthrough
    split at h
    · rename_i e hparse
      obtain ⟨rfl, rfl⟩ := Prod.mk.inj (Except.ok.inj h)
      have hinside : PlainFeeds inside := by
        refine hs.mono ?_
        rw [append_of_upThrough hthrough]
        exact (List.prefix_append _ _).isInfix
      rw [bracedExpression, upThrough_withReturns (by decide) (by decide) hthrough]
      dsimp only
      rw [Expression.parse_withReturns hinside hparse hline]
    · cases h

/-- A quoted string is of one line. -/
theorem quotedString_withReturns {start start' s rest : Text} {v : Value}
    (h : quotedString start s = .ok (v, rest)) (hline : Unbroken v.texts) :
    quotedString start' (withReturns s) = .ok (v, withReturns rest) := by
  unfold quotedString at h
  split at h
  · rename_i inside after hspan
    obtain ⟨rfl, rfl⟩ := Prod.mk.inj (Except.ok.inj h)
    rw [quotedString, quotedSpan_withReturns (by decide) (hline.not_mem List.mem_cons_self) hspan]
  · cases h

/-- **VALUES ARE THE SAME** if what stands in them is on one line. -/
theorem value_withReturns {s rest : Text} {v : Value} (hs : PlainFeeds s)
    (h : value s = .ok (v, rest)) (hline : Unbroken v.texts) :
    value (withReturns s) = .ok (v, withReturns rest) := by
  rw [value] at h
  rw [value, eat_withReturns (by decide)]
  cases hlines : eat ['"', '"', '"'] s with
  | some more =>
      rw [hlines] at h
      exact multiline_withReturns (hs.mono (suffix_of_eat hlines).isInfix) h hline
  | none =>
      rw [hlines] at h
      dsimp only [Option.map_none] at h ⊢
      rw [eat_withReturns (by decide)]
      cases htick : eat ['`'] s with
      | some more =>
          rw [htick] at h
          exact substitution_withReturns h hline
      | none =>
          rw [htick] at h
          dsimp only [Option.map_none] at h ⊢
          rw [eat_withReturns (by decide)]
          cases hbraces : eat ['{', '{'] s with
          | some more =>
              rw [hbraces] at h
              exact bracedExpression_withReturns (hs.mono (suffix_of_eat hbraces).isInfix) h hline
          | none =>
              rw [hbraces] at h
              dsimp only [Option.map_none] at h ⊢
              rw [eat_withReturns (by decide)]
              cases hquote : eat ['"'] s with
              | some more =>
                  rw [hquote] at h
                  exact quotedString_withReturns h hline
              | none =>
                  rw [hquote] at h
                  cases h

/-- A name and an equals sign stand in one line. -/
theorem assignment?_withReturns (s : Text) :
    assignment? (withReturns s)
      = (assignment? s).map fun found => (found.1, withReturns found.2) := by
  rw [assignment?, takeWhile_withReturns_line rfl rfl, dropWhile_withReturns rfl,
    skipInline_withReturns, assignment?]
  dsimp only
  rw [eat_withReturns (by decide), eat_withReturns (by decide), Option.isSome_map]
  split
  · rfl
  · split
    · rfl
    · rw [Option.map_map, Option.map_map]
      congr 1
      funext rest
      simp only [Function.comp_apply, skipInline_withReturns]

/-! ## Tasks -/

/-- The blanks around arguments are trimmed, and no name has a line break. -/
theorem arguments_withReturns {s rest : Text} {names : List String}
    (h : arguments s = .ok (names, rest)) (hline : Unbroken names) :
    arguments (withReturns s) = .ok (names, withReturns rest) := by
  rw [arguments] at h
  rw [arguments, eat_withReturns (by decide)]
  cases hstart : eat ['('] s with
  | none =>
      rw [hstart] at h
      obtain ⟨rfl, rfl⟩ := Prod.mk.inj (Except.ok.inj h)
      rfl
  | some more =>
      rw [hstart] at h
      dsimp only [Option.map_some] at h ⊢
      split at h
      · cases h
      · rename_i inside after hthrough
        obtain ⟨rfl, rfl⟩ := Prod.mk.inj (Except.ok.inj h)
        rw [upThrough_withReturns (by decide) (by decide) hthrough]
        dsimp only
        rw [splitArguments_withReturns hline, skipInline_withReturns]

/-- What is left of a text with carriage returns where `rest` is left without them: the first line
end may have lost its carriage return, which was read with the line. -/
inductive Leaves : Text → Text → Prop
  | whole (rest : Text) : Leaves rest (withReturns rest)
  | feed (rest : Text) : Leaves ('\n' :: rest) ('\n' :: withReturns rest)

/-- What the two readers leave begins alike behind blanks. -/
theorem Leaves.skipSpacing_eq {s s' : Text} (h : Leaves s s') :
    skipSpacing s' = withReturns (skipSpacing s) := by
  cases h with
  | whole => exact skipSpacing_withReturns s
  | feed rest => exact skipSpacing_withReturns rest

/-- The line of dependencies may end with a carriage return, which is a blank there. -/
theorem dependencies_withReturns (s : Text) :
    (dependencies (withReturns s)).1 = (dependencies s).1 ∧
      Leaves (dependencies s).2 (dependencies (withReturns s)).2 := by
  rw [dependencies, eat_withReturns (by decide), dependencies]
  cases harrow : eat ['=', '>'] s with
  | none => exact ⟨rfl, .whole s⟩
  | some rest =>
      dsimp only [Option.map_some]
      by_cases hfeed : (rest.dropWhile fun c => c != '{' && c != '\n').head? = some '\n'
      · obtain ⟨more, hmore⟩ := List.head?_eq_some_iff.mp hfeed
        obtain ⟨htake, hdrop⟩ := span_withReturns_feed rfl rfl hmore
        rw [htake, hdrop, hmore, splitDependencies_concat rfl]
        exact ⟨rfl, .feed more⟩
      · obtain ⟨htake, hdrop⟩ := span_withReturns_of_head rfl hfeed
        rw [htake, hdrop]
        exact ⟨rfl, .whole _⟩

/-- **A BODY HAS THE SAME COMMANDS**, since each is trimmed at the end of its line. -/
theorem body_withReturns {s s' rest : Text} {commands : List Command} (hs : PlainFeeds s)
    (hleaves : Leaves s s') (h : body s = .ok (commands, rest)) :
    ∃ rest', body s' = .ok (commands, rest') ∧ Leaves rest rest' := by
  rw [body] at h
  rw [body, hleaves.skipSpacing_eq, eat_withReturns (by decide)]
  cases hbrace : eat ['{'] (skipSpacing s) with
  | none =>
      rw [hbrace] at h
      obtain ⟨rfl, rfl⟩ := Prod.mk.inj (Except.ok.inj h)
      exact ⟨s', rfl, hleaves⟩
  | some more =>
      rw [hbrace] at h
      dsimp only [Option.map_some] at h ⊢
      split at h
      · rename_i inside after hblock
        obtain ⟨rfl, rfl⟩ := Prod.mk.inj (Except.ok.inj h)
        have hmore : PlainFeeds more :=
          hs.mono ((suffix_of_eat hbrace).trans (List.dropWhile_suffix _)).isInfix
        obtain ⟨-, behind, rfl⟩ := append_of_scanBlock hblock
        rw [balanced_withReturns hmore hblock]
        dsimp only
        rw [Command.parseBody_withReturns, withReturns_cons (by decide)]
        exact ⟨_, rfl, .whole behind⟩
      · cases h
      · cases h

/-- A task is the same task. -/
theorem taskDeclaration_withReturns {description : Option String} {s rest : Text} {task : Task}
    (hs : PlainFeeds s) (h : taskDeclaration description s = .ok (task, rest))
    (hline : Unbroken task.arguments) :
    ∃ rest', taskDeclaration description (withReturns s) = .ok (task, rest') ∧
      Leaves rest rest' := by
  obtain ⟨_, names, _, _, commands, hhead, hbody, rfl⟩ := taskDeclaration_eq_ok_iff.mp h
  obtain ⟨hname, _, more, hargs, hparts, rfl⟩ := taskHead_eq_ok_iff.mp hhead
  cases hparts
  have hmore : PlainFeeds (dependencies more).2 := hs.mono (taskHead_suffix hhead).isInfix
  obtain ⟨hdeps, hleaves⟩ := dependencies_withReturns more
  obtain ⟨rest', hbody', hrest⟩ := body_withReturns hmore hleaves hbody
  have hhead' : taskHead (withReturns s) = .ok
      ((String.ofList ((skipInline s).takeWhile isTaskNameChar), names, (dependencies more).1),
        (dependencies (withReturns more)).2) := by
    rw [taskHead_eq_ok_iff, skipInline_withReturns, takeWhile_withReturns_line rfl rfl,
      dropWhile_withReturns rfl, skipInline_withReturns]
    exact ⟨hname, names, _, arguments_withReturns hargs hline, by rw [hdeps], rfl⟩
  exact ⟨rest', taskDeclaration_eq_ok_iff.mpr ⟨_, _, _, _, _, hhead', hbody', rfl⟩, hrest⟩

/-! ## Namespaces -/

/-- A namespace is the same but for its places. -/
theorem namespaceDeclaration_withReturns {start start' s rest : Text} {item : Item}
    (h : namespaceDeclaration start s = .ok (item, rest)) :
    ∃ item', namespaceDeclaration start' (withReturns s) = .ok (item', withReturns rest) ∧
      item'.placeless = item.placeless := by
  rw [namespaceDeclaration] at h
  rw [namespaceDeclaration, skipInline_withReturns, takeWhile_withReturns_line rfl rfl,
    dropWhile_withReturns rfl, skipInline_withReturns]
  dsimp only at h ⊢
  rw [eat_withReturns (by decide)]
  split at h
  · cases h
  · rename_i hname
    rw [if_neg hname]
    cases hbrace : eat ['{'] (skipInline ((skipInline s).dropWhile isWordChar)) with
    | some more =>
        rw [hbrace] at h
        obtain ⟨rfl, rfl⟩ := Prod.mk.inj (Except.ok.inj h)
        exact ⟨_, rfl, rfl⟩
    | none =>
        rw [hbrace] at h
        obtain ⟨rfl, rfl⟩ := Prod.mk.inj (Except.ok.inj h)
        exact ⟨_, rfl, rfl⟩

/-! ## Line ends and comments -/

/-- A comment ends in front of the carriage return. -/
theorem skipComment_withReturns {s : Text} (hs : '\r' ∉ s) :
    skipComment (withReturns s) = withReturns (skipComment s) := by
  have hline : '\r' ∉ skipInline s := fun hmem =>
    hs ((List.dropWhile_suffix isInlineBlank).subset hmem)
  rw [skipComment, skipInline_withReturns, skipComment]
  by_cases hcomment : (skipInline s).head? = some '#'
  · rw [if_pos ((head?_withReturns (by decide) (by decide) _).mpr hcomment), if_pos hcomment,
      splitLine_withReturns hline]
  · rw [if_neg ((head?_withReturns (by decide) (by decide) _).not.mpr hcomment), if_neg hcomment]

/-- **AN ITEM ENDS WITH THE SAME LINE**, whether or not the carriage return of its line end has
been read. -/
theorem endOfItem_withReturns {s s' next : Text} (hs : '\r' ∉ s) (hleaves : Leaves s s')
    (h : endOfItem s = .ok next) : endOfItem s' = .ok (withReturns next) := by
  cases hleaves with
  | feed rest =>
      obtain rfl : rest = next := Except.ok.inj h
      rfl
  | whole =>
      have hline : '\r' ∉ skipComment s := fun hmem => hs ((skipComment_suffix s).subset hmem)
      rw [endOfItem] at h
      rw [endOfItem, skipComment_withReturns hs, eatLineEnd_withReturns hline]
      cases hend : eatLineEnd (skipComment s) with
      | some rest =>
          rw [hend] at h
          obtain rfl := Except.ok.inj h
          rfl
      | none =>
          rw [hend] at h
          dsimp only [Option.map_none] at h ⊢
          split at h
          · rename_i hbrace
            rw [if_pos ((head?_withReturns (by decide) (by decide) _).mpr hbrace), Except.ok.inj h]
          · cases h

/-- **COMMENT LINES SAY THE SAME**, and blank lines detach the same ones. -/
theorem leadingComments_withReturns {s : Text} (hs : '\r' ∉ s) (doc : List Text) :
    leadingComments doc (withReturns s)
      = ((leadingComments doc s).1, withReturns (leadingComments doc s).2) := by
  have hattached : attached doc (withReturns s) = attached doc s := by
    rw [attached, leadingLineFeeds_withReturns, attached]
  have hstart : '\r' ∉ skipSpacing s := fun hmem =>
    hs ((List.dropWhile_suffix isSpacing).subset hmem)
  by_cases hcomment : (skipSpacing s).head? = some '#'
  · obtain ⟨rest, hrest⟩ := List.head?_eq_some_iff.mp hcomment
    have hrest' : skipSpacing (withReturns s) = '#' :: withReturns rest := by
      rw [skipSpacing_withReturns, hrest, withReturns_cons (by decide)]
    have hshorter : (splitLine ('#' :: rest)).2.length < s.length :=
      Nat.lt_of_lt_of_le (length_splitLine_lt (by decide) (by decide))
        (hrest ▸ length_skipSpacing_le s)
    have hbehind : '\r' ∉ (splitLine ('#' :: rest)).2 := fun hmem =>
      hstart (hrest ▸ (splitLine_suffix _).subset hmem)
    rw [leadingComments_of_comment hrest', leadingComments_of_comment hrest, hattached,
      ← withReturns_cons (by decide), splitLine_withReturns (hrest ▸ hstart)]
    exact leadingComments_withReturns hbehind _
  · have hcomment' : (skipSpacing (withReturns s)).head? ≠ some '#' := by
      rw [skipSpacing_withReturns]
      exact (head?_withReturns (by decide) (by decide) _).not.mpr hcomment
    rw [leadingComments_of_head hcomment', leadingComments_of_head hcomment, hattached,
      skipSpacing_withReturns]
termination_by s.length

/-! ## Items -/

/-- What stands between the marks of an item: the value of a variable, or the arguments of a
task. -/
def texts : Item → List String
  | .variable v => v.value.texts
  | .task declared => declared.arguments
  | _ => []

/-- What may stand behind an item may stand there with carriage returns. -/
theorem behind_withReturns {item : Item} {s next : Text} (hs : '\r' ∉ s)
    (h : item.behind s = .ok next) : item.behind (withReturns s) = .ok (withReturns next) := by
  cases item with
  | opening name start brace =>
      obtain rfl : s = next := Except.ok.inj h
      rfl
  | _ => exact endOfItem_withReturns hs (.whole s) h

/-- **AN ITEM IS THE SAME**, places apart, and so is what comes behind it. -/
theorem declaration_withReturns {doc : List Text} {s rest next : Text} {item : Item}
    (hs : PlainFeeds s) (h : declaration doc s = .ok (item, rest))
    (hend : item.behind rest = .ok next) (hline : Unbroken item.texts) :
    ∃ item' rest', declaration doc (withReturns s) = .ok (item', rest') ∧
      item'.behind rest' = .ok (withReturns next) ∧ item'.placeless = item.placeless := by
  have hreturn : '\r' ∉ rest := fun hmem => hs.returnless ((declaration_suffix h).subset hmem)
  have hnone : assignment? s = none → assignment? (withReturns s) = none := by
    intro hnone
    rw [assignment?_withReturns, hnone]
    rfl
  rw [declaration_eq_ok_iff] at h
  cases h with
  | closing hbrace =>
      have hbrace' := eat_withReturns_some (by decide) hbrace
      exact ⟨_, _, declaration_eq_ok_iff.mpr (.closing hbrace'),
        endOfItem_withReturns hreturn (.whole rest) hend, rfl⟩
  | @assignment name more _ v hassign hvalue =>
      have hassign' : assignment? (withReturns s) = some (name, withReturns more) := by
        rw [assignment?_withReturns, hassign]
        rfl
      obtain ⟨c, tail, rfl, hmore⟩ := assignment?_suffix hassign
      have hvalue' := value_withReturns (hs.tail.mono hmore.isInfix) hvalue hline
      exact ⟨_, _, declaration_eq_ok_iff.mpr (.assignment hassign' hvalue'),
        endOfItem_withReturns hreturn (.whole rest) hend, rfl⟩
  | @task more _ declared hassign hkeyword htask =>
      have hkeyword' := eatKeyword_withReturns_some (by decide) hkeyword
      have hmore : PlainFeeds more := hs.mono (suffix_of_eatKeyword hkeyword).isInfix
      obtain ⟨rest', htask', hleaves⟩ := taskDeclaration_withReturns hmore htask hline
      exact ⟨_, _, declaration_eq_ok_iff.mpr (.task (hnone hassign) hkeyword' htask'),
        endOfItem_withReturns hreturn hleaves hend, rfl⟩
  | @namespaced more _ _ hassign hkeyword hnamespace =>
      have hkeyword' := eatKeyword_withReturns_some (by decide) hkeyword
      obtain ⟨item', hitem', hsame⟩ := namespaceDeclaration_withReturns hnamespace
      refine ⟨item', _, declaration_eq_ok_iff.mpr (.namespaced (hnone hassign) hkeyword' hitem'),
        ?_, hsame⟩
      rw [behind_congr hsame]
      exact behind_withReturns hreturn hend

end Item

/-! ## Whole texts -/

open Item

/-- **THE READER FINDS THE SAME ITEMS**, places apart. -/
theorem Reads.withReturns {s : Text} {found : List Item} (h : Reads s found none)
    (hs : PlainFeeds s) (hline : ∀ item ∈ found, Unbroken item.texts) :
    ∃ found', items (Text.withReturns s) = (found', none) ∧
      found'.map Item.placeless = found.map Item.placeless := by
  generalize hfailure : (none : Option (ParseError Text)) = failure at h
  -- along the run: what comes behind an item again has plain line feeds
  induction h with
  | @atEnd s doc hlead =>
      have hlead' := leadingComments_withReturns hs.returnless []
      rw [hlead] at hlead'
      exact ⟨[], by rw [items_eq, hlead']; rfl, rfl⟩
  | noItem => cases hfailure
  | noEnd => cases hfailure
  | @item s rest after next doc c item found failure hlead hitem hend hlater ih =>
      have hlead' := leadingComments_withReturns hs.returnless []
      have hstart := leadingComments_suffix [] s
      rw [hlead] at hlead' hstart
      have hafter : after <:+ s := (declaration_suffix hitem).trans hstart
      have hnext : PlainFeeds next := hs.mono ((behind_suffix hend).trans hafter).isInfix
      obtain ⟨hfirst, hothers⟩ := List.forall_mem_cons.mp hline
      obtain ⟨item', rest', hitem', hend', hsame⟩ :=
        declaration_withReturns (hs.mono hstart.isInfix) hitem hend hfirst
      obtain ⟨found', hfound', hsames⟩ := ih hnext hothers hfailure
      refine ⟨item' :: found', ?_, ?_⟩
      · rw [items_of_declaration hlead' hitem' hend', hfound']
      · rw [List.map_cons, List.map_cons, hsame, hsames]

namespace TaskFile

/-- **LINE BREAKS DO NOT MATTER**: a text that is read as a file, without carriage returns and
without a backslash directly in front of a line feed, is read as the same file with a carriage
return in front of each line feed, if no value of a variable and no name of an argument in the
file, at any depth, has a line feed. -/
theorem line_breaks_do_not_matter {source : String} {file : TaskFile}
    (h : parse source = .ok file) (hreturn : '\r' ∉ source.toList)
    (hbackslash : ¬ ['\\', '\n'] <:+: source.toList)
    (hvalues : ∀ v, file.HoldsVariable v → Unbroken v.value.texts)
    (harguments : ∀ task, file.HoldsTask task → Unbroken task.arguments) :
    parse (String.ofList (withReturns source.toList)) = .ok file := by
  rw [parse_eq_ok_iff] at h ⊢
  obtain ⟨found, hfound, hadd⟩ := read_eq_ok_iff.mp h
  have hreads := reads_items source.toList
  rw [hfound] at hreads
  have hline : ∀ item ∈ found, Unbroken item.texts := by
    intro item hmem
    cases item with
    | «variable» v => exact hvalues v (Nesting.holdsVariable_of_addAll hadd hmem)
    | task declared => exact harguments declared (Nesting.holdsTask_of_addAll hadd hmem)
    | _ => exact List.forall_mem_nil _
  obtain ⟨found', hfound', hsame⟩ := hreads.withReturns ⟨hreturn, hbackslash⟩ hline
  rw [String.toList_ofList]
  exact read_congr hfound hfound' hsame h

/-- A value, arguments and a body over several lines, a comment with a brace, and a block. -/
def layered : String :=
  "mode = \"\"\"\nfast\"\"\"\n# Builds all.\ntask build(a,\n b) => lint\n" ++
    "\x7b\n  # it's \x7d\n  make '\x7b'\n\x7d\nnamespace ci \x7b\n  task lint\n\x7d\n"

/-- The same with a carriage return in front of each line feed. -/
def layeredWithReturns : String :=
  "mode = \"\"\"\r\nfast\"\"\"\r\n# Builds all.\r\ntask build(a,\r\n b) => lint\r\n" ++
    "\x7b\r\n  # it's \x7d\r\n  make '\x7b'\r\n\x7d\r\nnamespace ci \x7b\r\n  task lint\r\n\x7d\r\n"

/-- The task with its arguments and its body. -/
def layeredTask : Task :=
  { name := "build", description := some "Builds all.", arguments := ["a", "b"],
    dependencies := ["lint"], commands := [⟨[.text "make '\x7b'"], false, false⟩] }

/-- What the layers declare. -/
def layeredFile : TaskFile where
  vars := [⟨"mode", .multiline "fast"⟩]
  tasks := [layeredTask]
  namespaces := [⟨"ci", [{ name := "lint" }], [], []⟩]

/-- And they are read so. -/
theorem parse_layered : parse layered = .ok layeredFile := by
  rewrite [parse, read, items_of_declaration (by cbv) (by cbv) (by cbv),
    items_of_declaration (by cbv) (by cbv) (by cbv),
    items_of_declaration (by cbv) (by cbv) (by cbv),
    items_of_declaration (by cbv) (by cbv) (by cbv),
    items_of_declaration (by cbv) (by cbv) (by cbv), items_of_blank (by cbv)]
  rfl

/-- The line feed behind the three quotes and the one between the arguments are not stored, and
the carriage returns in front of these and of all others are not either. -/
theorem layered_with_returns :
    ('\r' ∉ layered.toList ∧ ¬ ['\\', '\n'] <:+: layered.toList) ∧
      (∀ v, layeredFile.HoldsVariable v → Unbroken v.value.texts) ∧
      (∀ task, layeredFile.HoldsTask task → Unbroken task.arguments) ∧
      parse layered = .ok layeredFile ∧
      parse layeredWithReturns = .ok layeredFile := by
  have hreturn : '\r' ∉ layered.toList := by decide +kernel
  have hbackslash : ¬ ['\\', '\n'] <:+: layered.toList := by decide +kernel
  have hvalues : ∀ v, layeredFile.HoldsVariable v → Unbroken v.value.texts := by
    intro v h
    cases h with
    | here h =>
        obtain rfl := List.mem_singleton.mp h
        decide
    | inside hchild h =>
        obtain rfl := List.mem_singleton.mp hchild
        cases h with
        | here h => cases h
        | inside hchild h => cases hchild
  have harguments : ∀ task, layeredFile.HoldsTask task → Unbroken task.arguments := by
    intro task h
    cases h with
    | here h =>
        obtain rfl := List.mem_singleton.mp h
        decide
    | inside hchild h =>
        obtain rfl := List.mem_singleton.mp hchild
        cases h with
        | here h =>
            obtain rfl := List.mem_singleton.mp h
            decide
        | inside hchild h => cases hchild
  have htext : String.ofList (withReturns layered.toList) = layeredWithReturns := by cbv
  refine ⟨⟨hreturn, hbackslash⟩, hvalues, harguments, parse_layered, ?_⟩
  rw [← htext]
  exact line_breaks_do_not_matter parse_layered hreturn hbackslash hvalues harguments

end TaskFile

end TaskRunner
