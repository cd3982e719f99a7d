import TaskRunner.Proofs.TailExchange

/-! # How the line of the last item ends

    Behind an item there may be the end of the text, a comment, or the brace that closes the
    block around it.  Each kind of item comes to its end in another way: behind a quote or a
    backtick, behind the brace of its body or the bracket of its arguments, or behind a word.
    In all of them a blank and a hash, or a blank and a brace, end the item where the end of
    the text has ended it (`declaration_trailing`).

    There is one exception.  **The dependencies of a task without a body** run to the end of
    the line, whatever stands there (`leavesOpen`), so that the words of a comment are taken
    for dependencies, and so is the brace that should close a block
    (`line_ends_may_count`).  For all other last items a comment changes nothing, and in
    braces the text is a namespace with the same declarations (`line_ends_do_not_count`). -/

namespace TaskRunner

namespace Text

/-! ## What may come behind an item -/

/-- A text that begins with a comment or a closing brace. -/
def EndsLine (e : Text) : Prop := e.head? = some '#' ∨ e.head? = some '}'

variable {e : Text}

theorem EndsLine.exists_cons (he : EndsLine e) : ∃ c rest, e = c :: rest ∧ (c = '#' ∨ c = '}') := by
  cases e with
  | nil => rcases he with h | h <;> cases h
  | cons c rest => exact ⟨c, rest, rfl, he.imp Option.some.inj Option.some.inj⟩

theorem EndsLine.skipInline_eq (he : EndsLine e) : skipInline e = e := by
  obtain ⟨c, rest, rfl, rfl | rfl⟩ := he.exists_cons <;> rfl

/-- Where only blanks are left of a line, what comes behind them comes next. -/
theorem EndsLine.skipInline_append (he : EndsLine e) {s : Text} (h : skipInline s = []) :
    skipInline (s ++ ' ' :: e) = e := by
  rw [skipInline] at h
  rw [skipInline, List.dropWhile_append, h]
  exact he.skipInline_eq

/-- A text with a name behind its blanks is not all blanks. -/
theorem solid_of_name {p : Char → Bool} (hp : ∀ c, p c = true → isTaskNameChar c = true) {s : Text}
    (h : (skipInline s).takeWhile p ≠ []) : Solid s := by
  obtain ⟨c, more, hname⟩ := List.exists_cons_of_ne_nil h
  have hmem : c ∈ (skipInline s).takeWhile p := hname ▸ List.mem_cons_self
  refine ⟨c, (List.dropWhile_suffix _).subset ((List.takeWhile_prefix _).subset hmem), ?_⟩
  exact not_isSpacing_of_isTaskNameChar (hp c (List.mem_takeWhile_imp hmem))

end Text

open Text

namespace Item

variable {e : Text}

/-! ## Tasks -/

theorem arguments_endsLine (he : EndsLine e) : arguments e = .ok ([], e) := by
  obtain ⟨c, rest, rfl, rfl | rfl⟩ := he.exists_cons <;> rfl

theorem dependencies_endsLine (he : EndsLine e) : dependencies e = ([], e) := by
  obtain ⟨c, rest, rfl, rfl | rfl⟩ := he.exists_cons <;> rfl

theorem body_endsLine (he : EndsLine e) : body e = .ok ([], e) := by
  obtain ⟨c, rest, rfl, rfl | rfl⟩ := he.exists_cons <;> rfl

/-- Behind a keyword: a task names its dependencies and has no body. -/
def runsOn (s : Text) : Bool :=
  match arguments (skipInline ((skipInline s).dropWhile isTaskNameChar)) with
  | .error _ => false
  | .ok (_, rest) =>
    (eat ['=', '>'] rest).isSome && (skipSpacing (dependencies rest).2).head? != some '{'

/-- An item whose end is that of its line: a task that names its dependencies and has no body. -/
def leavesOpen (t : Text) : Bool := (eatKeyword "task".toList t).any runsOn

/-- Arguments that end with the text end there. -/
theorem arguments_trailing {s w : Text} {names : List String}
    (h : arguments (skipInline s) = .ok (names, w)) (hw : skipInline w = []) (he : EndsLine e) :
    w = [] ∧ arguments (skipInline (s ++ ' ' :: e)) = .ok (names, e) := by
  rw [arguments] at h
  split at h
  · obtain ⟨rfl, rfl⟩ := Prod.mk.inj (Except.ok.inj h)
    have hs : skipInline s = [] := (List.dropWhile_idempotent ..).symm.trans hw
    rw [he.skipInline_append hs]
    exact ⟨hs, arguments_endsLine he⟩
  · rename_i rest hstart
    split at h
    · cases h
    · rename_i inside after hthrough
      obtain ⟨rfl, rfl⟩ := Prod.mk.inj (Except.ok.inj h)
      have hafter : skipInline after = [] := (List.dropWhile_idempotent ..).symm.trans hw
      have hne : skipInline s ≠ [] := by
        rw [eat_eq_some_iff.mp hstart]
        exact List.cons_ne_nil _ _
      have hskip : skipInline (s ++ ' ' :: e) = skipInline s ++ ' ' :: e :=
        dropWhile_append_of_ne hne _
      rw [hskip, arguments, eat_append hstart]
      dsimp only
      rw [upThrough_append (by decide) hthrough]
      dsimp only
      rw [he.skipInline_append hafter]
      exact ⟨hafter, rfl⟩

theorem body_append {s b r : Text} {commands : List Command} (hbrace : skipSpacing s = '{' :: b)
    (h : body s = .ok (commands, r)) (t : Text) : body (s ++ t) = .ok (commands, r ++ t) := by
  have hskip : skipSpacing (s ++ t) = '{' :: (b ++ t) := by
    rw [skipSpacing_append (hbrace ▸ List.cons_ne_nil _ _), hbrace, List.cons_append]
  rw [body, hbrace, eat, if_pos rfl, eat] at h
  rw [body, hskip, eat, if_pos rfl, eat]
  dsimp only at h ⊢
  split at h
  · rename_i inside after hblock
    obtain ⟨-, behind, rfl⟩ := append_of_scanBlock hblock
    obtain ⟨rfl, rfl⟩ := Prod.mk.inj (Except.ok.inj h)
    rw [balanced_append hblock]
    rfl
  · cases h
  · cases h

theorem body_of_head {s : Text} (h : (skipSpacing s).head? ≠ some '{') : body s = .ok ([], s) := by
  have hbrace : eat ['{'] (skipSpacing s) = none := by
    cases hskip : skipSpacing s with
    | nil => rfl
    | cons c rest =>
        rw [hskip] at h
        have hc : '{' ≠ c := fun heq => h (heq ▸ rfl)
        rw [eat, if_neg hc]
  rw [body, hbrace]

/-- Name and arguments that end with the text end there. -/
theorem taskHead_trailing {s r : Text} {head : String × List String × List String}
    (h : taskHead s = .ok (head, r)) (hr : skipInline r = [])
    (hbrace : (skipSpacing r).head? ≠ some '{') (hclosed : runsOn s = false) (he : EndsLine e) :
    r = [] ∧ taskHead (s ++ ' ' :: e) = .ok (head, e) := by
  obtain ⟨hname, names, w, hargs, rfl, rfl⟩ := taskHead_eq_ok_iff.mp h
  -- there is no arrow, for then the dependencies would run on
  have harrow : eat ['=', '>'] w = none := by
    rw [runsOn, hargs] at hclosed
    dsimp only at hclosed
    rw [Bool.and_eq_false_iff] at hclosed
    rcases hclosed with hnone | hhead
    · exact Option.not_isSome_iff_eq_none.mp (by rw [hnone]; decide)
    · exact absurd (by simpa using hhead) hbrace
  have hdeps : dependencies w = ([], w) := by
    rw [dependencies, harrow]
  rw [hdeps] at hr ⊢
  obtain ⟨rfl, hargs'⟩ := arguments_trailing hargs hr he
  have hstart : skipInline (s ++ ' ' :: e) = skipInline s ++ ' ' :: e := by
    refine dropWhile_append_of_ne (fun hnil => hname ?_) _
    rw [show skipInline s = [] from hnil]
    rfl
  have hblank : isTaskNameChar ' ' = false := by decide
  refine ⟨rfl, taskHead_eq_ok_iff.mpr ⟨?_, names, e, ?_, ?_, ?_⟩⟩
  · rwa [hstart, takeWhile_stopped hblank]
  · rwa [hstart, dropWhile_stopped hblank]
  · rw [hstart, takeWhile_stopped hblank, dependencies_endsLine he]
  · rw [dependencies_endsLine he]

/-- A task that ends with the text ends there. -/
theorem taskDeclaration_trailing {description : Option String} {s r : Text} {task : Task}
    (h : taskDeclaration description s = .ok (task, r)) (hr : skipInline r = [])
    (hclosed : runsOn s = false) (he : EndsLine e) :
    ∃ r', taskDeclaration description (s ++ ' ' :: e) = .ok (task, r') ∧ skipInline r' = e := by
  obtain ⟨_, _, _, rest, commands, hhead, hbody, rfl⟩ := taskDeclaration_eq_ok_iff.mp h
  by_cases hbrace : (skipSpacing rest).head? = some '{'
  · obtain ⟨b, hb⟩ := List.head?_eq_some_iff.mp hbrace
    have hrest : rest ≠ [] := by
      rintro rfl
      cases hb
    have hhead' : taskHead (s ++ ' ' :: e) = .ok (_, rest ++ ' ' :: e) :=
      taskHead_exchange blankLed_nil (by rwa [List.append_nil, List.append_nil]) hrest
        (blankLed_cons rfl e)
    exact ⟨r ++ ' ' :: e, taskDeclaration_eq_ok_iff.mpr
      ⟨_, _, _, _, _, hhead', body_append hb hbody _, rfl⟩, he.skipInline_append hr⟩
  · obtain ⟨rfl, rfl⟩ := Prod.mk.inj (Except.ok.inj ((body_of_head hbrace).symm.trans hbody))
    obtain ⟨rfl, hhead'⟩ := taskHead_trailing hhead hr hbrace hclosed he
    exact ⟨e, taskDeclaration_eq_ok_iff.mpr ⟨_, _, _, _, _, hhead', body_endsLine he, rfl⟩,
      he.skipInline_eq⟩

/-- A namespace that ends with the text ends there. -/
theorem namespaceDeclaration_trailing {start start' s r : Text} {item : Item}
    (h : namespaceDeclaration start s = .ok (item, r)) (hr : skipInline r = []) (he : EndsLine e) :
    ∃ item' r', namespaceDeclaration start' (s ++ ' ' :: e) = .ok (item', r') ∧
      skipInline r' = e ∧ item'.placeless = item.placeless := by
  have hblank : isWordChar ' ' = false := by decide
  unfold namespaceDeclaration at h
  dsimp only at h
  split at h
  · cases h
  · rename_i hname
    have hstart : skipInline (s ++ ' ' :: e) = skipInline s ++ ' ' :: e := by
      refine dropWhile_append_of_ne (fun hnil => hname ?_) _
      rw [show skipInline s = [] from hnil]
      rfl
    rw [namespaceDeclaration, hstart, takeWhile_stopped hblank, dropWhile_stopped hblank,
      if_neg hname]
    dsimp only
    split at h
    · rename_i rest hbrace
      obtain ⟨rfl, rfl⟩ := Prod.mk.inj (Except.ok.inj h)
      have hafter : skipInline ((skipInline s).dropWhile isWordChar ++ ' ' :: e)
          = skipInline ((skipInline s).dropWhile isWordChar) ++ ' ' :: e := by
        refine dropWhile_append_of_ne ?_ _
        rw [show ((skipInline s).dropWhile isWordChar).dropWhile isInlineBlank = _ from
          eat_eq_some_iff.mp hbrace]
        exact List.cons_ne_nil _ _
      rw [hafter, eat_append hbrace]
      exact ⟨_, _, rfl, he.skipInline_append hr, rfl⟩
    · obtain ⟨rfl, rfl⟩ := Prod.mk.inj (Except.ok.inj h)
      have hafter : skipInline ((skipInline s).dropWhile isWordChar) = [] :=
        (List.dropWhile_idempotent ..).symm.trans hr
      have hbrace : eat ['{'] e = none := by
        obtain ⟨c, rest, rfl, rfl | rfl⟩ := he.exists_cons <;> rfl
      rw [he.skipInline_append hafter, hbrace]
      exact ⟨_, _, rfl, he.skipInline_eq, rfl⟩

/-! ## Items -/

/-- **ITEMS THAT END WITH THE TEXT END THERE** when a blank comes behind it, and then a comment or a
closing brace, unless dependencies run on. -/
theorem declaration_trailing {doc : List Text} {t r : Text} {item : Item}
    (h : declaration doc t = .ok (item, r)) (hr : skipInline r = [])
    (hclosed : leavesOpen t = false) (he : EndsLine e) :
    ∃ item' r', declaration doc (t ++ ' ' :: e) = .ok (item', r') ∧ skipInline r' = e ∧
      item'.placeless = item.placeless := by
  have hn : BlankLed [] := blankLed_nil
  have hn' : BlankLed (' ' :: e) := blankLed_cons rfl e
  rw [declaration] at h
  rw [declaration, eat_blankLed ['}'] rfl hn']
  cases hbrace : eat ['}'] t with
  | some rest =>
      rw [hbrace] at h
      obtain ⟨rfl, rfl⟩ := Prod.mk.inj (Except.ok.inj h)
      exact ⟨_, _, rfl, he.skipInline_append hr, rfl⟩
  | none =>
      rw [hbrace] at h
      dsimp only [Option.map_none] at h ⊢
      cases hassign : assignment? t with
      | some found =>
          obtain ⟨name, rest⟩ := found
          rw [hassign] at h
          dsimp only at h
          split at h
          · rename_i v after hvalue
            obtain ⟨rfl, rfl⟩ := Prod.mk.inj (Except.ok.inj h)
            have hrest : rest ≠ [] := by
              rintro rfl
              cases hvalue
            have hassign' : assignment? (t ++ ' ' :: e) = some (name, rest ++ ' ' :: e) :=
              assignment?_exchange hn (by rwa [List.append_nil, List.append_nil]) hrest hn'
            have hvalue' : value (rest ++ ' ' :: e) = .ok (v, after ++ ' ' :: e) :=
              value_exchange hn (by rwa [List.append_nil, List.append_nil]) hn'
            rw [hassign']
            dsimp only
            rw [hvalue']
            exact ⟨_, _, rfl, he.skipInline_append hr, rfl⟩
          · cases h
      | none =>
          rw [hassign] at h
          dsimp only at h
          -- no assignment comes about behind a keyword
          have hkept : ∀ {word rest : Text}, word.all isWordChar = true →
              eatKeyword word t = some rest → Solid rest → assignment? (t ++ ' ' :: e) = none :=
            fun hword hkeyword hrest => assignment?_exchange_of_none hn (by rwa [List.append_nil])
              (dropWhile_keyword hword hkeyword hrest.ne_nil []) hrest hn'
          rw [eatKeyword_blankLed "task".toList rfl hn']
          cases htask : eatKeyword "task".toList t with
          | some rest =>
              rw [htask] at h
              dsimp only at h
              split at h
              · rename_i hdeclared
                obtain ⟨rfl, rfl⟩ := Prod.mk.inj (Except.ok.inj h)
                have hrest : Solid rest := by
                  obtain ⟨_, _, _, _, _, hhead, -, -⟩ := taskDeclaration_eq_ok_iff.mp hdeclared
                  exact solid_of_name (fun c hc => hc) (taskHead_eq_ok_iff.mp hhead).1
                rw [leavesOpen, htask] at hclosed
                obtain ⟨r', hdeclared', hr'⟩ := taskDeclaration_trailing hdeclared hr hclosed he
                rw [hkept rfl htask hrest]
                dsimp only [Option.map_some]
                rw [hdeclared']
                exact ⟨_, _, rfl, hr', rfl⟩
              · cases h
          | none =>
              rw [htask] at h
              dsimp only at h
              cases hnamespace : eatKeyword "namespace".toList t with
              | some rest =>
                  rw [hnamespace] at h
                  dsimp only at h
                  have hrest : Solid rest := by
                    refine solid_of_name (fun c => isTaskNameChar_of_isWordChar) ?_
                    intro hnil
                    rw [namespaceDeclaration, hnil] at h
                    cases h
                  rw [hkept rfl hnamespace hrest, eatKeyword_blankLed "namespace".toList rfl hn',
                    hnamespace]
                  exact namespaceDeclaration_trailing h hr he
              | none =>
                  rw [hnamespace] at h
                  cases h

end Item

open Item

/-! ## Whole texts -/

/-- Reading a text comes to a last item, whose text begins with `t`, and behind it there are only
spaces and tabs: no line end, and no comment. -/
inductive EndsWith (source t : Text) : Prop
  | intro {s after : Text} {doc : List Text} {item : Item}
      (hcomes : Comes source s) (hlead : leadingComments [] s = (doc, t))
      (hitem : declaration doc t = .ok (item, after)) (hafter : skipInline after = [])

/-- What the comment lines above an item leave is not blank. -/
theorem solid_of_leadingComments {doc : List Text} {s t : Text}
    (h : leadingComments [] s = (doc, t)) (ht : t ≠ []) : Solid t := by
  obtain ⟨doc', tail, htail, hlead, -⟩ := exists_behind_comments [] s
  rw [h, leadingComments_of_head htail] at hlead
  obtain ⟨-, rfl⟩ := Prod.mk.inj hlead
  obtain ⟨c, rest, hc⟩ := List.exists_cons_of_ne_nil ht
  have hhead := List.head?_dropWhile_not isSpacing tail
  rw [show tail.dropWhile isSpacing = _ from hc] at hhead
  exact ⟨c, hc ▸ List.mem_cons_self, by simpa using hhead⟩

theorem skipSpacing_of_skipInline {s : Text} (h : skipInline s = []) : skipSpacing s = [] :=
  List.dropWhile_eq_nil_iff.mpr fun c hc =>
    isSpacing_of_isInlineBlank (List.dropWhile_eq_nil_iff.mp h c hc)

theorem endOfItem_of_blank {s : Text} (h : skipInline s = []) : endOfItem s = .ok [] := by
  rw [endOfItem, skipComment, h]
  rfl

/-- A text is one line if it has no line feed, and no carriage return at its end. -/
theorem splitLine_of_line {s : Text} (hfeed : '\n' ∉ s) (hreturn : s.getLast? ≠ some '\r') :
    splitLine s = (s, []) := by
  have hall : ∀ c ∈ s, (c != '\n') = true := by
    intro c hc
    rw [bne_iff_ne]
    rintro rfl
    exact hfeed hc
  rw [splitLine, List.takeWhile_eq_self_iff.mpr hall, List.dropWhile_eq_nil_iff.mpr hall,
    if_neg hreturn]

/-- A comment at the end of the text ends an item. -/
theorem endOfItem_comment {s comment : Text} (h : skipInline s = '#' :: comment)
    (hfeed : '\n' ∉ comment) (hreturn : comment.getLast? ≠ some '\r') : endOfItem s = .ok [] := by
  have hline : splitLine ('#' :: comment) = ('#' :: comment, []) := by
    refine splitLine_of_line ?_ ?_
    · rw [List.mem_cons, not_or]
      exact ⟨by decide, hfeed⟩
    · cases comment with
      | nil => decide
      | cons c more => rwa [List.getLast?_cons_cons]
  rw [endOfItem, skipComment, h, List.head?_cons, if_pos rfl, hline]
  rfl

theorem endOfItem_closing {s rest : Text} (h : skipInline s = '}' :: rest) :
    endOfItem s = .ok ('}' :: rest) := by
  rw [endOfItem, skipComment, h]
  rfl

/-- What stands behind an item is read without its places. -/
theorem behind_congr {item item' : Item} (h : item'.placeless = item.placeless) (s : Text) :
    item'.behind s = item.behind s := by
  cases item <;> cases item' <;> cases h <;> rfl

/-- The last item of a file is not the opening of a block, which would stay open. -/
theorem behind_last {found : List Item} {item : Item} {file : TaskFile}
    (h : Nesting.empty.addAll (found ++ [item]) = .ok ⟨file, []⟩) (s : Text) :
    item.behind s = endOfItem s := by
  cases item with
  | opening name start brace =>
      obtain ⟨⟨⟨tasks, namespaces, vars, own⟩, blocks⟩, -, hopen⟩ :=
        Nesting.exists_addAll_of_append h
      cases blocks <;> cases own <;> cases hopen
  | _ => rfl

/-- A text that ends with an item has the same items with something behind that item, but for their
places, and the last one ends in front of what comes behind it. -/
theorem EndsWith.exists_items {source t e : Text} {file : TaskFile} (h : EndsWith source t)
    (hread : TaskFile.read source = .ok file) (hclosed : leavesOpen t = false) (he : EndsLine e) :
    ∃ found r, Nesting.empty.addAll found = .ok ⟨file, []⟩ ∧ skipInline r = e ∧
      ∀ next, endOfItem r = .ok next →
        items (source ++ ' ' :: e) = (found ++ (items next).1, (items next).2) := by
  obtain ⟨hcomes, hlead, hitem, hafter⟩ := h
  rename_i s after doc item
  have hne : t ≠ [] := by
    rintro rfl
    cases hitem
  have ht : Solid t := solid_of_leadingComments hlead hne
  have hs : Solid s := by
    have hsuffix := leadingComments_suffix [] s
    rw [hlead] at hsuffix
    exact ht.mono hsuffix
  obtain ⟨item', r, hitem', hr, hsame⟩ := declaration_trailing hitem hafter hclosed he
  have hlead' : leadingComments [] (s ++ ' ' :: e) = (doc, t ++ ' ' :: e) :=
    leadingComments_exchange (n := []) (by rwa [List.append_nil, List.append_nil]) ht _
  have hcomes' : Comes (source ++ []) (s ++ []) := by
    rwa [List.append_nil, List.append_nil]
  have hn' : BlankLed (' ' :: e) := blankLed_cons rfl e
  obtain ⟨front, front', hfront, hitems, hitems'⟩ := hcomes'.exchange blankLed_nil hs hn'
  obtain ⟨c, rest, rfl⟩ := List.exists_cons_of_ne_nil hne
  have hlast : items s = ([item], none) := by
    obtain ⟨next, hnext, hblank⟩ :
        ∃ next, item.behind after = .ok next ∧ items next = ([], none) := by
      cases item with
      | opening => exact ⟨after, rfl, items_of_blank (skipSpacing_of_skipInline hafter)⟩
      | _ => exact ⟨[], endOfItem_of_blank hafter, items_of_blank rfl⟩
    rw [items_eq, hlead, itemsFrom_cons hitem hnext, hblank]
  rw [List.append_nil, List.append_nil, hlast] at hitems
  obtain ⟨_, hfound, hadd⟩ := TaskFile.read_eq_ok_iff.mp hread
  obtain rfl := (Prod.mk.inj (hitems.symm.trans hfound)).1
  refine ⟨front' ++ [item'], r, Nesting.addAll_congr ?_ hadd, hr, fun next hnext => ?_⟩
  · rw [List.map_append, List.map_append, hfront, List.map_singleton, List.map_singleton, hsame]
  · have hend : item'.behind r = .ok next := by
      rw [behind_congr hsame, behind_last hadd, hnext]
    rw [List.cons_append] at hitem'
    rw [hitems', items_eq, hlead', List.cons_append, itemsFrom_cons hitem' hend, List.append_assoc]
    rfl

namespace TaskFile

/-- **LINE ENDS DO NOT COUNT**: a text that ends with an item is read as the same file with a
comment behind it, and in the braces of a namespace block as that namespace with the same
declarations, if the file names no namespace of its own.  The last item is not a task whose
dependencies run to the end of the line, and the comment has no line feed, and no carriage
return at its end. -/
theorem line_ends_do_not_count {source : String} {file : TaskFile} (h : parse source = .ok file)
    {t : Text} (hends : EndsWith source.toList t) (hclosed : leavesOpen t = false) :
    (∀ comment : String, '\n' ∉ comment.toList → comment.toList.getLast? ≠ some '\r' →
      parse (source ++ " # " ++ comment) = .ok file)
    ∧ (file.fileNamespace = none → ∀ name : String, name ≠ "" →
      (∀ c ∈ name.toList, isWordChar c = true) →
      parse ("namespace " ++ name ++ " \x7b " ++ source ++ " \x7d")
        = .ok { namespaces := [⟨name, file.tasks, file.vars, file.namespaces⟩] }) := by
  rw [parse_eq_ok_iff] at h
  constructor
  · intro comment hfeed hreturn
    obtain ⟨found, r, hadd, hr, hitems⟩ :=
      hends.exists_items h hclosed (e := '#' :: ' ' :: comment.toList) (Or.inl rfl)
    have hend : endOfItem r = .ok [] := by
      refine endOfItem_comment hr ?_ ?_
      · rw [List.mem_cons, not_or]
        exact ⟨by decide, hfeed⟩
      · cases hcomment : comment.toList with
        | nil => decide
        | cons c more =>
            rw [hcomment] at hreturn
            rwa [List.getLast?_cons_cons]
    have htext : (source ++ " # " ++ comment).toList
        = source.toList ++ ' ' :: '#' :: ' ' :: comment.toList := by
      rw [String.toList_append, String.toList_append, List.append_assoc]
      rfl
    rw [parse_eq_ok_iff, htext]
    have hnone : items [] = ([], none) := items_of_blank rfl
    have hall := hitems _ hend
    rw [hnone, List.append_nil] at hall
    exact read_eq_ok_iff.mpr ⟨found, hall, hadd⟩
  · intro hown name hne hword
    obtain ⟨found, r, hadd, hr, hitems⟩ := hends.exists_items h hclosed (e := ['}']) (Or.inr rfl)
    have hbrace : items ['}'] = ([.closing ['}']], none) := by
      rw [items_cons rfl (by decide) rfl rfl, items_of_blank rfl]
    have hall := hitems _ (endOfItem_closing hr)
    rw [hbrace] at hall
    have hne' : name.toList ≠ [] := fun h => hne (String.toList_eq_nil_iff.mp h)
    obtain ⟨start, brace, hopening⟩ :=
      items_namespaceBlock hne' hword (' ' :: (source.toList ++ [' ', '}']))
    rw [items_blank rfl, hall, String.ofList_toList] at hopening
    rw [parse_eq_ok_iff]
    simp only [String.toList_append, List.append_assoc]
    exact read_eq_ok_iff.mpr ⟨_, hopening, Nesting.addAll_namespaceBlock hadd hown _ _ _ _⟩

/-- A variable, and a task with arguments, dependencies and a body. -/
def releasing : String := "mode = \"fast\"\ntask release(tag) => build \x7b publish \x7d"

/-- The file of those two. -/
def released : TaskFile where
  vars := [⟨"mode", .literal "fast"⟩]
  tasks := [{ name := "release", arguments := ["tag"], dependencies := ["build"],
              commands := [⟨[.text "publish"], false, false⟩] }]

theorem parse_releasing : parse releasing = .ok released := by
  rewrite [parse, read, items_cons (by cbv) (by decide) (by cbv) (by cbv),
    items_cons (by cbv) (by decide) (by cbv) (by cbv), items_of_blank (by cbv)]
  rfl

theorem releasing_endsWith :
    EndsWith releasing.toList "task release(tag) => build \x7b publish \x7d".toList := by
  have hlead : leadingComments [] releasing.toList
      = ([], 'm' :: "ode = \"fast\"\ntask release(tag) => build \x7b publish \x7d".toList) :=
    leadingComments_of_ne (by cbv) (by decide)
  have hmode : declaration []
      ('m' :: "ode = \"fast\"\ntask release(tag) => build \x7b publish \x7d".toList)
        = .ok (.variable ⟨"mode", .literal "fast"⟩,
          "\ntask release(tag) => build \x7b publish \x7d".toList) := by
    cbv
  have hend : endOfItem "\ntask release(tag) => build \x7b publish \x7d".toList
      = .ok "task release(tag) => build \x7b publish \x7d".toList := by
    cbv
  have hrelease : declaration [] "task release(tag) => build \x7b publish \x7d".toList
      = .ok (.task { name := "release", arguments := ["tag"], dependencies := ["build"],
                     commands := [⟨[.text "publish"], false, false⟩] }, []) := by
    cbv
  have hlead' : leadingComments [] "task release(tag) => build \x7b publish \x7d".toList
      = ([], "task release(tag) => build \x7b publish \x7d".toList) :=
    (@leadingComments_of_ne _ "ask release(tag) => build \x7b publish \x7d".toList 't' (by cbv)
      (by decide)).trans (by cbv)
  exact .intro (.behind hlead hmode hend (.here _)) hlead' hrelease rfl

theorem releasing_ends_as_it_may :
    parse (releasing ++ " # " ++ "to => all \x7b") = .ok released
      ∧ parse ("namespace " ++ "ci" ++ " \x7b " ++ releasing ++ " \x7d")
        = .ok { namespaces := [⟨"ci", released.tasks, released.vars, []⟩] } := by
  obtain ⟨hcomment, hblock⟩ := line_ends_do_not_count parse_releasing releasing_endsWith (by cbv)
  exact ⟨hcomment _ (by simp) (by decide),
    hblock rfl "ci" (by decide) (List.all_eq_true.mp (by decide))⟩

/-- A task with a dependency and no body. -/
def bare : String := "task t => a"

theorem parse_bare : parse bare = .ok { tasks := [{ name := "t", dependencies := ["a"] }] } := by
  rewrite [parse, read, items_cons (by cbv) (by decide) (by cbv) (by cbv), items_of_blank (by cbv)]
  rfl

theorem bare_endsWith : EndsWith bare.toList bare.toList := by
  have hlead : leadingComments [] bare.toList = ([], bare.toList) :=
    (@leadingComments_of_ne _ "ask t => a".toList 't' (by cbv) (by decide)).trans (by cbv)
  have hitem : declaration [] bare.toList
      = .ok (.task { name := "t", dependencies := ["a"] }, []) := by
    cbv
  exact .intro (.here _) hlead hitem rfl

theorem parse_bare_comment : parse "task t => a # note"
    = .ok { tasks := [{ name := "t", dependencies := ["a", "#", "note"] }] } := by
  rewrite [parse, read, items_cons (by cbv) (by decide) (by cbv) (by cbv), items_of_blank (by cbv)]
  rfl

theorem parse_bare_block : parse "namespace n \x7b task t => a \x7d"
    = .error (.unterminatedBlock .namespaceBlock ⟨1, 13⟩) := by
  rewrite [parse, read, items_cons (by cbv) (by decide) (by cbv) (by cbv),
    items_cons (by cbv) (by decide) (by cbv) (by cbv), items_of_blank (by cbv)]
  cbv

/-- **DEPENDENCIES RUN ON**: behind a task with dependencies and no body, a comment is taken for two
more of them, and so is the brace that closes a block, which is missing then. -/
theorem line_ends_may_count :
    parse bare = .ok { tasks := [{ name := "t", dependencies := ["a"] }] } ∧
      EndsWith bare.toList bare.toList ∧
      parse (bare ++ " # " ++ "note") ≠ parse bare ∧
      parse ("namespace " ++ "n" ++ " \x7b " ++ bare ++ " \x7d")
        ≠ .ok { namespaces := [⟨"n", [{ name := "t", dependencies := ["a"] }], [], []⟩] } := by
  refine ⟨parse_bare, bare_endsWith, ?_, ?_⟩
  · have htext : bare ++ " # " ++ "note" = "task t => a # note" := by decide
    rw [htext, parse_bare_comment, parse_bare]
    intro h
    cases h
  · have htext : "namespace " ++ "n" ++ " \x7b " ++ bare ++ " \x7d"
        = "namespace n \x7b task t => a \x7d" := by decide
    rw [htext, parse_bare_block]
    intro h
    cases h

end TaskFile

end TaskRunner
