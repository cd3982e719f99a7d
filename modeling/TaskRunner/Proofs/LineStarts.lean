import TaskRunner.Proofs.LineEnds
import TaskRunner.Proofs.ReadingRuns

/-! # Lines that start behind an item

    What comes behind the line of an item does not count for it: an item that leaves the
    rest of its line reads the same when the text ends with that line (`declaration_cut`), and
    then in front of any other lines (`declaration_feed`), so long as no opening brace comes
    first on them.

    A line **starts** where reading comes to an item that ends with the line above, and where
    a block opens at the end of the line above (`LineStarts`).  If the text ends there, its
    items come first in front of more lines, and the items of these are read by themselves
    (**`LineStarts.exists_items`**). -/

namespace TaskRunner

open Text

namespace Item

/-! ## The line of an item -/

variable {q : Text}

/-- Blanks of a line are passed up to the same character without the lines behind. -/
theorem skipInline_cut {s v : Text} (h : skipInline (s ++ '\n' :: q) = v ++ '\n' :: q) :
    skipInline s = v :=
  List.append_cancel_right ((skipInline_feed s q).symm.trans h)

/-- Arguments that are closed in their line are closed without the lines behind. -/
theorem arguments_cut {s v : Text} {names : List String}
    (h : arguments (s ++ '\n' :: q) = .ok (names, v ++ '\n' :: q)) :
    arguments s = .ok (names, v) := by
  rw [arguments, eat_blankLed ['('] rfl (blankLed_cons rfl q)] at h
  rw [arguments]
  cases hstart : eat ['('] s with
  | none =>
      rw [hstart] at h
      obtain ⟨rfl, hrest⟩ := Prod.mk.inj (Except.ok.inj h)
      rw [List.append_cancel_right hrest]
  | some rest =>
      rw [hstart] at h
      dsimp only [Option.map_some] at h ⊢
      split at h
      · cases h
      · rename_i inside after hthrough
        obtain ⟨rfl, hrest⟩ := Prod.mk.inj (Except.ok.inj h)
        obtain ⟨w, rfl, -⟩ := exists_of_dropWhile hrest
        have hcut := upThrough_exchange (by decide) hthrough []
        rw [List.append_nil, List.append_nil] at hcut
        rw [hcut]
        dsimp only
        rw [skipInline_cut hrest]

/-- A body that is closed in its lines is the same without those behind. -/
theorem body_cut {s v : Text} {commands : List Command}
    (h : body (s ++ '\n' :: q) = .ok (commands, v ++ '\n' :: q)) :
    body s = .ok (commands, v) := by
  by_cases hs : skipSpacing s = []
  · rw [body, skipSpacing_append_of_blank hs] at h
    rw [body, hs]
    split at h
    · obtain ⟨rfl, hrest⟩ := Prod.mk.inj (Except.ok.inj h)
      rw [← List.append_cancel_right hrest]
      rfl
    · rename_i rest hbrace
      -- a body on the lines below would leave less than these lines
      have hshorter : rest.length < q.length := by
        have hle := (List.dropWhile_suffix isSpacing (l := q)).length_le
        rw [show q.dropWhile isSpacing = '{' :: rest from eat_eq_some_iff.mp hbrace] at hle
        exact hle
      split at h
      · rename_i inside after hblock
        obtain ⟨hrest, -⟩ := append_of_scanBlock hblock
        have hlength := congrArg (fun read => read.2.length) (Except.ok.inj h)
        rw [hrest] at hshorter
        simp only [List.length_append, List.length_drop, List.length_cons] at hlength hshorter
        omega
      · cases h
      · cases h
  · rw [body, skipSpacing_append hs, eat_blankLed ['{'] rfl (blankLed_cons rfl q)] at h
    rw [body]
    cases hbrace : eat ['{'] (skipSpacing s) with
    | none =>
        rw [hbrace] at h
        obtain ⟨rfl, hrest⟩ := Prod.mk.inj (Except.ok.inj h)
        rw [List.append_cancel_right hrest]
    | some rest =>
        rw [hbrace] at h
        dsimp only [Option.map_some] at h ⊢
        split at h
        · rename_i inside after hblock
          obtain ⟨-, behind, rfl⟩ := append_of_scanBlock hblock
          obtain ⟨rfl, hrest⟩ := Prod.mk.inj (Except.ok.inj h)
          rw [show behind = v ++ '\n' :: q from hrest] at hblock
          have hcut := balanced_exchange hblock []
          rw [List.append_nil, List.append_nil] at hcut
          rw [hcut]
          rfl
        · cases h
        · cases h

/-- So is the head of a task. -/
theorem taskHead_cut {s v : Text} {head : String × List String × List String}
    (h : taskHead (s ++ '\n' :: q) = .ok (head, v ++ '\n' :: q)) : taskHead s = .ok (head, v) := by
  obtain ⟨hname, names, rest, hargs, rfl, hdeps⟩ := taskHead_eq_ok_iff.mp h
  obtain ⟨w, rfl, -⟩ := exists_of_suffix (hdeps ▸ dependencies_suffix rest)
  rw [skipInline_feed, takeWhile_stopped rfl] at hname
  rw [skipInline_feed, dropWhile_stopped rfl, skipInline_feed] at hargs
  rw [dependencies_feed] at hdeps
  rw [skipInline_feed, takeWhile_stopped rfl, dependencies_feed]
  exact taskHead_eq_ok_iff.mpr
    ⟨hname, names, w, arguments_cut hargs, rfl, List.append_cancel_right hdeps⟩

/-- And so is the whole task. -/
theorem taskDeclaration_cut {description : Option String} {s v : Text} {task : Task}
    (h : taskDeclaration description (s ++ '\n' :: q) = .ok (task, v ++ '\n' :: q)) :
    taskDeclaration description s = .ok (task, v) := by
  obtain ⟨name, arguments, dependencies, rest, commands, hhead, hbody, rfl⟩ :=
    taskDeclaration_eq_ok_iff.mp h
  obtain ⟨w, rfl, -⟩ := exists_of_suffix (body_suffix hbody)
  exact taskDeclaration_eq_ok_iff.mpr
    ⟨name, arguments, dependencies, w, commands, taskHead_cut hhead, body_cut hbody, rfl⟩

/-- A namespace is the same but for its places. -/
theorem namespaceDeclaration_cut {start start' s v : Text} {item : Item}
    (h : namespaceDeclaration start (s ++ '\n' :: q) = .ok (item, v ++ '\n' :: q)) :
    ∃ item', namespaceDeclaration start' s = .ok (item', v) ∧ item'.placeless = item.placeless := by
  rw [namespaceDeclaration, skipInline_feed, takeWhile_stopped rfl, dropWhile_stopped rfl,
    skipInline_feed] at h
  rw [namespaceDeclaration]
  dsimp only at h ⊢
  split at h
  · cases h
  · rename_i hname
    rw [eat_blankLed ['{'] rfl (blankLed_cons rfl q)] at h
    rw [if_neg hname]
    cases hbrace : eat ['{'] (skipInline ((skipInline s).dropWhile isWordChar)) with
    | some rest =>
        rw [hbrace] at h
        obtain ⟨rfl, hrest⟩ := Prod.mk.inj (Except.ok.inj h)
        rw [List.append_cancel_right hrest]
        exact ⟨_, rfl, rfl⟩
    | none =>
        rw [hbrace] at h
        obtain ⟨rfl, hrest⟩ := Prod.mk.inj (Except.ok.inj h)
        rw [List.append_cancel_right hrest]
        exact ⟨_, rfl, rfl⟩

/-- What a scanner takes in front of a line feed, it takes at the end of the line. -/
theorem eq_some_of_map {scanned : Option Text} {v : Text}
    (h : scanned.map (· ++ '\n' :: q) = some (v ++ '\n' :: q)) : scanned = some v := by
  obtain ⟨rest, hscanned, hrest⟩ := Option.map_eq_some_iff.mp h
  rw [hscanned, List.append_cancel_right hrest]

/-- **AN ITEM READS THE SAME AT THE END OF A TEXT** that ends with its line, and only places
change. -/
theorem declaration_cut {doc : List Text} {s v : Text} {item : Item}
    (h : declaration doc (s ++ '\n' :: q) = .ok (item, v ++ '\n' :: q)) :
    ∃ item', declaration doc s = .ok (item', v) ∧ item'.placeless = item.placeless := by
  have hn : BlankLed ('\n' :: q) := blankLed_cons rfl q
  have hnone : assignment? (s ++ '\n' :: q) = none → assignment? s = none := by
    intro hnone
    cases hassign : assignment? s with
    | none => rfl
    | some found => cases hnone.symm.trans (assignment?_feed hassign q)
  rw [declaration_eq_ok_iff] at h
  cases h with
  | closing hbrace =>
      rw [eat_blankLed ['}'] rfl hn] at hbrace
      exact ⟨_, declaration_eq_ok_iff.mpr (.closing (eq_some_of_map hbrace)), rfl⟩
  | assignment hassign hvalue =>
      cases hassign' : assignment? s with
      | none => cases hassign.symm.trans (assignment?_feed_of_none hassign' q)
      | some found =>
          rw [assignment?_feed hassign'] at hassign
          obtain ⟨rfl, rfl⟩ := Prod.mk.inj (Option.some.inj hassign)
          have hcut := value_exchange hn hvalue blankLed_nil
          rw [List.append_nil, List.append_nil] at hcut
          exact ⟨_, declaration_eq_ok_iff.mpr (.assignment hassign' hcut), rfl⟩
  | task hassign hkeyword htask =>
      obtain ⟨w, rfl, -⟩ := exists_of_suffix (taskDeclaration_suffix htask)
      rw [eatKeyword_blankLed "task".toList rfl hn] at hkeyword
      exact ⟨_, declaration_eq_ok_iff.mpr
        (.task (hnone hassign) (eq_some_of_map hkeyword) (taskDeclaration_cut htask)), rfl⟩
  | namespaced hassign hkeyword hnamespace =>
      obtain ⟨w, rfl, -⟩ := exists_of_suffix (namespaceDeclaration_suffix hnamespace)
      rw [eatKeyword_blankLed "namespace".toList rfl hn] at hkeyword
      obtain ⟨item', hitem', hsame⟩ := namespaceDeclaration_cut hnamespace
      exact ⟨item', declaration_eq_ok_iff.mpr
        (.namespaced (hnone hassign) (eq_some_of_map hkeyword) hitem'), hsame⟩

/-- A line that ends an item ends it whatever comes behind. -/
theorem endOfItem_lineEnd {line : Text} (hline : '\n' ∉ line)
    (h : endOfItem (line ++ '\n' :: q) = .ok q) (t : Text) :
    endOfItem (line ++ '\n' :: t) = .ok t := by
  rw [endOfItem, skipComment_feed] at h ⊢
  have hfeed : '\n' ∉ skipComment line := fun hmem => hline ((skipComment_suffix line).subset hmem)
  cases hrest : skipComment line with
  | nil => rfl
  | cons c rest =>
      rw [hrest, List.cons_append] at h
      rw [hrest, List.mem_cons, not_or] at hfeed
      rw [List.cons_append]
      rw [eatLineEnd, if_neg (Ne.symm hfeed.1)] at h ⊢
      by_cases hreturn : c = '\r'
      · subst hreturn
        rw [if_pos rfl] at h ⊢
        cases rest with
        | nil => rfl
        | cons d rest =>
            have hd : '\n' ≠ d := fun heq => hfeed.2 (heq ▸ List.mem_cons_self)
            rw [List.cons_append, eat, if_neg hd] at h
            cases h
      · rw [if_neg hreturn] at h
        dsimp only at h
        split at h
        · have hlength := congrArg List.length (Except.ok.inj h)
          simp only [List.length_cons, List.length_append] at hlength
          omega
        · cases h

/-- The same for what may stand behind any item. -/
theorem behind_lineEnd {item : Item} {line : Text} (hline : '\n' ∉ line)
    (h : item.behind (line ++ '\n' :: q) = .ok q) (t : Text) :
    item.behind (line ++ '\n' :: t) = .ok t := by
  cases item with
  | opening name start brace =>
      have hlength := congrArg List.length (Except.ok.inj h)
      simp only [List.length_append, List.length_cons] at hlength
      omega
  | _ => exact endOfItem_lineEnd hline h t

end Item

open Item

/-! ## Starts of lines -/

/-- A line starts a text, or behind the line on which an item ends, comment and all, or behind the
line at whose end a block opens. -/
inductive LineStarts (source q : Text) : Prop
  | first (hsource : source = q)
  | behindItem {s t line : Text} {doc : List Text} {item : Item} (hcomes : Comes source s)
      (hlead : leadingComments [] s = (doc, t))
      (hitem : declaration doc t = .ok (item, line ++ '\n' :: q)) (hline : '\n' ∉ line)
      (hend : item.behind (line ++ '\n' :: q) = .ok q)
  | behindBrace {s t line start brace : Text} {doc : List Text} {name : String}
      (hcomes : Comes source s) (hlead : leadingComments [] s = (doc, t))
      (hitem : declaration doc t = .ok (.opening name start brace, line ++ '\n' :: q))
      (hline : '\n' ∉ line) (hblank : skipSpacing line = [])

/-- Reading goes on from where it has come to. -/
theorem Comes.trans {s r v : Text} (h : Comes s r) (hlater : Comes r v) : Comes s v := by
  induction h with
  | here s => exact hlater
  | behind hlead hitem hend _ ih => exact .behind hlead hitem hend (ih hlater)

/-- Reading comes to what stands behind an item. -/
theorem Comes.next {source s t after next : Text} {doc : List Text} {item : Item}
    (h : Comes source s) (hlead : leadingComments [] s = (doc, t))
    (hitem : declaration doc t = .ok (item, after)) (hend : item.behind after = .ok next) :
    Comes source next := by
  obtain ⟨c, rest, rfl, -⟩ := declaration_suffix_tail hitem
  exact h.trans (.behind hlead hitem hend (.here next))

/-- The items from a place where one stands are this one and those behind it. -/
theorem items_of_declaration {s t after next : Text} {doc : List Text} {item : Item}
    (hlead : leadingComments [] s = (doc, t)) (hitem : declaration doc t = .ok (item, after))
    (hend : item.behind after = .ok next) : items s = (item :: (items next).1, (items next).2) := by
  obtain ⟨c, rest, rfl, -⟩ := declaration_suffix_tail hitem
  rw [items_eq, hlead, itemsFrom_cons hitem hend]

/-- The items of a text are those in front of a place that reading comes to, and those behind it. -/
theorem Comes.exists_append {source s : Text} (h : Comes source s) :
    ∃ found, items source = (found ++ (items s).1, (items s).2) := by
  induction h with
  | here s => exact ⟨[], rfl⟩
  | behind hlead hitem hend _ ih =>
      obtain ⟨found, hfound⟩ := ih
      rw [items_of_declaration hlead hitem hend, hfound]
      exact ⟨_ :: found, rfl⟩

/-- A file does not end with the opening of a block. -/
theorem addAll_opening_ne {found : List Item} {file : TaskFile} (name : String)
    (start brace : Text) :
    Nesting.empty.addAll (found ++ [.opening name start brace]) ≠ .ok ⟨file, []⟩ := by
  intro h
  -- behind an opening there may be anything
  cases behind_last h ['x']

namespace LineStarts

variable {source : Text}

/-- Reading comes to a place from which it goes on with the comments on such a line. -/
theorem exists_comes {q : Text} (h : LineStarts source q) :
    ∃ s, Comes source s ∧ leadingComments [] s = leadingComments [] q := by
  cases h with
  | first hsource => exact ⟨source, .here _, by rw [hsource]⟩
  | behindItem hcomes hlead hitem hline hend => exact ⟨q, hcomes.next hlead hitem hend, rfl⟩
  | behindBrace hcomes hlead hitem hline hblank =>
      refine ⟨_, hcomes.next hlead hitem rfl, leadingComments_congr ?_ ?_⟩
      · exact skipSpacing_append_of_blank hblank _
      · rw [attached_nil, attached_nil]

/-- **THE ITEMS OF A TEXT COME FIRST** in front of lines that start at its end, and the items of
these are read by themselves. -/
theorem exists_items {file : TaskFile} (h : LineStarts source [])
    (hread : TaskFile.read source = .ok file) {more : Text}
    (hmore : (skipSpacing more).head? ≠ some '{') :
    ∃ found, Nesting.empty.addAll found = .ok ⟨file, []⟩ ∧
      items (source ++ more) = (found ++ (items more).1, (items more).2) := by
  obtain ⟨found, hfound, hadd⟩ := TaskFile.read_eq_ok_iff.mp hread
  cases h with
  | first hsource =>
      subst hsource
      obtain ⟨rfl, -⟩ := Prod.mk.inj (hfound.symm.trans (items_of_blank rfl))
      exact ⟨[], hadd, rfl⟩
  | behindItem hcomes hlead hitem hline hend =>
      rename_i s t line doc item
      have ht : Solid t := solid_of_leadingComments hlead (by rintro rfl; cases hitem)
      -- the last line feed is the one in front of which more lines are put
      obtain ⟨w, rfl, hw⟩ := exists_of_suffix (declaration_suffix hitem)
      obtain ⟨u, rfl, hu⟩ : ∃ u, s = u ++ ['\n'] ∧ w <:+ u := by
        apply exists_of_suffix
        have hsuffix := leadingComments_suffix [] s
        rwa [hlead] at hsuffix
      obtain ⟨front, rfl, -⟩ := exists_of_suffix hcomes.suffix
      have hwSolid : Solid w := by
        obtain ⟨c, hc, hsolid⟩ := ht
        rcases List.mem_append.mp hc with hc | hc
        · exact ⟨c, hc, hsolid⟩
        · obtain rfl := List.mem_singleton.mp hc
          cases hsolid
      have hn : BlankLed ('\n' :: more) := blankLed_cons rfl more
      obtain ⟨before, before', hbefore, hitems, hitems'⟩ :=
        hcomes.exchange (blankLed_cons rfl []) (hwSolid.mono hu) hn
      have hlead' := leadingComments_exchange hlead hwSolid ('\n' :: more)
      obtain ⟨cut, hcut, hsame⟩ := declaration_cut hitem
      have hitem' := declaration_feed hcut hmore
      have hsame' : (cut.followedBy ('\n' :: more)).placeless = item.placeless := by
        rw [← hsame]
        cases cut <;> rfl
      have hend' : (cut.followedBy ('\n' :: more)).behind (line ++ '\n' :: more) = .ok more := by
        rw [behind_congr hsame']
        exact behind_lineEnd hline hend more
      have hnone : items [] = ([], none) := items_of_blank rfl
      rw [items_of_declaration hlead hitem hend, hnone] at hitems
      obtain rfl := (Prod.mk.inj (hitems.symm.trans hfound)).1
      refine ⟨before' ++ [cut.followedBy ('\n' :: more)], Nesting.addAll_congr ?_ hadd, ?_⟩
      · rw [List.map_append, List.map_append, hbefore, List.map_singleton, List.map_singleton,
          hsame']
      · rw [List.append_assoc, List.singleton_append, hitems',
          items_of_declaration hlead' hitem' hend', List.append_assoc]
        rfl
  | behindBrace hcomes hlead hitem hline hblank =>
      have hblank' := skipSpacing_append_of_blank hblank ['\n']
      obtain ⟨before, hbefore⟩ := hcomes.exists_append
      rw [items_of_declaration hlead hitem rfl, items_of_blank hblank'] at hbefore
      obtain rfl := (Prod.mk.inj (hbefore.symm.trans hfound)).1
      exact absurd hadd (addAll_opening_ne _ _ _)

end LineStarts

end TaskRunner
