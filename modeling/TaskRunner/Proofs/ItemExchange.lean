import TaskRunner.Proofs.Composition

/-! # Items do not depend on what comes much later

    The text behind an item can be exchanged from some place on, if something that is no
    blank stands between the item and that place: each reader stops in front of it and has
    seen nothing of what is exchanged.  From the readers this goes over to a whole item
    (**`declaration_exchange`**), to what stands behind it (`behind_exchange`), and to the
    comment lines above it (`leadingComments_exchange`).  Only the places that items keep
    for errors differ (`placeless`). -/

namespace TaskRunner

open Text

namespace Item

variable {n n' : Text}

/-! ## Variables -/

/-- A name, an equals sign and what follows are read in front of any end that no name runs on into.
-/
theorem assignment?_exchange {s name v : Text} (hn : BlankLed n)
    (h : assignment? (s ++ n) = some (name, v ++ n)) (hv : v ≠ []) (hn' : BlankLed n') :
    assignment? (s ++ n') = some (name, v ++ n') := by
  unfold assignment? at h
  dsimp only at h
  split at h
  · cases h
  · rename_i hname
    split at h
    · cases h
    · rename_i harrow
      obtain ⟨after, hafter, heq⟩ := Option.map_eq_some_iff.mp h
      obtain ⟨rfl, hrest⟩ := Prod.mk.inj heq
      obtain ⟨w, rfl, hw⟩ := exists_of_dropWhile hrest
      have hequals := eat_eq_some_iff.mp hafter
      obtain ⟨front, hfront, hsuffix⟩ := exists_of_dropWhile
        (hequals.trans (show ['='] ++ (w ++ n) = '=' :: w ++ n from rfl))
      have hfrontNe : front ≠ [] := by
        rintro rfl
        exact absurd (List.suffix_nil.mp hsuffix) (List.cons_ne_nil _ _)
      have hblanks : skipInline (front ++ n) = '=' :: w ++ n := by rw [← hfront, hequals]; rfl
      have hsame : skipInline front = '=' :: w := dropWhile_of_append hblanks (List.cons_ne_nil _ _)
      have harrow' : ¬ (eat ['=', '>'] ('=' :: w ++ n')).isSome = true := by
        rw [eat_blankLed ['=', '>'] rfl hn', Option.isSome_map]
        rw [hequals, show ['='] ++ (w ++ n) = '=' :: w ++ n from rfl,
          eat_blankLed ['=', '>'] rfl hn, Option.isSome_map] at harrow
        exact harrow
      rw [assignment?, takeWhile_exchange hfront hfrontNe, dropWhile_exchange hfront hfrontNe,
        if_neg hname]
      dsimp only
      rw [show skipInline (front ++ n') = '=' :: w ++ n' from
        dropWhile_exchange hblanks (List.cons_ne_nil _ _) n', if_neg harrow']
      show some (_, skipInline (w ++ n')) = _
      rw [show skipInline (w ++ n') = v ++ n' from dropWhile_exchange hrest hv n']

/-- Where there is no assignment, another end does not make one, provided the text goes on behind
its first word. -/
theorem assignment?_exchange_of_none {s w : Text} (hn : BlankLed n)
    (h : assignment? (s ++ n) = none) (hdrop : (s ++ n).dropWhile isWordChar = w ++ n)
    (hw : Solid w) (hn' : BlankLed n') : assignment? (s ++ n') = none := by
  have hskip : ∀ t, skipInline (w ++ t) = skipInline w ++ t := fun t =>
    dropWhile_append_of_ne hw.skipInline_ne_nil t
  rw [assignment?, hdrop] at h
  rw [assignment?, takeWhile_exchange hdrop hw.ne_nil, dropWhile_exchange hdrop hw.ne_nil]
  dsimp only at h ⊢
  rw [hskip, eat_blankLed ['=', '>'] rfl hn, eat_blankLed ['='] rfl hn, Option.isSome_map] at h
  rw [hskip, eat_blankLed ['=', '>'] rfl hn', eat_blankLed ['='] rfl hn', Option.isSome_map]
  split
  · rfl
  · rename_i hname
    rw [if_neg hname] at h
    split
    · rfl
    · rename_i harrow
      rw [if_neg harrow, Option.map_map, Option.map_eq_none_iff] at h
      rw [h]
      rfl

/-! ## Tasks and namespaces -/

/-- Arguments are read up to their own mark and the blanks behind it. -/
theorem arguments_exchange {s v : Text} {names : List String} (hn : BlankLed n)
    (h : arguments (s ++ n) = .ok (names, v ++ n)) (hv : v ≠ []) (hn' : BlankLed n') :
    arguments (s ++ n') = .ok (names, v ++ n') := by
  rw [arguments, eat_blankLed ['('] rfl hn] at h
  rw [arguments, eat_blankLed ['('] rfl hn']
  cases hstart : eat ['('] s with
  | none =>
      rw [hstart] at h
      obtain ⟨rfl, hrest⟩ := Prod.mk.inj (Except.ok.inj h)
      rw [List.append_cancel_right hrest]
      rfl
  | some rest =>
      rw [hstart] at h
      dsimp only [Option.map_some] at h ⊢
      split at h
      · cases h
      · rename_i inside after hthrough
        obtain ⟨rfl, hrest⟩ := Prod.mk.inj (Except.ok.inj h)
        obtain ⟨w, rfl, -⟩ := exists_of_dropWhile hrest
        rw [upThrough_exchange (by decide) hthrough]
        dsimp only
        rw [show skipInline (w ++ n') = v ++ n' from dropWhile_exchange hrest hv n']

/-- Dependencies are read up to a brace or a line feed that stands in front of the end. -/
theorem dependencies_exchange {s v : Text} (hn : BlankLed n)
    (h : (dependencies (s ++ n)).2 = v ++ n) (hv : v ≠ []) (hn' : BlankLed n') :
    dependencies (s ++ n') = ((dependencies (s ++ n)).1, v ++ n') := by
  cases hstart : eat ['=', '>'] s with
  | none =>
      have hnone : ∀ {t : Text}, BlankLed t → dependencies (s ++ t) = ([], s ++ t) := by
        intro t ht
        rw [dependencies, eat_blankLed ['=', '>'] rfl ht, hstart]
        rfl
      rw [hnone hn] at h ⊢
      rw [hnone hn', List.append_cancel_right h]
  | some rest =>
      rw [dependencies, eat_append hstart] at h ⊢
      rw [dependencies, eat_append hstart]
      dsimp only at h ⊢
      rw [takeWhile_exchange h hv, dropWhile_exchange h hv]

/-- A body is looked for behind blanks and line feeds, so what is left must not be all blanks. -/
theorem body_exchange {s v : Text} {commands : List Command} (hn : BlankLed n)
    (h : body (s ++ n) = .ok (commands, v ++ n)) (hv : Solid v) (hn' : BlankLed n') :
    body (s ++ n') = .ok (commands, v ++ n') := by
  have hs : Solid s := by
    obtain ⟨w, hw, hsuffix⟩ := exists_of_suffix (body_suffix h)
    exact hv.mono (List.append_cancel_right hw ▸ hsuffix)
  have hskip : ∀ t, skipSpacing (s ++ t) = skipSpacing s ++ t := fun t =>
    dropWhile_append_of_ne hs.skipSpacing_ne_nil t
  rw [body, hskip, eat_blankLed ['{'] rfl hn] at h
  rw [body, hskip, eat_blankLed ['{'] rfl hn']
  cases hbrace : eat ['{'] (skipSpacing s) with
  | none =>
      rw [hbrace] at h
      obtain ⟨rfl, hrest⟩ := Prod.mk.inj (Except.ok.inj h)
      rw [List.append_cancel_right hrest]
      rfl
  | some rest =>
      rw [hbrace] at h
      dsimp only [Option.map_some] at h ⊢
      split at h
      · rename_i inside after hblock
        obtain ⟨-, behind, rfl⟩ := append_of_scanBlock hblock
        obtain ⟨rfl, hrest⟩ := Prod.mk.inj (Except.ok.inj h)
        rw [show behind = v ++ n from hrest] at hblock
        rw [balanced_exchange hblock]
        rfl
      · cases h
      · cases h

/-- The name, the arguments and the dependencies of a task, in front of its body. -/
def taskHead (s : Text) : Reading (String × List String × List String) :=
  let start := skipInline s
  let name := start.takeWhile isTaskNameChar
  if name.isEmpty then .error (.expected .taskName start)
  else
    match arguments (skipInline (start.dropWhile isTaskNameChar)) with
    | .error e => .error e
    | .ok (arguments, rest) =>
      .ok ((String.ofList name, arguments, (dependencies rest).1), (dependencies rest).2)

/-- A head is a name that is not empty, arguments that are closed, and dependencies, which never
fail. -/
theorem taskHead_eq_ok_iff {s r : Text} {head : String × List String × List String} :
    taskHead s = .ok (head, r) ↔
      (skipInline s).takeWhile isTaskNameChar ≠ [] ∧ ∃ names rest,
        arguments (skipInline ((skipInline s).dropWhile isTaskNameChar)) = .ok (names, rest) ∧
        head = (String.ofList ((skipInline s).takeWhile isTaskNameChar), names,
          (dependencies rest).1) ∧ r = (dependencies rest).2 := by
  rw [taskHead]
  by_cases hname : (skipInline s).takeWhile isTaskNameChar = []
  · rw [hname]
    constructor
    · intro h
      cases h
    · rintro ⟨h, -⟩
      exact absurd rfl h
  · rw [if_neg (by simpa using hname)]
    cases hargs : arguments (skipInline ((skipInline s).dropWhile isTaskNameChar)) with
    | error e =>
        constructor
        · intro h
          cases h
        · rintro ⟨-, _, _, h, -⟩
          cases h
    | ok found =>
        obtain ⟨names, rest⟩ := found
        constructor
        · intro h
          cases h
          exact ⟨hname, names, rest, rfl, rfl, rfl⟩
        · rintro ⟨-, _, _, h, rfl, rfl⟩
          cases h
          rfl

/-- A task is a head and a body, and both are found in it. -/
theorem taskDeclaration_eq_ok_iff {description : Option String} {s r : Text} {task : Task} :
    taskDeclaration description s = .ok (task, r) ↔
      ∃ name arguments dependencies rest commands,
        taskHead s = .ok ((name, arguments, dependencies), rest) ∧
        body rest = .ok (commands, r) ∧
        task = { name, description, arguments, dependencies, commands } := by
  rw [taskDeclaration]
  by_cases hname : (skipInline s).takeWhile isTaskNameChar = []
  · rw [if_pos (by rw [hname]; rfl)]
    constructor
    · intro h
      cases h
    · rintro ⟨_, _, _, _, _, h, -⟩
      exact absurd hname (taskHead_eq_ok_iff.mp h).1
  · rw [if_neg (by simpa using hname)]
    constructor
    · intro h
      split at h
      · cases h
      · rename_i names rest hargs
        split at h
        · cases h
        · rename_i hbody
          obtain ⟨rfl, rfl⟩ := Prod.mk.inj (Except.ok.inj h)
          exact ⟨_, _, _, _, _, taskHead_eq_ok_iff.mpr ⟨hname, names, rest, hargs, rfl, rfl⟩, hbody,
            rfl⟩
    · rintro ⟨_, _, _, _, _, h, hbody, rfl⟩
      obtain ⟨-, names, rest, hargs, hhead, rfl⟩ := taskHead_eq_ok_iff.mp h
      cases hhead
      simp only [hargs, hbody]

/-- What is left behind a head is an end of the text. -/
theorem taskHead_suffix {s r : Text} {head : String × List String × List String}
    (h : taskHead s = .ok (head, r)) : r <:+ s := by
  obtain ⟨-, names, rest, hargs, -, rfl⟩ := taskHead_eq_ok_iff.mp h
  exact (dependencies_suffix _).trans ((arguments_suffix hargs).trans
    ((List.dropWhile_suffix _).trans ((List.dropWhile_suffix _).trans (List.dropWhile_suffix _))))

/-- What has an end that is not empty is not empty. -/
theorem ne_nil_of_suffix {v w : Text} (hv : v ≠ []) (hsuffix : v <:+ w) : w ≠ [] := by
  rintro rfl
  exact hv (List.suffix_nil.mp hsuffix)

/-- A head is read in front of any end, if something is left between both. -/
theorem taskHead_exchange {s v : Text} {head : String × List String × List String}
    (hn : BlankLed n) (h : taskHead (s ++ n) = .ok (head, v ++ n)) (hv : v ≠ [])
    (hn' : BlankLed n') : taskHead (s ++ n') = .ok (head, v ++ n') := by
  obtain ⟨hname, names, rest, hargs, rfl, hdeps⟩ := taskHead_eq_ok_iff.mp h
  -- what each reader leaves ends with what is exchanged
  obtain ⟨a, rfl, ha⟩ := exists_of_suffix (hdeps ▸ dependencies_suffix rest)
  obtain ⟨b, hb, hab⟩ := exists_of_suffix (arguments_suffix hargs)
  obtain ⟨c, hc, hbc⟩ := exists_of_dropWhile hb
  obtain ⟨d, hd, hcd⟩ := exists_of_dropWhile hc
  have haNe := ne_nil_of_suffix hv ha
  have hbNe := ne_nil_of_suffix haNe hab
  have hcNe := ne_nil_of_suffix hbNe hbc
  have hdNe := ne_nil_of_suffix hcNe hcd
  rw [hc] at hb hargs
  rw [hb] at hargs
  rw [hd] at hname hc ⊢
  have hd' : skipInline (s ++ n') = d ++ n' := dropWhile_exchange hd hdNe n'
  have hb' : skipInline (c ++ n') = b ++ n' := dropWhile_exchange hb hbNe n'
  have hname' := takeWhile_exchange hc hcNe n'
  refine taskHead_eq_ok_iff.mpr ⟨?_, names, a ++ n', ?_, ?_, ?_⟩
  · rwa [hd', hname']
  · rw [hd', dropWhile_exchange hc hcNe, hb']
    exact arguments_exchange hn hargs haNe hn'
  · rw [hd', hname', dependencies_exchange hn hdeps.symm hv hn']
  · rw [dependencies_exchange hn hdeps.symm hv hn']

/-- **A TASK IS READ IN ITS OWN TEXT**, in front of any end. -/
theorem taskDeclaration_exchange {description : Option String} {s v : Text} {task : Task}
    (hn : BlankLed n) (h : taskDeclaration description (s ++ n) = .ok (task, v ++ n)) (hv : Solid v)
    (hn' : BlankLed n') : taskDeclaration description (s ++ n') = .ok (task, v ++ n') := by
  obtain ⟨name, arguments, dependencies, rest, commands, hhead, hbody, rfl⟩ :=
    taskDeclaration_eq_ok_iff.mp h
  obtain ⟨w, rfl, hw⟩ := exists_of_suffix (body_suffix hbody)
  exact taskDeclaration_eq_ok_iff.mpr ⟨name, arguments, dependencies, w ++ n', commands,
    taskHead_exchange hn hhead (hv.mono hw).ne_nil hn', body_exchange hn hbody hv hn', rfl⟩

/-- The item without the places that it keeps. -/
def placeless : Item → Item
  | .opening name _ _ => .opening name [] []
  | .closing _ => .closing []
  | .fileNamespace name _ _ => .fileNamespace name [] []
  | item => item

/-- A namespace is the same but for the places that it keeps for errors. -/
theorem namespaceDeclaration_exchange {start start' s v : Text} {item : Item} (hn : BlankLed n)
    (h : namespaceDeclaration start (s ++ n) = .ok (item, v ++ n)) (hv : v ≠ [])
    (hn' : BlankLed n') : ∃ item', namespaceDeclaration start' (s ++ n') = .ok (item', v ++ n') ∧
      item'.placeless = item.placeless := by
  unfold namespaceDeclaration at h
  dsimp only at h
  split at h
  · cases h
  · rename_i hname
    obtain ⟨after, hafter, hsuffix⟩ : ∃ after,
        skipInline ((skipInline (s ++ n)).dropWhile isWordChar) = after ++ n ∧ v <:+ after := by
      apply exists_of_suffix
      split at h
      · rename_i hbrace
        obtain ⟨-, hrest⟩ := Prod.mk.inj (Except.ok.inj h)
        exact hrest ▸ suffix_of_eat hbrace
      · obtain ⟨-, hrest⟩ := Prod.mk.inj (Except.ok.inj h)
        exact hrest ▸ List.suffix_rfl
    obtain ⟨b, hb, hab⟩ := exists_of_dropWhile hafter
    obtain ⟨c, hc, hbc⟩ := exists_of_dropWhile hb
    have hafterNe := ne_nil_of_suffix hv hsuffix
    have hbNe := ne_nil_of_suffix hafterNe hab
    have hcNe := ne_nil_of_suffix hbNe hbc
    rw [hafter, eat_blankLed ['{'] rfl hn] at h
    rw [hb] at hafter
    rw [hc] at hb h hname
    have hc' : skipInline (s ++ n') = c ++ n' := dropWhile_exchange hc hcNe n'
    have hafter' : skipInline (b ++ n') = after ++ n' := dropWhile_exchange hafter hafterNe n'
    rw [namespaceDeclaration, hc', takeWhile_exchange hb hbNe, dropWhile_exchange hb hbNe, hafter',
      if_neg hname]
    dsimp only
    rw [eat_blankLed ['{'] rfl hn']
    cases hbrace : eat ['{'] after with
    | some rest =>
        rw [hbrace] at h
        obtain ⟨rfl, hrest⟩ := Prod.mk.inj (Except.ok.inj h)
        rw [List.append_cancel_right hrest]
        exact ⟨_, rfl, rfl⟩
    | none =>
        rw [hbrace] at h
        obtain ⟨rfl, hrest⟩ := Prod.mk.inj (Except.ok.inj h)
        rw [List.append_cancel_right hrest]
        exact ⟨_, rfl, rfl⟩

/-! ## Items -/

/-- A keyword is the word that a text starts with. -/
theorem dropWhile_keyword {word s rest : Text} (hword : word.all isWordChar = true)
    (h : eatKeyword word s = some rest) (hrest : rest ≠ []) (n : Text) :
    (s ++ n).dropWhile isWordChar = rest ++ n := by
  obtain ⟨c, more, rfl⟩ := List.exists_cons_of_ne_nil hrest
  have hs := eat_of_eatKeyword h
  have hc : isWordChar c = false := by
    rw [eatKeyword, eat_eq_some_iff.mpr hs] at h
    by_contra hc
    have htask := isTaskNameChar_of_isWordChar (show isWordChar c = true by simpa using hc)
    dsimp only at h
    rw [if_pos htask] at h
    cases h
  rw [hs, List.append_assoc, List.dropWhile_append_of_pos (List.all_eq_true.mp hword),
    List.cons_append, List.dropWhile_cons_of_neg (by simp [hc])]

/-- An item is a task if it is no assignment and begins with the keyword. -/
theorem declaration_eq_task_iff {doc : List Text} {s next : Text} {task : Task} :
    declaration doc s = .ok (.task task, next) ↔
      assignment? s = none ∧ ∃ rest, eatKeyword "task".toList s = some rest ∧
        taskDeclaration (description? doc) rest = .ok (task, next) := by
  constructor
  · intro h
    rw [declaration] at h
    split at h
    · cases h
    · split at h
      · split at h
        · cases h
        · cases h
      · rename_i hassign
        split at h
        · rename_i rest hkeyword
          split at h
          · rename_i htask
            cases h
            exact ⟨hassign, rest, hkeyword, htask⟩
          · cases h
        · split at h
          · rw [namespaceDeclaration] at h
            dsimp only at h
            split at h
            · cases h
            · split at h <;> cases h
          · cases h
  · rintro ⟨hassign, rest, hkeyword, htask⟩
    have hbrace : eat ['}'] s = none := by
      rw [eat_of_eatKeyword hkeyword]
      rfl
    rw [declaration, hbrace, hassign, hkeyword]
    dsimp only
    rw [htask]

/-- **ITEMS DO NOT DEPEND ON WHAT COMES LATER**: the text behind an item can be exchanged from some
    place on, if something that is no blank stands between, and only places change. -/
theorem declaration_exchange {doc : List Text} {s v : Text} {item : Item} (hn : BlankLed n)
    (h : declaration doc (s ++ n) = .ok (item, v ++ n)) (hv : Solid v) (hn' : BlankLed n') :
    ∃ item', declaration doc (s ++ n') = .ok (item', v ++ n') ∧
      item'.placeless = item.placeless := by
  rw [declaration, eat_blankLed ['}'] rfl hn] at h
  rw [declaration, eat_blankLed ['}'] rfl hn']
  cases hbrace : eat ['}'] s with
  | some rest =>
      rw [hbrace] at h
      obtain ⟨rfl, hrest⟩ := Prod.mk.inj (Except.ok.inj h)
      rw [List.append_cancel_right hrest]
      exact ⟨_, rfl, rfl⟩
  | none =>
      rw [hbrace] at h
      dsimp only [Option.map_none] at h ⊢
      cases hassign : assignment? (s ++ n) with
      | some found =>
          obtain ⟨name, rest⟩ := found
          rw [hassign] at h
          dsimp only at h
          split at h
          · rename_i hvalue
            obtain ⟨rfl, rfl⟩ := Prod.mk.inj (Except.ok.inj h)
            obtain ⟨w, rfl, hw⟩ := exists_of_suffix (value_suffix hvalue)
            rw [assignment?_exchange hn hassign (hv.mono hw).ne_nil hn']
            dsimp only
            rw [value_exchange hn hvalue hn']
            exact ⟨_, rfl, rfl⟩
          · cases h
      | none =>
          rw [hassign, eatKeyword_blankLed "task".toList rfl hn] at h
          dsimp only at h
          cases htask : eatKeyword "task".toList s with
          | some rest =>
              rw [htask] at h
              dsimp only [Option.map_some] at h
              split at h
              · rename_i hdeclared
                obtain ⟨rfl, rfl⟩ := Prod.mk.inj (Except.ok.inj h)
                obtain ⟨w, hrest, hw⟩ := exists_of_suffix (taskDeclaration_suffix hdeclared)
                obtain rfl := List.append_cancel_right hrest
                have hdrop := dropWhile_keyword rfl htask (hv.mono hw).ne_nil n
                rw [assignment?_exchange_of_none hn hassign hdrop (hv.mono hw) hn',
                  eatKeyword_blankLed "task".toList rfl hn', htask]
                dsimp only [Option.map_some]
                rw [taskDeclaration_exchange hn hdeclared hv hn']
                exact ⟨_, rfl, rfl⟩
              · cases h
          | none =>
              rw [htask] at h
              dsimp only [Option.map_none] at h
              rw [eatKeyword_blankLed "namespace".toList rfl hn] at h
              cases hnamespace : eatKeyword "namespace".toList s with
              | some rest =>
                  rw [hnamespace] at h
                  dsimp only [Option.map_some] at h
                  obtain ⟨w, hrest, hw⟩ := exists_of_suffix (namespaceDeclaration_suffix h)
                  obtain rfl := List.append_cancel_right hrest
                  have hdrop := dropWhile_keyword rfl hnamespace (hv.mono hw).ne_nil n
                  rw [assignment?_exchange_of_none hn hassign hdrop (hv.mono hw) hn',
                    eatKeyword_blankLed "task".toList rfl hn', htask]
                  dsimp only [Option.map_none]
                  rw [eatKeyword_blankLed "namespace".toList rfl hn', hnamespace]
                  exact namespaceDeclaration_exchange hn h hv.ne_nil hn'
              | none =>
                  rw [hnamespace] at h
                  cases h

/-- A line that ends in front of the end is the same in front of any other. -/
theorem splitLine_exchange {s v : Text} (h : (splitLine (s ++ n)).2 = v ++ n) (hv : '\n' ∈ v)
    (t : Text) : splitLine (s ++ t) = ((splitLine (s ++ n)).1, v ++ t) := by
  -- the line ends with the first line feed, which stands in front of what is exchanged
  have hfront : ∃ w, (s ++ n).dropWhile (· != '\n') = w ++ n ∧ w ≠ [] := by
    rw [splitLine] at h
    split at h
    · cases v with
      | nil => cases hv
      | cons c v =>
          obtain ⟨rfl, hrest⟩ := List.cons.inj h
          refine ⟨v, hrest, ?_⟩
          rintro rfl
          exact absurd (List.mem_singleton.mp hv) (by decide)
    · exact ⟨v, h, List.ne_nil_of_mem hv⟩
  obtain ⟨w, hdrop, hw⟩ := hfront
  rw [splitLine, hdrop] at h
  rw [splitLine, splitLine, takeWhile_exchange hdrop hw, dropWhile_exchange hdrop hw, hdrop]
  split at h
  · rename_i hreturn
    rw [if_pos hreturn, if_pos hreturn]
    rw [← List.cons_append] at h
    rw [← List.append_cancel_right h]
    rfl
  · rename_i hreturn
    rw [if_neg hreturn, if_neg hreturn, List.append_cancel_right h]

/-- So is a line end. -/
theorem eatLineEnd_exchange {s v : Text} (h : eatLineEnd (s ++ n) = some (v ++ n)) (hs : s ≠ [])
    (n' : Text) : eatLineEnd (s ++ n') = some (v ++ n') := by
  obtain ⟨c, rest, rfl⟩ := List.exists_cons_of_ne_nil hs
  rw [List.cons_append, eatLineEnd] at h ⊢
  by_cases hfeed : c = '\n'
  · rw [if_pos hfeed] at h ⊢
    rw [List.append_cancel_right (Option.some.inj h)]
  · rw [if_neg hfeed] at h ⊢
    by_cases hreturn : c = '\r'
    · rw [if_pos hreturn] at h ⊢
      rw [eat_eq_some_iff, ← List.append_assoc] at h
      rw [eat_eq_some_iff, List.append_cancel_right h, List.append_assoc]
    · rw [if_neg hreturn] at h
      cases h

/-- A line end has a line feed, unless the text ends there. -/
theorem lineFeed_of_eatLineEnd {s r : Text} (h : eatLineEnd s = some r) (hr : r ≠ []) :
    s = '\n' :: r ∨ s = '\r' :: '\n' :: r := by
  cases s with
  | nil =>
      cases h
      exact absurd rfl hr
  | cons c rest =>
      rw [eatLineEnd] at h
      split at h
      · rename_i hfeed
        cases h
        exact Or.inl (by rw [hfeed])
      · split at h
        · rename_i hreturn
          exact Or.inr (by rw [hreturn, eat_eq_some_iff.mp h]; rfl)
        · cases h

/-- What is left behind a line is its end. -/
theorem head_splitLine_ne_brace (s : Text) : (splitLine s).2.head? ≠ some '}' := by
  rw [splitLine]
  split
  · simp
  · intro h
    have hhead := List.head?_dropWhile_not (· != '\n') s
    rw [h] at hhead
    exact absurd hhead (by decide)

/-- And the blanks and the comment in front of it. -/
theorem endOfItem_exchange {s v : Text} (h : endOfItem (s ++ n) = .ok (v ++ n)) (hv : Solid v)
    (n' : Text) : endOfItem (s ++ n') = .ok (v ++ n') := by
  have hs : Solid s := by
    obtain ⟨w, hw, hsuffix⟩ := exists_of_suffix (endOfItem_suffix h)
    exact hv.mono (List.append_cancel_right hw ▸ hsuffix)
  have hskip : ∀ t, skipInline (s ++ t) = skipInline s ++ t := fun t =>
    dropWhile_append_of_ne hs.skipInline_ne_nil t
  have hhead : ∀ t, (skipInline s ++ t).head? = (skipInline s).head? := fun t =>
    List.head?_append_of_ne_nil _ hs.skipInline_ne_nil
  by_cases hcomment : (skipInline s).head? = some '#'
  · have hline : ∀ t, skipComment (s ++ t) = (splitLine (skipInline s ++ t)).2 := by
      intro t
      rw [skipComment, hskip, hhead, if_pos hcomment]
    rw [endOfItem, hline] at h
    rw [endOfItem, hline]
    cases hend : eatLineEnd (splitLine (skipInline s ++ n)).2 with
    | none =>
        rw [hend] at h
        dsimp only at h
        rw [if_neg (head_splitLine_ne_brace _)] at h
        cases h
    | some rest =>
        rw [hend] at h
        cases h
        have hne : v ++ n ≠ [] := fun hnil => hv.ne_nil (List.append_eq_nil_iff.mp hnil).1
        obtain ⟨w, hw, hfeed, hwne⟩ : ∃ w, (splitLine (skipInline s ++ n)).2 = w ++ n ∧
            '\n' ∈ w ∧ w ≠ [] := by
          rcases lineFeed_of_eatLineEnd hend hne with hlf | hcrlf
          · exact ⟨'\n' :: v, hlf, List.mem_cons_self, List.cons_ne_nil _ _⟩
          · exact ⟨'\r' :: '\n' :: v, hcrlf, List.mem_cons_of_mem _ List.mem_cons_self,
              List.cons_ne_nil _ _⟩
        rw [hw] at hend
        rw [splitLine_exchange hw hfeed]
        dsimp only
        rw [eatLineEnd_exchange hend hwne]
  · have hline : ∀ t, skipComment (s ++ t) = skipInline s ++ t := by
      intro t
      rw [skipComment, hskip, hhead, if_neg hcomment]
    rw [endOfItem, hline] at h
    rw [endOfItem, hline]
    obtain ⟨c, rest, hc⟩ := List.exists_cons_of_ne_nil hs.skipInline_ne_nil
    cases hend : eatLineEnd (skipInline s ++ n) with
    | none =>
        rw [hend, hhead] at h
        dsimp only at h
        split at h
        · rename_i hbrace
          rw [← List.append_cancel_right (Except.ok.inj h), hhead, if_pos hbrace, hc]
          rw [hc] at hbrace
          cases hbrace
          rfl
        · cases h
    | some after =>
        rw [hend] at h
        cases h
        rw [eatLineEnd_exchange hend hs.skipInline_ne_nil]

/-- What may stand behind an item does not depend on the places that the item keeps. -/
theorem behind_exchange {item item' : Item} {s v : Text} (h : item.behind (s ++ n) = .ok (v ++ n))
    (hv : Solid v) (hitem : item'.placeless = item.placeless) (n' : Text) :
    item'.behind (s ++ n') = .ok (v ++ n') := by
  cases item with
  | opening name start brace =>
      cases item' <;> cases hitem
      rw [List.append_cancel_right (Except.ok.inj h)]
      rfl
  | _ =>
      cases item' <;> cases hitem
      all_goals exact endOfItem_exchange h hv n'

/-- Behind a line there is a line feed before anything that is no blank. -/
theorem lineFeed_mem_of_splitLine {s w : Text} (h : (splitLine s).2 = w ++ n) (hw : Solid w) :
    '\n' ∈ w := by
  have hdrop : ∀ {w : Text}, s.dropWhile (· != '\n') = w ++ n → w ≠ [] → '\n' ∈ w := by
    intro w hrest hne
    obtain ⟨c, more, rfl⟩ := List.exists_cons_of_ne_nil hne
    have hhead := List.head?_dropWhile_not (· != '\n') s
    rw [hrest] at hhead
    have hc : c = '\n' := by simpa using hhead
    rw [hc]
    exact List.mem_cons_self
  rw [splitLine] at h
  split at h
  · obtain ⟨c, more, rfl⟩ := List.exists_cons_of_ne_nil hw.ne_nil
    obtain ⟨rfl, hrest⟩ := List.cons.inj h
    refine List.mem_cons_of_mem _ (hdrop hrest ?_)
    rintro rfl
    obtain ⟨c, hc, hsolid⟩ := hw
    obtain rfl := List.mem_singleton.mp hc
    cases hsolid
  · exact hdrop h hw.ne_nil

/-- The comment lines above an item do not depend on what comes later either. -/
theorem leadingComments_exchange {doc doc' : List Text} {s v : Text}
    (h : leadingComments doc (s ++ n) = (doc', v ++ n)) (hv : Solid v) (n' : Text) :
    leadingComments doc (s ++ n') = (doc', v ++ n') := by
  have hs : Solid s := by
    have hsuffix := leadingComments_suffix doc (s ++ n)
    rw [h] at hsuffix
    obtain ⟨w, hw, hvw⟩ := exists_of_suffix hsuffix
    exact hv.mono (List.append_cancel_right hw ▸ hvw)
  have hskip : ∀ t, skipSpacing (s ++ t) = skipSpacing s ++ t := fun t =>
    dropWhile_append_of_ne hs.skipSpacing_ne_nil t
  have hhead : ∀ t, (skipSpacing (s ++ t)).head? = (skipSpacing s).head? := fun t => by
    rw [hskip, List.head?_append_of_ne_nil _ hs.skipSpacing_ne_nil]
  have hattached : ∀ t, attached doc (s ++ t) = attached doc s := fun t => by
    rw [attached, attached, leadingLineFeeds_append hs.skipSpacing_ne_nil]
  by_cases hcomment : (skipSpacing s).head? = some '#'
  · obtain ⟨rest, hrest⟩ := List.head?_eq_some_iff.mp hcomment
    have hstart : ∀ t, skipSpacing (s ++ t) = '#' :: (rest ++ t) := fun t => by
      rw [hskip, hrest, List.cons_append]
    rw [leadingComments_of_comment (hstart n), hattached] at h
    have hsuffix := leadingComments_suffix
      (attached doc s ++ [commentText (splitLine ('#' :: (rest ++ n))).1])
      (splitLine ('#' :: (rest ++ n))).2
    rw [h] at hsuffix
    obtain ⟨w, hw, hvw⟩ := exists_of_suffix hsuffix
    have hshorter : w.length < s.length := by
      have h1 : (splitLine ('#' :: (rest ++ n))).2.length < ('#' :: (rest ++ n)).length :=
        length_splitLine_lt (by decide) (by decide)
      have h2 := length_skipSpacing_le (s ++ n)
      rw [hstart n] at h2
      rw [hw] at h1
      simp only [List.length_append, List.length_cons] at h1 h2
      omega
    have hline := splitLine_exchange (s := '#' :: rest) hw
      (lineFeed_mem_of_splitLine hw (hv.mono hvw)) n'
    rw [leadingComments_of_comment (hstart n'), hattached, ← List.cons_append, hline]
    rw [hw] at h
    exact leadingComments_exchange h hv n'
  · rw [leadingComments_of_head (by rwa [hhead]), hattached, hskip] at h
    rw [leadingComments_of_head (by rwa [hhead]), hattached, hskip]
    obtain ⟨rfl, hrest⟩ := Prod.mk.inj h
    rw [List.append_cancel_right hrest]
termination_by s.length

end Item

end TaskRunner
