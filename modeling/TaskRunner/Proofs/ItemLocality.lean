import TaskRunner.Proofs.ScanLocality
import TaskRunner.TaskFile.Item.Sequence

/-! # Items do not look at the lines below

    The readers of items are made of scanners that do not look ahead, so what a value
    or a list of arguments is does not depend on what comes behind it.  Only a task may look
    at the lines below it, for a body.  So **a declaration reads the same in front of a line
    feed**, unless the first thing on the lines below is an opening brace
    (`declaration_feed`); only the places that it keeps for errors reach further.

    An item may end with the text.  With a line feed there, the item ends behind it
    (`endOfItem_feed`). -/

namespace TaskRunner

open Text

namespace Item

/-! ## The readers of variables -/

/-- The line end that may stand directly behind three quotes. -/
theorem eatFirstLineEnd_append {s : Text} (h : 2 ≤ s.length) (t : Text) :
    (eat ['\r', '\n'] (s ++ t) <|> eat ['\n'] (s ++ t)).getD (s ++ t)
      = (eat ['\r', '\n'] s <|> eat ['\n'] s).getD s ++ t := by
  cases hreturn : eat ['\r', '\n'] s with
  | some rest => rw [eat_append hreturn]; rfl
  | none =>
      rw [eat_append_of_none hreturn h]
      cases hfeed : eat ['\n'] s with
      | some rest => rw [eat_append hfeed]; rfl
      | none => rw [eat_append_of_none hfeed (Nat.le_of_succ_le h)]; rfl

variable {n n' : Text}

/-- The place where a value begins is kept for errors only, so it may change as well. -/
theorem multiline_exchange {start start' s v : Text} {a : Value}
    (h : multiline start (s ++ n) = .ok (a, v ++ n)) (n' : Text) :
    multiline start' (s ++ n') = .ok (a, v ++ n') := by
  unfold multiline at h
  dsimp only at h
  split at h
  · rename_i inside after hthrough
    obtain ⟨rfl, rfl⟩ := Prod.mk.inj (Except.ok.inj h)
    -- the closing quotes stand in front of the text that is exchanged
    have hlength : 2 ≤ s.length := by
      have hquotes := length_of_upThrough hthrough
      have hle := (firstLineEnd_suffix (s ++ n)).length_le
      simp only [List.length_append, List.length_cons, List.length_nil] at hquotes hle
      omega
    rw [eatFirstLineEnd_append hlength] at hthrough
    rw [multiline]
    simp only [eatFirstLineEnd_append hlength, upThrough_exchange (by decide) hthrough]
  · cases h

/-- A command is closed in its own text, and the end behind it does not matter. -/
theorem substitution_exchange {start start' s v : Text} {a : Value}
    (h : substitution start (s ++ n) = .ok (a, v ++ n)) (n' : Text) :
    substitution start' (s ++ n') = .ok (a, v ++ n') := by
  unfold substitution at h
  split at h
  · rename_i hthrough
    obtain ⟨rfl, rfl⟩ := Prod.mk.inj (Except.ok.inj h)
    rw [substitution, upThrough_exchange (by decide) hthrough]
  · cases h

/-- The expression is read between its braces, apart from all that is behind them. -/
theorem bracedExpression_exchange {start start' s v : Text} {a : Value}
    (h : bracedExpression start (s ++ n) = .ok (a, v ++ n)) (n' : Text) :
    bracedExpression start' (s ++ n') = .ok (a, v ++ n') := by
  unfold bracedExpression at h
  split at h
  · cases h
  · rename_i hthrough
    split at h
    · rename_i hparse
      obtain ⟨rfl, rfl⟩ := Prod.mk.inj (Except.ok.inj h)
      simp only [bracedExpression, upThrough_exchange (by decide) hthrough, hparse]
    · cases h

/-- A quoted string is closed in its own text. -/
theorem quotedString_exchange {start start' s v : Text} {a : Value}
    (h : quotedString start (s ++ n) = .ok (a, v ++ n)) (n' : Text) :
    quotedString start' (s ++ n') = .ok (a, v ++ n') := by
  unfold quotedString at h
  split at h
  · rename_i hspan
    obtain ⟨rfl, rfl⟩ := Prod.mk.inj (Except.ok.inj h)
    rw [quotedString, quotedSpan_exchange hspan]
  · cases h

/-- **A VALUE IS READ IN ITS OWN TEXT**: the end behind it may be any text that no name runs on
into. -/
theorem value_exchange {s v : Text} {a : Value} (hn : BlankLed n)
    (h : value (s ++ n) = .ok (a, v ++ n)) (hn' : BlankLed n') :
    value (s ++ n') = .ok (a, v ++ n') := by
  rw [value, eat_blankLed ['"', '"', '"'] rfl hn] at h
  rw [value, eat_blankLed ['"', '"', '"'] rfl hn']
  cases hmultiline : eat ['"', '"', '"'] s with
  | some rest =>
      rw [hmultiline] at h
      exact multiline_exchange h n'
  | none =>
      rw [hmultiline] at h
      dsimp only [Option.map_none] at h ⊢
      rw [eat_blankLed ['`'] rfl hn] at h
      rw [eat_blankLed ['`'] rfl hn']
      cases hsubstitution : eat ['`'] s with
      | some rest =>
          rw [hsubstitution] at h
          exact substitution_exchange h n'
      | none =>
          rw [hsubstitution] at h
          dsimp only [Option.map_none] at h ⊢
          rw [eat_blankLed ['{', '{'] rfl hn] at h
          rw [eat_blankLed ['{', '{'] rfl hn']
          cases hbraces : eat ['{', '{'] s with
          | some rest =>
              rw [hbraces] at h
              exact bracedExpression_exchange h n'
          | none =>
              rw [hbraces] at h
              dsimp only [Option.map_none] at h ⊢
              rw [eat_blankLed ['"'] rfl hn] at h
              rw [eat_blankLed ['"'] rfl hn']
              cases hquote : eat ['"'] s with
              | some rest =>
                  rw [hquote] at h
                  exact quotedString_exchange h n'
              | none =>
                  rw [hquote] at h
                  cases h

/-- So a value is the same in front of further lines. -/
theorem value_feed {s rest : Text} {v : Value} (h : value s = .ok (v, rest)) (t : Text) :
    value (s ++ '\n' :: t) = .ok (v, rest ++ '\n' :: t) :=
  value_exchange blankLed_nil (by rwa [List.append_nil, List.append_nil]) (blankLed_cons rfl t)

/-- A name and an equals sign stand in one line, and further lines do not change them. -/
theorem assignment?_feed {s name rest : Text} (h : assignment? s = some (name, rest)) (t : Text) :
    assignment? (s ++ '\n' :: t) = some (name, rest ++ '\n' :: t) := by
  unfold assignment? at h
  dsimp only at h
  split at h
  · cases h
  · rename_i hname
    split at h
    · cases h
    · rename_i harrow
      obtain ⟨after, hafter, heq⟩ := Option.map_eq_some_iff.mp h
      obtain ⟨rfl, rfl⟩ := Prod.mk.inj heq
      have harrow' := eat_feed_of_none (by decide) (Option.not_isSome_iff_eq_none.mp harrow) t
      simp only [assignment?, takeWhile_stopped (c := '\n') (p := isWordChar) rfl,
        dropWhile_stopped (c := '\n') (p := isWordChar) rfl, skipInline_feed, harrow',
        eat_append hafter,
        if_neg hname, Option.isSome_none, Bool.false_eq_true, if_false, Option.map_some]

/-- Nor do they make an assignment of what is none. -/
theorem assignment?_feed_of_none {s : Text} (h : assignment? s = none) (t : Text) :
    assignment? (s ++ '\n' :: t) = none := by
  unfold assignment? at h
  dsimp only at h
  split at h
  · rename_i hname
    simp only [assignment?, takeWhile_stopped (c := '\n') (p := isWordChar) rfl, if_pos hname]
  · rename_i hname
    simp only [assignment?, takeWhile_stopped (c := '\n') (p := isWordChar) rfl,
        dropWhile_stopped (c := '\n') (p := isWordChar) rfl, skipInline_feed, if_neg hname]
    split at h
    · rename_i harrow
      obtain ⟨after, hafter⟩ := Option.isSome_iff_exists.mp harrow
      rw [eat_append hafter]
      rfl
    · rw [Option.map_eq_none_iff] at h
      split
      · rfl
      · rw [eat_feed_of_none (by decide) h]
        rfl

/-! ## The readers of tasks and namespaces -/

/-- A list of arguments ends with its own mark. -/
theorem arguments_feed {s rest : Text} {names : List String}
    (h : arguments s = .ok (names, rest)) (t : Text) :
    arguments (s ++ '\n' :: t) = .ok (names, rest ++ '\n' :: t) := by
  unfold arguments at h
  split at h
  · rename_i hstart
    obtain ⟨rfl, rfl⟩ := Prod.mk.inj (Except.ok.inj h)
    rw [arguments, eat_feed_of_none (by decide) hstart]
  · rename_i hstart
    split at h
    · cases h
    · rename_i hthrough
      obtain ⟨rfl, rfl⟩ := Prod.mk.inj (Except.ok.inj h)
      rw [arguments, eat_append hstart]
      simp only [upThrough_append (by decide) hthrough, skipInline_feed]

/-- Dependencies end with their line at the latest. -/
theorem dependencies_feed (s t : Text) :
    dependencies (s ++ '\n' :: t) = ((dependencies s).1, (dependencies s).2 ++ '\n' :: t) := by
  unfold dependencies
  cases hstart : eat ['=', '>'] s with
  | none => rw [eat_feed_of_none (by decide) hstart]
  | some rest =>
      rw [eat_append hstart]
      simp only [takeWhile_stopped (c := '\n') (p := fun c => c != '{' && c != '\n') rfl,
        dropWhile_stopped (c := '\n') (p := fun c => c != '{' && c != '\n') rfl]

/-- A task without a body has none in front of a line feed either, unless an opening brace comes
next: that brace would open it. -/
theorem body_feed {s rest : Text} {commands : List Command} (h : body s = .ok (commands, rest))
    {t : Text} (ht : (skipSpacing t).head? ≠ some '{') :
    body (s ++ '\n' :: t) = .ok (commands, rest ++ '\n' :: t) := by
  unfold body at h
  split at h
  · rename_i hbrace
    obtain ⟨rfl, rfl⟩ := Prod.mk.inj (Except.ok.inj h)
    have hnone : eat ['{'] (skipSpacing (s ++ '\n' :: t)) = none := by
      by_cases hs : skipSpacing s = []
      · rw [skipSpacing_append_of_blank hs]
        change eat ['{'] (skipSpacing t) = none
        cases heq : skipSpacing t with
        | nil => rfl
        | cons c rest =>
            rw [heq] at ht
            rw [eat, if_neg (fun hc => ht (by rw [hc]; rfl))]
      · rw [skipSpacing_append hs]
        exact eat_feed_of_none (by decide) hbrace t
    rw [body, hnone]
  · rename_i inside hbrace
    have hs : skipSpacing s ≠ [] := by
      intro hs
      rw [hs] at hbrace
      cases hbrace
    split at h
    · rename_i block after hblock
      obtain ⟨rfl, rfl⟩ := Prod.mk.inj (Except.ok.inj h)
      obtain ⟨-, behind, rfl⟩ := append_of_scanBlock hblock
      rw [body, skipSpacing_append hs, eat_append hbrace]
      simp only [balanced_append hblock]
      rfl
    · cases h
    · cases h

/-- A task stays as it is, unless the next lines begin with the brace of a body that it does not
have. -/
theorem taskDeclaration_feed {description : Option String} {s rest : Text} {task : Task}
    (h : taskDeclaration description s = .ok (task, rest)) {t : Text}
    (ht : (skipSpacing t).head? ≠ some '{') :
    taskDeclaration description (s ++ '\n' :: t) = .ok (task, rest ++ '\n' :: t) := by
  unfold taskDeclaration at h
  dsimp only at h
  split at h
  · cases h
  · rename_i hname
    split at h
    · cases h
    · rename_i names afterArguments hargs
      split at h
      · cases h
      · rename_i hbody
        obtain ⟨rfl, rfl⟩ := Prod.mk.inj (Except.ok.inj h)
        simp only [taskDeclaration, skipInline_feed,
          takeWhile_stopped (c := '\n') (p := isTaskNameChar) rfl,
          dropWhile_stopped (c := '\n') (p := isTaskNameChar) rfl, if_neg hname, arguments_feed hargs,
          dependencies_feed, body_feed hbody ht]

/-- An item with more text behind it, on the places that it keeps. -/
def followedBy (t : Text) : Item → Item
  | .opening name start brace => .opening name (start ++ t) (brace ++ t)
  | .closing place => .closing (place ++ t)
  | .fileNamespace name start after => .fileNamespace name (start ++ t) (after ++ t)
  | item => item

/-- A namespace keeps the place where it stands, and all that is behind it becomes longer. -/
theorem namespaceDeclaration_feed {start s rest : Text} {item : Item}
    (h : namespaceDeclaration start s = .ok (item, rest)) (t : Text) :
    namespaceDeclaration (start ++ '\n' :: t) (s ++ '\n' :: t)
      = .ok (item.followedBy ('\n' :: t), rest ++ '\n' :: t) := by
  unfold namespaceDeclaration at h
  dsimp only at h
  split at h
  · cases h
  · rename_i hname
    simp only [namespaceDeclaration, skipInline_feed,
      takeWhile_stopped (c := '\n') (p := isWordChar) rfl,
      dropWhile_stopped (c := '\n') (p := isWordChar) rfl, if_neg hname]
    split at h
    · rename_i hbrace
      obtain ⟨rfl, rfl⟩ := Prod.mk.inj (Except.ok.inj h)
      rw [eat_append hbrace]
      rfl
    · rename_i hbrace
      obtain ⟨rfl, rfl⟩ := Prod.mk.inj (Except.ok.inj h)
      rw [eat_feed_of_none (by decide) hbrace]
      rfl

/-! ## Items -/

/-- **A declaration reads the same in front of a line feed**, whatever the lines below say, unless
the next thing there is an opening brace. -/
theorem declaration_feed {doc : List Text} {s rest : Text} {item : Item}
    (h : declaration doc s = .ok (item, rest)) {t : Text}
    (ht : (skipSpacing t).head? ≠ some '{') :
    declaration doc (s ++ '\n' :: t) = .ok (item.followedBy ('\n' :: t), rest ++ '\n' :: t) := by
  unfold declaration at h
  split at h
  · rename_i hbrace
    obtain ⟨rfl, rfl⟩ := Prod.mk.inj (Except.ok.inj h)
    rw [declaration, eat_append hbrace]
    rfl
  · rename_i hbrace
    rw [declaration, eat_feed_of_none (by decide) hbrace]
    split at h
    · rename_i hassign
      rw [assignment?_feed hassign]
      split at h
      · rename_i hvalue
        obtain ⟨rfl, rfl⟩ := Prod.mk.inj (Except.ok.inj h)
        simp only [value_feed hvalue]
        rfl
      · cases h
    · rename_i hassign
      rw [assignment?_feed_of_none hassign]
      split at h
      · rename_i hkeyword
        rw [eatKeyword_feed hkeyword]
        split at h
        · rename_i htask
          obtain ⟨rfl, rfl⟩ := Prod.mk.inj (Except.ok.inj h)
          simp only [taskDeclaration_feed htask ht]
          rfl
        · cases h
      · rename_i hkeyword
        rw [eatKeyword_feed_of_none (by decide) hkeyword]
        split at h
        · rename_i hnamespace
          rw [eatKeyword_feed hnamespace]
          exact namespaceDeclaration_feed h t
        · cases h

/-- A comment ends with its line. -/
theorem skipComment_feed (s t : Text) :
    skipComment (s ++ '\n' :: t) = skipComment s ++ '\n' :: t := by
  simp only [skipComment, skipInline_feed, head?_feed (c := '#') (by decide), splitLine_feed]
  split <;> rfl

/-- An item that ends, ends in front of a line feed as well. The end of the text is an end of an
item, and with a line feed there the item ends behind it. -/
theorem endOfItem_feed {s rest : Text} (h : endOfItem s = .ok rest) (t : Text) :
    endOfItem (s ++ '\n' :: t) = .ok (rest ++ '\n' :: t)
      ∨ rest = [] ∧ endOfItem (s ++ '\n' :: t) = .ok t := by
  rw [endOfItem, skipComment_feed]
  unfold endOfItem at h
  cases hend : skipComment s with
  | nil =>
      rw [hend] at h
      cases h
      exact .inr ⟨rfl, rfl⟩
  | cons c after =>
      rw [hend] at h
      refine .inl ?_
      rw [List.cons_append]
      by_cases hfeed : c = '\n'
      · rw [eatLineEnd, if_pos hfeed] at h ⊢
        cases h
        rfl
      · by_cases hreturn : c = '\r'
        · rw [eatLineEnd, if_neg hfeed, if_pos hreturn] at h ⊢
          cases heat : eat ['\n'] after with
          | some behind =>
              rw [heat] at h
              cases h
              rw [eat_append heat]
          | none =>
              rw [heat, hreturn] at h
              cases h
        · rw [eatLineEnd, if_neg hfeed, if_neg hreturn] at h ⊢
          simp only [List.head?_cons, Option.some.injEq] at h ⊢
          by_cases hbrace : c = '}'
          · rw [if_pos hbrace] at h ⊢
            cases h
            rfl
          · rw [if_neg hbrace] at h
            cases h

end Item

end TaskRunner
