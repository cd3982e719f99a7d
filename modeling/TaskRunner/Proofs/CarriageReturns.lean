import TaskRunner.Proofs.BodyComments
import TaskRunner.Proofs.WellFormedFiles

/-! # Texts with carriage returns

    A text may have a carriage return in front of each line feed (`withReturns`).  To a
    scanner a carriage return is one of four things.  It is a blank like the line feed
    behind it, and then the scanner goes over both (`dropWhile_withReturns`).  It is part of
    the line end (`splitLine_withReturns`, `eatLineEnd_withReturns`).  It is an ordinary
    character of what stands between two marks, and stays in there
    (`upThrough_withReturns`).  Or it ends up as a blank at the end of a line, where it is
    trimmed away (`parseBody_withReturns`).

    A text without carriage returns of its own, and without a backslash in front of a line
    feed, has **plain line feeds**: a backslash would take the carriage return, in place of
    the line feed, for the character that it escapes.  Such a text is scanned as before, and
    what is found in it is found with carriage returns: in an expression
    (`Expression.read_withReturns`), and in a block (`balanced_withReturns`), where a
    carriage return **leaves things as they stand**. -/

namespace TaskRunner

namespace Text

/-! ## Texts with carriage returns -/

/-- A character, with a carriage return in front if it is a line feed. -/
def withReturn (c : Char) : Text := if c = '\n' then ['\r', '\n'] else [c]

/-- A text with a carriage return in front of each line feed. -/
def withReturns (s : Text) : Text := s.flatMap withReturn

/-- The line feeds of a text have no carriage return in front of them, nor a backslash. -/
structure PlainFeeds (s : Text) : Prop where
  returnless : '\r' ∉ s
  unescaped : ¬ ['\\', '\n'] <:+: s

/-- A part of a text with plain line feeds has plain line feeds, since both conditions are about
infixes. -/
theorem PlainFeeds.mono {s t : Text} (h : PlainFeeds t) (hpart : s <:+: t) : PlainFeeds s where
  returnless hmem := h.returnless (hpart.subset hmem)
  unescaped hpair := h.unescaped (hpair.trans hpart)

/-- A scanner goes on to the next character, and the line feeds stay plain. -/
theorem PlainFeeds.tail {c : Char} {s : Text} (h : PlainFeeds (c :: s)) : PlainFeeds s :=
  h.mono (List.suffix_cons c s).isInfix

/-- Behind a backslash there is no line feed. -/
theorem PlainFeeds.head_ne {s : Text} (h : PlainFeeds ('\\' :: s)) : s.head? ≠ some '\n' := by
  intro hfeed
  obtain ⟨rest, rfl⟩ := List.head?_eq_some_iff.mp hfeed
  exact h.unescaped (List.prefix_append ['\\', '\n'] rest).isInfix

/-- Each line feed gets its own carriage return, wherever a text is cut. -/
theorem withReturns_append (s t : Text) :
    withReturns (s ++ t) = withReturns s ++ withReturns t :=
  List.flatMap_append

@[simp]
theorem withReturns_nil : withReturns [] = [] := rfl

/-- The carriage return stands in front of the line feed. -/
theorem withReturns_feed (s : Text) : withReturns ('\n' :: s) = '\r' :: '\n' :: withReturns s :=
  rfl

/-- Any other character stays alone. -/
theorem withReturns_cons {c : Char} (hc : c ≠ '\n') (s : Text) :
    withReturns (c :: s) = c :: withReturns s := by
  rw [withReturns, List.flatMap_cons, withReturn, if_neg hc]
  rfl

/-- A text on one line stays as it is. -/
theorem withReturns_line {s : Text} (h : '\n' ∉ s) : withReturns s = s := by
  induction s with
  | nil => rfl
  | cons c s ih =>
      rw [List.mem_cons, not_or] at h
      rw [withReturns_cons (Ne.symm h.1), ih h.2]

/-- A text begins with the same character, if that is no part of a line end. -/
theorem head?_withReturns {c : Char} (hreturn : c ≠ '\r') (hfeed : c ≠ '\n') (s : Text) :
    (withReturns s).head? = some c ↔ s.head? = some c := by
  cases s with
  | nil => exact Iff.rfl
  | cons d s =>
      by_cases hd : d = '\n'
      · subst hd
        simp [withReturns_feed, hreturn.symm, hfeed.symm]
      · rw [withReturns_cons hd]
        rfl

/-- No line feed is in any of the texts. -/
def Unbroken (texts : List String) : Prop := ∀ text ∈ texts, '\n' ∉ text.toList

instance (texts : List String) : Decidable (Unbroken texts) :=
  inferInstanceAs (Decidable (∀ text ∈ texts, '\n' ∉ text.toList))

/-- Read as a text, such a string has no line feed. -/
theorem Unbroken.not_mem {texts : List String} (h : Unbroken texts) {text : Text}
    (hmem : String.ofList text ∈ texts) : '\n' ∉ text := by
  have htext := h _ hmem
  rwa [String.toList_ofList] at htext

/-! ## Carriage returns as blanks -/

/-- Dropping goes through a text piece by piece, where each piece is dropped as a whole or not at
all. -/
theorem dropWhile_flatMap {p : Char → Bool} {f : Char → Text}
    (hf : ∀ c, f c ≠ [] ∧ ∀ d ∈ f c, p d = p c) (s : Text) :
    (s.flatMap f).dropWhile p = (s.dropWhile p).flatMap f := by
  induction s with
  | nil => rfl
  | cons c s ih =>
      obtain ⟨hne, hsame⟩ := hf c
      cases hc : p c with
      | true =>
          rw [List.flatMap_cons, List.dropWhile_append_of_pos fun d hd => (hsame d hd).trans hc,
            ih, List.dropWhile_cons_of_pos hc]
      | false =>
          obtain ⟨d, more, hd⟩ := List.exists_cons_of_ne_nil hne
          have hp : p d = false := (hsame d (hd ▸ List.mem_cons_self)).trans hc
          rw [List.dropWhile_cons_of_neg (by simp [hc]), List.flatMap_cons, hd, List.cons_append,
            List.dropWhile_cons_of_neg (by simp [hp])]

variable {p : Char → Bool}

/-- No character is lost. -/
theorem withReturn_ne_nil (c : Char) : withReturn c ≠ [] := by
  rw [withReturn]
  split <;> exact List.cons_ne_nil _ _

/-- A property that carriage returns share with line feeds holds of all that a character becomes. -/
theorem of_mem_withReturn (hp : p '\r' = p '\n') {c d : Char} (hd : d ∈ withReturn c) :
    p d = p c := by
  rw [withReturn] at hd
  split at hd
  · rename_i hc
    subst hc
    rcases List.mem_pair.mp hd with rfl | rfl
    · exact hp
    · rfl
  · rw [List.mem_singleton.mp hd]

/-- **BLANKS ARE PASSED OVER** with their carriage returns, if these are blanks just as the line
feeds are. -/
theorem dropWhile_withReturns (hp : p '\r' = p '\n') (s : Text) :
    (withReturns s).dropWhile p = withReturns (s.dropWhile p) :=
  dropWhile_flatMap (fun c => ⟨withReturn_ne_nil c, fun _ => of_mem_withReturn hp⟩) s

/-- And what is taken before is taken with them. -/
theorem takeWhile_withReturns (hp : p '\r' = p '\n') (s : Text) :
    (withReturns s).takeWhile p = withReturns (s.takeWhile p) := by
  have hall := List.takeWhile_append_dropWhile (p := p) (l := withReturns s)
  have hparts := withReturns_append (s.takeWhile p) (s.dropWhile p)
  rw [List.takeWhile_append_dropWhile] at hparts
  rw [dropWhile_withReturns hp] at hall
  exact List.append_cancel_right (hall.trans hparts)

/-- A character that stops the taking is not taken. -/
theorem not_mem_takeWhile {c : Char} (hc : p c = false) (s : Text) : c ∉ s.takeWhile p := by
  intro hmem
  rw [List.mem_takeWhile_imp hmem] at hc
  cases hc

/-- A run of characters that are on one line is the same. -/
theorem takeWhile_withReturns_line (hreturn : p '\r' = false) (hfeed : p '\n' = false) (s : Text) :
    (withReturns s).takeWhile p = s.takeWhile p := by
  rw [takeWhile_withReturns (hreturn.trans hfeed.symm),
    withReturns_line (not_mem_takeWhile hfeed s)]

/-- Neither a carriage return nor a line feed is a blank within a line. -/
theorem skipInline_withReturns (s : Text) :
    skipInline (withReturns s) = withReturns (skipInline s) :=
  dropWhile_withReturns rfl s

/-- Both are blanks between items. -/
theorem skipSpacing_withReturns (s : Text) :
    skipSpacing (withReturns s) = withReturns (skipSpacing s) :=
  dropWhile_withReturns rfl s

/-- Carriage returns add no lines. -/
theorem count_withReturns (s : Text) : (withReturns s).count '\n' = s.count '\n' := by
  induction s with
  | nil => rfl
  | cons c s ih =>
      by_cases hc : c = '\n'
      · subst hc
        rw [withReturns_feed, List.count_cons_of_ne (by decide), List.count_cons_self,
          List.count_cons_self, ih]
      · rw [withReturns_cons hc, List.count_cons_of_ne hc, List.count_cons_of_ne hc, ih]

/-- So an item stands behind the same number of empty lines. -/
theorem leadingLineFeeds_withReturns (s : Text) :
    leadingLineFeeds (withReturns s) = leadingLineFeeds s := by
  rw [leadingLineFeeds, takeWhile_withReturns rfl, count_withReturns, leadingLineFeeds]

/-- Both are blanks at the end of a text. -/
theorem trimEnd_withReturns (s : Text) : trimEnd (withReturns s) = withReturns (trimEnd s) := by
  have hdrop : (s.reverse.flatMap (List.reverse ∘ withReturn)).dropWhile isBlank
      = (s.reverse.dropWhile isBlank).flatMap (List.reverse ∘ withReturn) := by
    refine dropWhile_flatMap (fun c => ⟨?_, fun d hd => ?_⟩) s.reverse
    · exact List.reverse_eq_nil_iff.not.mpr (withReturn_ne_nil c)
    · exact of_mem_withReturn rfl (List.mem_reverse.mp hd)
  rw [trimEnd, withReturns, List.reverse_flatMap, hdrop, ← List.flatMap_reverse]
  rfl

/-- So a text is trimmed alike at both ends. -/
theorem trim_withReturns (s : Text) : trim (withReturns s) = withReturns (trim s) := by
  rw [trim, trimStart, dropWhile_withReturns rfl, trimEnd_withReturns, trim, trimStart]

/-! ## Carriage returns between marks -/

/-- A word does not begin with a character that it does not have. -/
theorem eat_cons_of_not_mem {word : Text} {c : Char} (hne : word ≠ []) (hc : c ∉ word) (s : Text) :
    eat word (c :: s) = none := by
  obtain ⟨w, word, rfl⟩ := List.exists_cons_of_ne_nil hne
  rw [eat, if_neg]
  rintro rfl
  exact hc List.mem_cons_self

/-- Neither a carriage return nor a line feed is in a word. -/
def OneLine (word : Text) : Prop := '\r' ∉ word ∧ '\n' ∉ word

instance (word : Text) : Decidable (OneLine word) := inferInstanceAs (Decidable (_ ∧ _))

/-- A word of one line stands at the start of both texts or of none. -/
theorem eat_withReturns {word : Text} (hword : OneLine word) (s : Text) :
    eat word (withReturns s) = (eat word s).map withReturns := by
  fun_induction eat word s with
  | case1 => rw [eat]; rfl
  | case2 => rfl
  | case3 word c rest ih =>
      have hc : c ≠ '\n' := fun heq => hword.2 (heq ▸ List.mem_cons_self)
      rw [withReturns_cons hc, eat, if_pos rfl]
      exact ih ⟨fun h => hword.1 (List.mem_cons_of_mem _ h),
        fun h => hword.2 (List.mem_cons_of_mem _ h)⟩
  | case4 w word c rest hne =>
      by_cases hc : c = '\n'
      · subst hc
        exact eat_cons_of_not_mem (List.cons_ne_nil _ _) hword.1 _
      · rw [withReturns_cons hc, eat, if_neg hne]
        rfl

/-- The form in which the readers use it, where the word was found. -/
theorem eat_withReturns_some {word s rest : Text} (hword : OneLine word)
    (h : eat word s = some rest) : eat word (withReturns s) = some (withReturns rest) := by
  rw [eat_withReturns hword, h]
  rfl

/-- A carriage return runs on into no name, just as a line feed does not. -/
theorem eatKeyword_withReturns {word : Text} (hword : OneLine word) (s : Text) :
    eatKeyword word (withReturns s) = (eatKeyword word s).map withReturns := by
  rw [eatKeyword, eat_withReturns hword, eatKeyword]
  cases eat word s with
  | none => rfl
  | some rest =>
      cases rest with
      | nil => rfl
      | cons c rest =>
          by_cases hc : c = '\n'
          · subst hc
            rfl
          · rw [Option.map_some, withReturns_cons hc]
            dsimp only
            split
            · rfl
            · rw [Option.map_some, withReturns_cons hc]

/-- The same where the keyword was found. -/
theorem eatKeyword_withReturns_some {word s rest : Text} (hword : OneLine word)
    (h : eatKeyword word s = some rest) :
    eatKeyword word (withReturns s) = some (withReturns rest) := by
  rw [eatKeyword_withReturns hword, h]
  rfl

/-- A mark of one line is not found any earlier or later, and has the same lines before it. -/
theorem upTo_withReturns {mark : Text} (hne : mark ≠ []) (hmark : OneLine mark) (s : Text) :
    upTo mark (withReturns s)
      = (upTo mark s).map fun found => (withReturns found.1, withReturns found.2) := by
  have hempty : mark.isEmpty = false := by simpa using hne
  induction s with
  | nil =>
      show upTo mark [] = _
      rw [upTo, hempty]
      rfl
  | cons c s ih =>
      have heat := eat_withReturns hmark (c :: s)
      by_cases hc : c = '\n'
      · subst hc
        have hreturn := eat_cons_of_not_mem hne hmark.1 ('\n' :: withReturns s)
        have hfeed : ∀ t, eat mark ('\n' :: t) = none := eat_cons_of_not_mem hne hmark.2
        rw [withReturns_feed, upTo, hreturn, upTo, hfeed, ih, upTo, hfeed]
        simp only [Option.isSome_none, Bool.false_eq_true, if_false, Option.map_map]
        rfl
      · rw [withReturns_cons hc] at heat ⊢
        rw [upTo, heat, Option.isSome_map, upTo]
        split
        · rw [Option.map_some, withReturns_cons hc]
          rfl
        · rw [ih, Option.map_map, Option.map_map]
          congr 1
          funext found
          simp [withReturns_cons hc]

/-- So what stands between two marks keeps its lines, with a carriage return at the end of each. -/
theorem upThrough_withReturns {mark s before rest : Text} (hne : mark ≠ []) (hmark : OneLine mark)
    (h : upThrough mark s = some (before, rest)) :
    upThrough mark (withReturns s) = some (withReturns before, withReturns rest) := by
  obtain ⟨found, hfound, heq⟩ := Option.map_eq_some_iff.mp h
  obtain ⟨rfl, rfl⟩ := Prod.mk.inj heq
  have hstart := congrArg withReturns (eat_of_upTo hfound)
  rw [withReturns_append, withReturns_line hmark.2] at hstart
  rw [upThrough, upTo_withReturns hne hmark, hfound]
  simp only [Option.map_some]
  rw [hstart, List.drop_left]

/-- A quoted string on one line stays as it is. -/
theorem quotedSpan_withReturns {mark : Char} {s inside rest : Text} (hmark : mark ≠ '\n')
    (hinside : '\n' ∉ inside) (h : quotedSpan mark s = some (inside, rest)) :
    quotedSpan mark (withReturns s) = some (inside, withReturns rest) := by
  rw [append_of_quotedSpan h, withReturns_append, withReturns_line hinside, withReturns_cons hmark]
  exact quotedSpan_behind h _

/-- Cutting at a character of a line cuts both texts at the same places. -/
theorem splitOn_withReturns {c : Char} (hreturn : c ≠ '\r') (hfeed : c ≠ '\n') (s : Text) :
    (withReturns s).splitOn c = (s.splitOn c).map withReturns := by
  have hother : ∀ d ≠ c, ∀ t : Text, (d :: t).splitOn c = (t.splitOn c).modifyHead (d :: ·) := by
    intro d hd t
    rw [List.splitOn_cons_eq_if_modifyHead, if_neg (by simpa using hd)]
  induction s with
  | nil => rfl
  | cons d s ih =>
      obtain ⟨piece, pieces, hpieces⟩ := List.exists_cons_of_ne_nil (List.splitOn_ne_nil c s)
      rw [hpieces] at ih
      by_cases hc : d = c
      · subst hc
        have hself : ∀ t : Text, (d :: t).splitOn d = [] :: t.splitOn d := fun t =>
          List.splitOn_append_cons_self [] t
        rw [withReturns_cons hfeed, hself, hself, ih, hpieces]
        rfl
      · rw [hother d hc, hpieces]
        by_cases hd : d = '\n'
        · subst hd
          rw [withReturns_feed, hother _ hreturn.symm, hother _ hc, ih]
          rfl
        · rw [withReturns_cons hd, hother _ hc, ih, List.modifyHead_cons, List.map_cons,
            List.map_cons, withReturns_cons hd, List.modifyHead_cons]

/-! ## Carriage returns at the ends of lines -/

/-- A run on one line is the same up to where it stops. -/
theorem span_withReturns (hfeed : p '\n' = false) (s : Text) :
    (withReturns s).takeWhile p = s.takeWhile p ++ (withReturns (s.dropWhile p)).takeWhile p ∧
      (withReturns s).dropWhile p = (withReturns (s.dropWhile p)).dropWhile p := by
  have hall : ∀ c ∈ s.takeWhile p, p c = true := fun _ hc => List.mem_takeWhile_imp hc
  have hparts := withReturns_append (s.takeWhile p) (s.dropWhile p)
  rw [List.takeWhile_append_dropWhile, withReturns_line (not_mem_takeWhile hfeed s)] at hparts
  rw [hparts, List.takeWhile_append_of_pos hall, List.dropWhile_append_of_pos hall]
  exact ⟨rfl, rfl⟩

/-- A run that goes on to the end of its line takes the carriage return. -/
theorem span_withReturns_feed (hreturn : p '\r' = true) (hfeed : p '\n' = false) {s rest : Text}
    (h : s.dropWhile p = '\n' :: rest) :
    (withReturns s).takeWhile p = s.takeWhile p ++ ['\r'] ∧
      (withReturns s).dropWhile p = '\n' :: withReturns rest := by
  obtain ⟨htake, hdrop⟩ := span_withReturns hfeed s
  rw [htake, hdrop, h, withReturns_feed, List.takeWhile_cons_of_pos hreturn,
    List.takeWhile_cons_of_neg (by simp [hfeed]), List.dropWhile_cons_of_pos hreturn,
    List.dropWhile_cons_of_neg (by simp [hfeed])]
  exact ⟨rfl, rfl⟩

/-- A run that stops in front of another character, or at the end of the text, is the same. -/
theorem span_withReturns_of_head (hfeed : p '\n' = false) {s : Text}
    (h : (s.dropWhile p).head? ≠ some '\n') :
    (withReturns s).takeWhile p = s.takeWhile p ∧
      (withReturns s).dropWhile p = withReturns (s.dropWhile p) := by
  obtain ⟨htake, hdrop⟩ := span_withReturns hfeed s
  rw [htake, hdrop]
  cases hrest : s.dropWhile p with
  | nil => exact ⟨List.append_nil _, rfl⟩
  | cons c rest =>
      have hstop : ¬ p c = true := by
        have hhead := List.head?_dropWhile_not p s
        rw [hrest] at hhead
        simpa using hhead
      have hc : c ≠ '\n' := by
        rintro rfl
        exact h (congrArg List.head? hrest)
      rw [withReturns_cons hc, List.takeWhile_cons_of_neg hstop, List.dropWhile_cons_of_neg hstop]
      exact ⟨List.append_nil _, rfl⟩

/-- A line ends in front of its carriage return, so it is the same line. -/
theorem splitLine_withReturns {s : Text} (hs : '\r' ∉ s) :
    splitLine (withReturns s) = ((splitLine s).1, withReturns (splitLine s).2) := by
  have hlast : (s.takeWhile (· != '\n')).getLast? ≠ some '\r' := fun hlast =>
    hs ((List.takeWhile_prefix _).subset (List.mem_of_getLast? hlast))
  cases hrest : s.dropWhile (· != '\n') with
  | nil =>
      have hhead : (s.dropWhile (· != '\n')).head? ≠ some '\n' := by simp [hrest]
      obtain ⟨htake, hdrop⟩ := span_withReturns_of_head rfl hhead
      rw [splitLine, htake, hdrop, splitLine, if_neg hlast, if_neg hlast]
  | cons c rest =>
      obtain rfl : c = '\n' := by
        have hhead := List.head?_dropWhile_not (· != '\n') s
        rw [hrest] at hhead
        simpa using hhead
      obtain ⟨htake, hdrop⟩ := span_withReturns_feed rfl rfl hrest
      rw [splitLine, htake, hdrop, splitLine, hrest, List.getLast?_concat, List.dropLast_concat,
        if_pos rfl, if_neg hlast]
      rfl

/-- A line end is one with or without a carriage return. -/
theorem eatLineEnd_withReturns {s : Text} (hs : '\r' ∉ s) :
    eatLineEnd (withReturns s) = (eatLineEnd s).map withReturns := by
  cases s with
  | nil => rfl
  | cons c s =>
      rw [List.mem_cons, not_or] at hs
      by_cases hc : c = '\n'
      · subst hc
        rfl
      · have hnone : ∀ t, eatLineEnd (c :: t) = none := fun t => by
          rw [eatLineEnd, if_neg hc, if_neg (Ne.symm hs.1)]
        rw [withReturns_cons hc, hnone, hnone]
        rfl

/-! ## Carriage returns in blocks -/

namespace Standing

/-- A backslash stands directly in front. -/
def isEscaped : Standing → Bool
  | escaped | escapedIn _ => true
  | _ => false

/-- The mark of a quoted span that is open. -/
def mark? : Standing → Option Char
  | quotes mark | escapedIn mark => some mark
  | _ => none

/-- Only a backslash escapes the character behind it. -/
theorem eq_backslash_of_isEscaped {c : Char} {st : Standing}
    (h : (st.behind c).isEscaped = true) : c = '\\' := by
  by_contra hc
  cases st with
  | code here =>
      simp only [behind, if_neg hc] at h
      split_ifs at h <;> cases h
  | comment =>
      rw [behind] at h
      split_ifs at h <;> cases h
  | quotes mark =>
      rw [behind, if_neg hc] at h
      split_ifs at h <;> cases h
  | escaped => cases h
  | escapedIn mark => cases h

/-- No quote that a carriage return closes is ever opened. -/
theorem mark?_behind {c : Char} (hc : c ≠ '\r') {st : Standing} (h : st.mark? ≠ some '\r') :
    (st.behind c).mark? ≠ some '\r' := by
  cases st with
  | code here =>
      rw [behind]
      split_ifs <;> simp [mark?, hc]
  | comment =>
      rw [behind]
      split_ifs <;> simp [mark?]
  | quotes mark =>
      rw [behind]
      split_ifs
      · exact h
      · simp [mark?]
      · exact h
  | escaped => simp [behind, mark?]
  | escapedIn mark => exact h

/-- **A CARRIAGE RETURN LEAVES THINGS AS THEY STAND**, where it is not escaped. -/
theorem behind_return {st : Standing} (hescaped : st.isEscaped = false)
    (hmark : st.mark? ≠ some '\r') : st.behind '\r' = st := by
  cases st with
  | code here => rfl
  | comment => rfl
  | quotes mark =>
      have hne : '\r' ≠ mark := fun heq => hmark (congrArg some heq.symm)
      simp [behind, hne]
  | escaped => cases hescaped
  | escapedIn mark => cases hescaped

/-- Line ends open and close no braces. -/
theorem opensBehind_lineEnd {c : Char} (hc : c = '\r' ∨ c = '\n') (opens : Nat) (st : Standing) :
    st.opensBehind c opens = some opens := by
  rcases hc with rfl | rfl <;> cases st <;> rfl

end Standing

open Standing

/-- **A BLOCK IS SCANNED ALIKE**: a carriage return in front of a line feed leaves things as they
stand, so the line feed is met as before. -/
theorem scan_withReturns {s : Text} (hs : PlainFeeds s) {st : Standing} (opens : Nat)
    (hmark : st.mark? ≠ some '\r') (hescaped : st.isEscaped = true → s.head? ≠ some '\n') :
    scan opens st (withReturns s)
      = (scan opens st s).map fun found => (withReturns found.1, withReturns found.2) := by
  induction s generalizing opens st with
  | nil => rfl
  | cons c s ih =>
      have hreturn : c ≠ '\r' := fun heq => hs.returnless (heq ▸ List.mem_cons_self)
      have hnext : (st.behind c).isEscaped = true → s.head? ≠ some '\n' := by
        intro hback
        obtain rfl := eq_backslash_of_isEscaped hback
        exact hs.head_ne
      have ih' := fun opens => ih hs.tail opens (mark?_behind hreturn hmark) hnext
      by_cases hc : c = '\n'
      · subst hc
        have hplain : st.isEscaped = false := by
          by_contra h
          exact hescaped (by simpa using h) rfl
        have hfeed : ∀ t, scan opens st ('\n' :: t)
            = (scan opens (st.behind '\n') t).map fun found => ('\n' :: found.1, found.2) := by
          intro t
          rw [scan, opensBehind_lineEnd (.inr rfl)]
        -- behind the carriage return things stand as they do in front of it
        rw [withReturns_feed, scan, opensBehind_lineEnd (.inl rfl), behind_return hplain hmark]
        dsimp only
        rw [hfeed, ih', hfeed, Option.map_map, Option.map_map, Option.map_map]
        rfl
      · rw [withReturns_cons hc, scan, scan]
        cases st.opensBehind c opens with
        | none =>
            rw [Option.map_some, withReturns_cons hc]
            rfl
        | some more =>
            dsimp only
            rw [ih', Option.map_map, Option.map_map]
            congr 1
            funext found
            simp [withReturns_cons hc]

/-- A block stays the same block, with carriage returns in it. -/
theorem balanced_withReturns {s block rest : Text} (hs : PlainFeeds s)
    (h : balanced s = .ok (block, rest)) :
    balanced (withReturns s) = .ok (withReturns block, withReturns rest) := by
  have hmark : (code false).mark? ≠ some '\r' := (Option.some_ne_none _).symm
  rw [balanced_eq_ok_iff_scan] at h ⊢
  rw [scan_withReturns hs 0 hmark fun hback => absurd hback Bool.false_ne_true, h]
  rfl

end Text

open Text

/-! ## Carriage returns that are trimmed away -/

namespace Command

/-- A command is read from its line without the blanks at both ends. -/
theorem ofLine?_congr {line line' : Text} (h : trim line = trim line') :
    ofLine? line = ofLine? line' := by
  rw [ofLine?, h, ofLine?]

/-- The commands of a body are those of its first line and then of the others. -/
theorem parseBody_feed {line : Text} (h : '\n' ∉ line) (body : Text) :
    parseBody (line ++ '\n' :: body) = (ofLine? line).toList ++ parseBody body := by
  rw [parseBody, lines, List.splitOn_append_cons_self_of_not_mem h]
  cases hline : ofLine? line <;> simp [hline, parseBody, lines]

/-- The commands of a body are the same with carriage returns. -/
theorem parseBody_withReturns (body : Text) : parseBody (withReturns body) = parseBody body := by
  -- line by line, from the first one on
  induction hlength : body.length using Nat.strongRecOn generalizing body with
  | _ n ih =>
      by_cases hfeed : '\n' ∈ body
      · obtain ⟨line, rest, rfl, hline⟩ := List.eq_append_cons_of_mem hfeed
        have hreturned : '\n' ∉ line ++ ['\r'] := by
          simpa using hline
        have hrest : rest.length < n := by
          rw [← hlength, List.length_append, List.length_cons]
          omega
        rw [withReturns_append, withReturns_feed, withReturns_line hline,
          ← List.singleton_append, ← List.append_assoc, parseBody_feed hreturned,
          parseBody_feed hline, ofLine?_congr (trim_concat rfl line), ih _ hrest rest rfl]
      · rw [withReturns_line hfeed]

end Command

namespace Item

/-- The names of arguments are the same if no line feed is in one. -/
theorem splitArguments_withReturns {s : Text} (h : Unbroken (splitArguments s)) :
    splitArguments (withReturns s) = splitArguments s := by
  rw [splitArguments, List.filterMap_map] at h
  rw [splitArguments, splitArguments, splitOn_withReturns (by decide) (by decide), List.map_map,
    List.filterMap_map, List.filterMap_map]
  refine List.filterMap_congr fun piece hpiece => ?_
  simp only [Function.comp_apply, trim_withReturns]
  by_cases hempty : trim piece = []
  · rw [hempty]
    rfl
  · have hname : '\n' ∉ trim piece :=
      h.not_mem (List.mem_filterMap.mpr ⟨piece, hpiece, by simp [hempty]⟩)
    rw [withReturns_line hname]

/-- A blank behind the last dependency belongs to no name. -/
theorem splitDependencies_concat {c : Char} (hc : isBlank c = true) (s : Text) :
    splitDependencies (s ++ [c]) = splitDependencies s := by
  rw [splitDependencies, List.splitOnP_append_cons s [] (by simp [hc]), List.filterMap_append,
    splitDependencies]
  simp

end Item

/-! ## Carriage returns in expressions -/

namespace Expression

/-- The strings in quotes that an expression holds. -/
def literals : Expression → List String
  | .identifier _ => []
  | .access object _ => object.literals
  | .literal value => [value]
  | .either left right => left.literals ++ right.literals

/-- Properties of a variable follow without blanks, so no line end is among them. -/
theorem accesses_withReturns {object result : Expression} {s rest : Text}
    (h : accesses object s = .ok (result, rest)) :
    accesses object (withReturns s) = .ok (result, withReturns rest) := by
  fun_induction accesses object s with
  | case1 =>
      obtain ⟨rfl, rfl⟩ := Prod.mk.inj (Except.ok.inj h)
      rw [withReturns_nil, accesses]
  | case2 => cases h
  | case3 object s hname ih =>
      rw [withReturns_cons (by decide), accesses, if_pos rfl, takeWhile_withReturns_line rfl rfl,
        if_neg hname, dropWhile_withReturns rfl, ih h]
  | case4 object c s hpoint =>
      obtain ⟨rfl, rfl⟩ := Prod.mk.inj (Except.ok.inj h)
      by_cases hc : c = '\n'
      · subst hc
        rw [withReturns_feed, accesses, if_neg (by decide)]
      · rw [withReturns_cons hc, accesses, if_neg hpoint]

/-- What is escaped in a text with plain line feeds is no line feed. -/
theorem lineFeed_mem_unescape {s : Text} (hs : PlainFeeds s) (h : '\n' ∈ s) :
    '\n' ∈ unescape s := by
  fun_induction unescape s with
  | case1 => exact h
  | case2 => exact h
  | case3 d rest e he ih =>
      have hd : '\n' ≠ d := fun heq => hs.head_ne (congrArg some heq.symm)
      rw [List.mem_cons, List.mem_cons] at h
      rcases h with h | h | h
      · cases h
      · exact absurd h hd
      · exact List.mem_cons_of_mem _ (ih hs.tail.tail h)
  | case4 d rest he ih =>
      rw [List.mem_cons, List.mem_cons] at h ⊢
      exact h.imp_right (Or.imp_right (ih hs.tail.tail))
  | case5 c rest hc ih =>
      rw [List.mem_cons] at h ⊢
      exact h.imp_right (ih hs.tail)

/-- An operand is read alike, provided its literal is of one line: a carriage return would stay in
it. -/
theorem operand_withReturns {result : Expression} {s rest : Text} (hs : PlainFeeds s)
    (h : operand s = .ok (result, rest)) (hline : Unbroken result.literals) :
    operand (withReturns s) = .ok (result, withReturns rest) := by
  cases s with
  | nil => cases h
  | cons c s =>
      rw [operand] at h
      split at h
      · rename_i hquote
        subst hquote
        split at h
        · rename_i inside after hspan
          obtain ⟨rfl, rfl⟩ := Prod.mk.inj (Except.ok.inj h)
          have hliteral : '\n' ∉ unescape inside := hline.not_mem List.mem_cons_self
          have hinside : PlainFeeds inside := by
            refine hs.tail.mono ?_
            rw [append_of_quotedSpan hspan]
            exact (List.prefix_append _ _).isInfix
          have hfeed : '\n' ∉ inside := fun hmem => hliteral (lineFeed_mem_unescape hinside hmem)
          rw [withReturns_cons (by decide), operand, if_pos rfl,
            quotedSpan_withReturns (by decide) hfeed hspan]
        · cases h
      · rename_i hquote
        split at h
        · cases h
        · rename_i hword
          have hc : c ≠ '\n' := by
            rintro rfl
            exact hword rfl
          rw [withReturns_cons hc, operand, if_neg hquote, ← withReturns_cons hc,
            takeWhile_withReturns_line rfl rfl, if_neg hword, dropWhile_withReturns rfl]
          exact accesses_withReturns h

/-- What is left behind an operand is an end of the text. -/
theorem operand_suffix {result : Expression} {s rest : Text}
    (h : operand s = .ok (result, rest)) : rest <:+ s := by
  obtain ⟨o, -, htext, -⟩ := exists_operand h
  exact ⟨o.text, htext.symm⟩

/-- The strings of an operand are strings of the expression that it begins. -/
theorem literals_subset_of_alternatives {left e : Expression} {s : Text}
    (h : alternatives left s = .ok e) : left.literals ⊆ e.literals := by
  fun_induction alternatives left s with
  | case1 =>
      obtain rfl := Except.ok.inj h
      exact List.Subset.refl _
  | case2 => cases h
  | case3 => cases h
  | case4 left s rest heat right after hright _ ih =>
      exact List.Subset.trans (List.subset_append_left _ _) (ih h)

/-- Operands between bars may stand on lines of their own. -/
theorem alternatives_withReturns {left e : Expression} {s : Text} (hs : PlainFeeds s)
    (h : alternatives left s = .ok e) (hline : Unbroken e.literals) :
    alternatives left (withReturns s) = .ok e := by
  fun_induction alternatives left s with
  | case1 left s heat hend =>
      have hskip : skipSpacing (withReturns s) = [] := by
        rw [skipSpacing_withReturns, List.isEmpty_iff.mp hend, withReturns_nil]
      rw [alternatives.eq_def]
      split
      · rw [hskip]
        exact h
      · rename_i heaten
        rw [hskip] at heaten
        cases heaten
  | case2 => cases h
  | case3 => cases h
  | case4 left s rest heat right after hright _ ih =>
      have hright' : Unbroken right.literals := fun text hmem =>
        hline text (literals_subset_of_alternatives h (List.mem_append_right _ hmem))
      have hrest : rest <:+ s := (suffix_of_eat heat).trans (List.dropWhile_suffix _)
      have hstart : skipSpacing rest <:+ s := (List.dropWhile_suffix _).trans hrest
      have hafter : after <:+ s := (operand_suffix hright).trans hstart
      have heat' : eat ['|', '|'] (skipSpacing (withReturns s)) = some (withReturns rest) := by
        rw [skipSpacing_withReturns]
        exact eat_withReturns_some (by decide) heat
      have hoperand : operand (skipSpacing (withReturns rest))
          = .ok (right, withReturns after) := by
        rw [skipSpacing_withReturns]
        exact operand_withReturns (hs.mono hstart.isInfix) hright hright'
      rw [alternatives.eq_def]
      split
      · rename_i hnone
        cases hnone.symm.trans heat'
      · rename_i heaten
        obtain rfl := Option.some.inj (heaten.symm.trans heat')
        split
        · rename_i hfault
          cases hfault.symm.trans hoperand
        · rename_i hread
          obtain ⟨rfl, rfl⟩ := Prod.mk.inj (Except.ok.inj (hread.symm.trans hoperand))
          exact ih (hs.mono hafter.isInfix) h

/-- **AN EXPRESSION READS THE SAME** with carriage returns, if its strings are on one line each. -/
theorem read_withReturns {e : Expression} {s : Text} (hs : PlainFeeds s) (h : read s = .ok e)
    (hline : Unbroken e.literals) : read (withReturns s) = .ok e := by
  rw [read] at h
  split at h
  · cases h
  · rename_i first rest hfirst
    have hstart : skipSpacing s <:+ s := List.dropWhile_suffix _
    have hfirst' : Unbroken first.literals := fun text hmem =>
      hline text (literals_subset_of_alternatives h hmem)
    rw [read, skipSpacing_withReturns,
      operand_withReturns (hs.mono hstart.isInfix) hfirst hfirst']
    exact alternatives_withReturns (hs.mono ((operand_suffix hfirst).trans hstart).isInfix) h hline

/-- An expression is read alike, where its literals are of one line each. -/
theorem parse_withReturns {e : Expression} {s : Text} (hs : PlainFeeds s) (h : parse s = .ok e)
    (hline : Unbroken e.literals) : parse (withReturns s) = .ok e := by
  rw [parse] at h
  split at h
  · rename_i hread
    obtain rfl := Except.ok.inj h
    rw [parse, read_withReturns hs hread hline]
  · cases h

end Expression

end TaskRunner
