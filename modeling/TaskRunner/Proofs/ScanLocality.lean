import Mathlib.Data.List.TakeWhile
import TaskRunner.Proofs.BlockGrammar

/-! # Scanners do not look ahead

    Whether a scanner takes something, and what it takes, does not change with the text
    that follows.  A scanner that has found the end of what it takes knows nothing of what
    comes behind it, whatever that is (`upThrough_behind`, `quotedSpan_behind`,
    `balanced_append`).  One that takes as much as it can, or that misses a mark at the end
    of the text, would have gone on if the text had; a line feed stops all of these
    (`takeWhile_stopped`, `eat_feed_of_none`, `splitLine_feed`).

    The blanks between items are no such end: two runs of blanks make one
    (`skipSpacing_append_of_blank`).

    A scanner may also stop long before the place where texts differ.  Then the text from
    that place on can be **exchanged** for another one, as long as both are empty or begin
    with a blank (`BlankLed`), so that they neither end a word that was begun nor go on with
    it.  What is left in front of the place has something in it that is no blank (`Solid`),
    and that has stopped the scanner. -/

namespace TaskRunner

namespace Text

/-! ## Scanners that find their end -/

/-- What is eaten is eaten in front of any other text as well. -/
theorem eat_append {word s rest : Text} (h : eat word s = some rest) (t : Text) :
    eat word (s ++ t) = some (rest ++ t) := by
  rw [eat_eq_some_iff] at h ⊢
  rw [h, List.append_assoc]

/-- A word that does not stand at the start of a text as long as it stands there with no more text
behind either. -/
theorem eat_append_of_none {word s : Text} (h : eat word s = none)
    (hlength : word.length ≤ s.length) (t : Text) : eat word (s ++ t) = none := by
  cases hfound : eat word (s ++ t) with
  | none => rfl
  | some rest =>
      have hprefix : word <+: s :=
        List.prefix_of_prefix_length_le ⟨rest, (eat_eq_some_iff.mp hfound).symm⟩
          (List.prefix_append s t) hlength
      obtain ⟨after, hafter⟩ := hprefix
      rw [eat_eq_some_iff.mpr hafter.symm] at h
      cases h

/-- A mark is found by what stands before it; what stands behind it does not matter. -/
theorem upTo_behind {mark before r : Text} (hmark : mark ≠ [])
    (h : upTo mark (before ++ (mark ++ r)) = some (before, mark ++ r)) (v : Text) :
    upTo mark (before ++ (mark ++ v)) = some (before, mark ++ v) := by
  induction before with
  | nil =>
      obtain ⟨c, rest, rfl⟩ := List.exists_cons_of_ne_nil hmark
      rw [List.nil_append, List.cons_append, upTo, ← List.cons_append, eat_eq_some_iff.mpr rfl]
      rfl
  | cons c before ih =>
      rw [List.cons_append, upTo] at h
      split at h
      · cases h
      · rename_i hnone
        obtain ⟨found, hfound, heq⟩ := Option.map_eq_some_iff.mp h
        obtain ⟨hbefore, hrest⟩ := Prod.mk.inj heq
        obtain rfl := (List.cons.inj hbefore).2
        have htail := ih (by rw [hfound, ← hrest])
        -- the mark would have to end before the place where it stands
        have hnone' : eat mark (c :: (found.1 ++ (mark ++ v))) = none := by
          have hcut : eat mark (c :: (found.1 ++ mark)) = none := by
            cases heat : eat mark (c :: (found.1 ++ mark)) with
            | none => rfl
            | some after =>
                have hsome := eat_append heat r
                rw [List.cons_append, List.append_assoc] at hsome
                rw [hsome] at hnone
                exact absurd rfl hnone
          have hlong := eat_append_of_none hcut (by simp; omega) v
          rwa [List.cons_append, List.append_assoc] at hlong
        rw [List.cons_append, upTo, hnone', htail]
        rfl

/-- What is found up to a mark is found there with any text behind the mark. -/
theorem upThrough_behind {mark s before r : Text} (hmark : mark ≠ [])
    (h : upThrough mark s = some (before, r)) (v : Text) :
    upThrough mark (before ++ (mark ++ v)) = some (before, v) := by
  have hs := append_of_upThrough h
  obtain ⟨found, hfound, heq⟩ := Option.map_eq_some_iff.mp h
  obtain ⟨rfl, rfl⟩ := Prod.mk.inj heq
  have hstart := eat_of_upTo hfound
  rw [hs] at hfound
  rw [upThrough, upTo_behind hmark (hfound.trans (by rw [← hstart])) v, Option.map_some,
    List.drop_left]

/-- A quoted span is found with any text behind it. -/
theorem quotedSpan_behind {mark : Char} {s inside r : Text}
    (h : quotedSpan mark s = some (inside, r)) (v : Text) :
    quotedSpan mark (inside ++ mark :: v) = some (inside, v) := by
  fun_induction quotedSpan mark s generalizing inside with
  | case1 => cases h
  | case2 => cases h
  | case3 d s ih =>
      obtain ⟨span, hspan, heq⟩ := Option.map_eq_some_iff.mp h
      obtain ⟨rfl, rfl⟩ := Prod.mk.inj heq
      rw [List.cons_append, List.cons_append, quotedSpan.eq_def]
      simp only [if_true, ih hspan, Option.map_some]
  | case4 s hne =>
      obtain ⟨rfl, rfl⟩ := Prod.mk.inj (Option.some.inj h)
      rw [List.nil_append, quotedSpan.eq_def]
      simp only [if_neg hne, if_true]
  | case5 c s hne hmark ih =>
      obtain ⟨span, hspan, heq⟩ := Option.map_eq_some_iff.mp h
      obtain ⟨rfl, rfl⟩ := Prod.mk.inj heq
      rw [List.cons_append, quotedSpan.eq_def]
      simp only [if_neg hne, if_neg hmark, ih hspan, Option.map_some]

/-- Nor does it matter when the mark is passed. -/
theorem upThrough_append {mark s before rest : Text} (hmark : mark ≠ [])
    (h : upThrough mark s = some (before, rest)) (t : Text) :
    upThrough mark (s ++ t) = some (before, rest ++ t) := by
  rw [append_of_upThrough h, List.append_assoc, List.append_assoc]
  exact upThrough_behind hmark h _

/-- A block that ends is the same block in front of any other text. -/
theorem balanced_append {s block rest : Text} (h : balanced s = .ok (block, rest)) (t : Text) :
    balanced (s ++ t) = .ok (block, rest ++ t) := by
  obtain ⟨hblock, rfl, after, rfl⟩ := balanced_eq_ok_iff.mp h
  rw [List.append_assoc]
  exact balanced_of_isBlock hblock _

/-! ## Scanners that a line feed stops -/

/-- A character that is not taken stops the taking, whatever comes behind it. -/
theorem takeWhile_stopped {p : Char → Bool} {c : Char} (hc : p c = false) (s t : Text) :
    (s ++ c :: t).takeWhile p = s.takeWhile p := by
  induction s with
  | nil => rw [List.nil_append, List.takeWhile_cons_of_neg (by simp [hc]), List.takeWhile_nil]
  | cons d s ih => rw [List.cons_append, List.takeWhile_cons, List.takeWhile_cons, ih]

/-- And it is the first one that is left. -/
theorem dropWhile_stopped {p : Char → Bool} {c : Char} (hc : p c = false) (s t : Text) :
    (s ++ c :: t).dropWhile p = s.dropWhile p ++ c :: t := by
  induction s with
  | nil => rw [List.nil_append, List.dropWhile_cons_of_neg (by simp [hc]), List.dropWhile_nil,
      List.nil_append]
  | cons d s ih =>
      rw [List.cons_append, List.dropWhile_cons, List.dropWhile_cons, ih]
      split <;> rfl

/-- Blanks are passed within a line only. -/
theorem skipInline_feed (s t : Text) : skipInline (s ++ '\n' :: t) = skipInline s ++ '\n' :: t :=
  dropWhile_stopped rfl s t

/-- A line feed is the head of what was empty, and of nothing else. -/
theorem head?_feed {c : Char} (hc : c ≠ '\n') (s t : Text) :
    (s ++ '\n' :: t).head? = some c ↔ s.head? = some c := by
  cases s with
  | nil => simp [hc.symm]
  | cons d s => rfl

/-- A word that does not stand at the start of a text does not come about by what stands behind a
character that it has not. -/
theorem eat_stopped_of_none {word s : Text} {c : Char} (hword : c ∉ word) (h : eat word s = none)
    (t : Text) : eat word (s ++ c :: t) = none := by
  fun_induction eat word s with
  | case1 => cases h
  | case2 w word =>
      have hw : w ≠ c := fun heq => hword (heq ▸ List.mem_cons_self)
      rw [List.nil_append, eat, if_neg hw]
  | case3 d word rest ih =>
      rw [List.cons_append, eat, if_pos rfl]
      exact ih (fun hmem => hword (List.mem_cons_of_mem _ hmem)) h
  | case4 w word d rest hne => rw [List.cons_append, eat, if_neg hne]

/-- A word without a line feed that does not stand at the start of a text does not come about by
what stands on the lines below. -/
theorem eat_feed_of_none {word s : Text} (hword : '\n' ∉ word) (h : eat word s = none) (t : Text) :
    eat word (s ++ '\n' :: t) = none :=
  eat_stopped_of_none hword h t

/-- No name runs on over a line feed, so a keyword stays one in front of it. -/
theorem eatKeyword_feed {word s rest : Text} (h : eatKeyword word s = some rest) (t : Text) :
    eatKeyword word (s ++ '\n' :: t) = some (rest ++ '\n' :: t) := by
  unfold eatKeyword at h
  split at h
  · cases h
  · rename_i heat
    cases h
    rw [eatKeyword, eat_append heat]
    rfl
  · rename_i c after heat
    split at h
    · cases h
    · rename_i hc
      cases h
      rw [eatKeyword, eat_append heat]
      exact if_neg hc

/-- And it does not become one, if it has no line feed itself. -/
theorem eatKeyword_feed_of_none {word s : Text} (hword : '\n' ∉ word)
    (h : eatKeyword word s = none) (t : Text) : eatKeyword word (s ++ '\n' :: t) = none := by
  unfold eatKeyword at h
  split at h
  · rename_i heat
    rw [eatKeyword, eat_feed_of_none hword heat]
  · cases h
  · rename_i c after heat
    split at h
    · rename_i hc
      rw [eatKeyword, eat_append heat]
      exact if_pos hc
    · cases h

/-- What stands behind a line feed does not change the line before it. -/
theorem splitLine_feed (s t : Text) :
    splitLine (s ++ '\n' :: t) = ((splitLine s).1, (splitLine s).2 ++ '\n' :: t) := by
  have hstop : (('\n' : Char) != '\n') = false := rfl
  simp only [splitLine, takeWhile_stopped (c := '\n') (p := (· != '\n')) hstop,
    dropWhile_stopped (c := '\n') (p := (· != '\n')) hstop]
  split <;> rfl

/-! ## The blanks between items -/

/-- Dropping that stops inside of a text does not go on to the text behind it. -/
theorem dropWhile_append_of_ne {p : Char → Bool} {s : Text} (h : s.dropWhile p ≠ []) (t : Text) :
    (s ++ t).dropWhile p = s.dropWhile p ++ t := by
  rw [List.dropWhile_append, if_neg (by simpa using h)]

/-- Nor does taking. -/
theorem takeWhile_append_of_ne {p : Char → Bool} {s : Text} (h : s.dropWhile p ≠ []) (t : Text) :
    (s ++ t).takeWhile p = s.takeWhile p := by
  have hshort : (s.takeWhile p).length ≠ s.length := by
    intro heq
    have hall := congrArg List.length (List.takeWhile_append_dropWhile (p := p) (l := s))
    rw [List.length_append, heq] at hall
    exact h (List.length_eq_zero_iff.mp (Nat.add_eq_left.mp hall))
  rw [List.takeWhile_append, if_neg hshort]

/-- If something stands behind the blanks, it stands there with more text behind it as well. -/
theorem skipSpacing_append {s : Text} (h : skipSpacing s ≠ []) (t : Text) :
    skipSpacing (s ++ t) = skipSpacing s ++ t :=
  dropWhile_append_of_ne h t

/-- Behind nothing but blanks and line feeds, skipping them goes on. -/
theorem skipSpacing_append_of_blank {s : Text} (h : skipSpacing s = []) (t : Text) :
    skipSpacing (s ++ t) = skipSpacing t := by
  rw [skipSpacing] at h
  rw [skipSpacing, List.dropWhile_append, h]
  rfl

/-- The line feeds in front of a text are counted up to its first other character. -/
theorem leadingLineFeeds_append {s : Text} (h : skipSpacing s ≠ []) (t : Text) :
    leadingLineFeeds (s ++ t) = leadingLineFeeds s := by
  rw [leadingLineFeeds, takeWhile_append_of_ne h, leadingLineFeeds]

/-- Where there is none, the count goes on behind it. -/
theorem leadingLineFeeds_append_of_blank {s : Text} (h : skipSpacing s = []) (t : Text) :
    leadingLineFeeds (s ++ t) = s.count '\n' + leadingLineFeeds t := by
  have hall := List.takeWhile_append_dropWhile (p := isSpacing) (l := s)
  rw [← skipSpacing, h, List.append_nil] at hall
  rw [leadingLineFeeds, List.takeWhile_append, if_pos (congrArg List.length hall),
    List.count_append]
  rfl

/-! ## Texts that may follow -/

/-- A text that is empty or begins with a blank. -/
def BlankLed (n : Text) : Prop := ∀ c ∈ n.head?, isSpacing c = true

/-- A text that is not all blanks. -/
def Solid (v : Text) : Prop := ∃ c ∈ v, isSpacing c = false

/-- The end of a text ends every name. -/
theorem blankLed_nil : BlankLed [] := fun _ h => nomatch h

/-- So does a blank or a line feed. -/
theorem blankLed_cons {c : Char} (h : isSpacing c = true) (n : Text) : BlankLed (c :: n) := by
  intro d hd
  rw [← Option.mem_some.mp hd]
  exact h

/-- A text with a character that is not skipped is not empty. -/
theorem Solid.ne_nil {v : Text} (h : Solid v) : v ≠ [] := by
  rintro rfl
  obtain ⟨c, hc, -⟩ := h
  cases hc

/-- More in front of it does not take that character away. -/
theorem Solid.mono {v w : Text} (h : Solid v) (hsuffix : v <:+ w) : Solid w := by
  obtain ⟨c, hc, hsolid⟩ := h
  exact ⟨c, hsuffix.subset hc, hsolid⟩

/-- Dropping stops at the first character it does not drop. -/
theorem dropWhile_ne_nil {p : Char → Bool} {v : Text} (h : ∃ c ∈ v, p c = false) :
    v.dropWhile p ≠ [] := by
  obtain ⟨c, hc, hp⟩ := h
  intro hnil
  rw [List.dropWhile_eq_nil_iff.mp hnil c hc] at hp
  cases hp

/-- So skipping blanks and line feeds stops inside of a solid text. -/
theorem Solid.skipSpacing_ne_nil {v : Text} (h : Solid v) : skipSpacing v ≠ [] :=
  dropWhile_ne_nil h

/-- Blanks of a line are among the characters that are skipped between items. -/
theorem isSpacing_of_isInlineBlank {c : Char} (h : isInlineBlank c = true) :
    isSpacing c = true := by
  rw [isInlineBlank, Bool.or_eq_true] at h
  rw [isSpacing]
  rcases h with h | h <;> simp [h]

/-- Skipping fewer characters stops there all the more. -/
theorem Solid.skipInline_ne_nil {v : Text} (h : Solid v) : skipInline v ≠ [] := by
  obtain ⟨c, hc, hsolid⟩ := h
  refine dropWhile_ne_nil ⟨c, hc, ?_⟩
  by_contra hblank
  rw [isSpacing_of_isInlineBlank (by simpa using hblank)] at hsolid
  cases hsolid

/-- What ends with a text and what comes before it in the rest ends with what is in front. -/
theorem exists_of_suffix {v n r : Text} (h : v ++ n <:+ r) : ∃ w, r = w ++ n ∧ v <:+ w := by
  obtain ⟨front, rfl⟩ := h
  exact ⟨front ++ v, (List.append_assoc ..).symm, List.suffix_append _ _⟩

variable {n n' : Text}

/-! ## Scanners in front of a text that is exchanged -/

/-- Where dropping leaves something in front of a common end, it drops the same without that end. -/
theorem dropWhile_of_append {p : Char → Bool} {s v : Text} (h : (s ++ n).dropWhile p = v ++ n)
    (hv : v ≠ []) : s.dropWhile p = v := by
  rw [List.dropWhile_append] at h
  split at h
  · have hlength := congrArg List.length h
    have hle := (List.dropWhile_suffix p (l := n)).length_le
    have hpos := List.length_pos_iff.mpr hv
    rw [List.length_append] at hlength
    omega
  · exact List.append_cancel_right h

/-- What is left of a text by dropping has the end that the text has. -/
theorem exists_of_dropWhile {p : Char → Bool} {s v : Text} (h : s.dropWhile p = v ++ n) :
    ∃ w, s = w ++ n ∧ v <:+ w := by
  have hsuffix := List.dropWhile_suffix p (l := s)
  rw [h] at hsuffix
  exact exists_of_suffix hsuffix

/-- The end may then be exchanged for another. -/
theorem dropWhile_exchange {p : Char → Bool} {s v : Text} (h : (s ++ n).dropWhile p = v ++ n)
    (hv : v ≠ []) (t : Text) : (s ++ t).dropWhile p = v ++ t := by
  have hs := dropWhile_of_append h hv
  rw [dropWhile_append_of_ne (hs ▸ hv), hs]

/-- And the same is taken in front of each of them. -/
theorem takeWhile_exchange {p : Char → Bool} {s v : Text} (h : (s ++ n).dropWhile p = v ++ n)
    (hv : v ≠ []) (t : Text) : (s ++ t).takeWhile p = (s ++ n).takeWhile p := by
  have hs := dropWhile_of_append h hv
  rw [takeWhile_append_of_ne (hs ▸ hv), takeWhile_append_of_ne (hs ▸ hv)]

/-- A word without blanks does not come about by a text that begins with one. -/
theorem eat_blankLed (word : Text) (hword : word.any isSpacing = false) {s : Text}
    (hn : BlankLed n) : eat word (s ++ n) = (eat word s).map (· ++ n) := by
  fun_induction eat word s with
  | case1 s => rfl
  | case2 w word =>
      rw [List.nil_append]
      cases n with
      | nil => rfl
      | cons c n =>
          have hne : w ≠ c := by
            rintro rfl
            have hblank := hn w rfl
            rw [List.any_cons, hblank] at hword
            cases hword
          rw [eat, if_neg hne]
          rfl
  | case3 c word rest ih =>
      rw [List.cons_append, eat, if_pos rfl]
      rw [List.any_cons, Bool.or_eq_false_iff] at hword
      exact ih hword.2
  | case4 w word c rest hne =>
      rw [List.cons_append, eat, if_neg hne]
      rfl

/-- Names have no blanks and no line feeds. -/
theorem not_isSpacing_of_isTaskNameChar {c : Char} (h : isTaskNameChar c = true) :
    isSpacing c = false := by
  by_contra hblank
  rw [Bool.not_eq_false, isSpacing] at hblank
  simp only [Bool.or_eq_true, beq_iff_eq] at hblank
  rcases hblank with ((rfl | rfl) | rfl) | rfl <;> cases h

/-- Whether a keyword is there does not depend on an end that no name runs on into. -/
theorem eatKeyword_blankLed (word : Text) (hword : word.any isSpacing = false) {s : Text}
    (hn : BlankLed n) : eatKeyword word (s ++ n) = (eatKeyword word s).map (· ++ n) := by
  rw [eatKeyword, eat_blankLed word hword hn, eatKeyword]
  cases eat word s with
  | none => rfl
  | some rest =>
      cases rest with
      | nil =>
          cases n with
          | nil => rfl
          | cons c n =>
              have hc : isTaskNameChar c = false := by
                by_contra hname
                have hblank := not_isSpacing_of_isTaskNameChar (by simpa using hname)
                rw [hn c rfl] at hblank
                cases hblank
              show (if isTaskNameChar c then none else some (c :: n)) = _
              rw [hc]
              rfl
      | cons c rest =>
          show (if isTaskNameChar c then none else some (c :: (rest ++ n))) = _
          dsimp only
          split <;> rfl

/-- A mark that is passed in front of an end is passed in front of any other. -/
theorem upThrough_exchange {mark s before v : Text} (hmark : mark ≠ [])
    (h : upThrough mark (s ++ n) = some (before, v ++ n)) (n' : Text) :
    upThrough mark (s ++ n') = some (before, v ++ n') := by
  have hs := append_of_upThrough h
  rw [← List.append_assoc mark, ← List.append_assoc before] at hs
  rw [List.append_cancel_right hs, List.append_assoc, List.append_assoc]
  exact upThrough_behind hmark h _

/-- A quoted string that is closed in front of it is closed there as well. -/
theorem quotedSpan_exchange {mark : Char} {s inside v : Text}
    (h : quotedSpan mark (s ++ n) = some (inside, v ++ n)) (n' : Text) :
    quotedSpan mark (s ++ n') = some (inside, v ++ n') := by
  have hs := append_of_quotedSpan h
  rw [← List.cons_append, ← List.append_assoc inside] at hs
  rw [List.append_cancel_right hs, List.append_assoc, List.cons_append]
  exact quotedSpan_behind h _

/-- A block that ends in front of it, and at whose end a brace stands, ends there as well. -/
theorem balanced_exchange {s block after : Text}
    (h : balanced (s ++ n) = .ok (block, '}' :: (after ++ n))) (n' : Text) :
    balanced (s ++ n') = .ok (block, '}' :: (after ++ n')) := by
  obtain ⟨hblock, hs, -⟩ := balanced_eq_ok_iff.mp h
  rw [← List.cons_append, ← List.append_assoc block] at hs
  rw [List.append_cancel_right hs, List.append_assoc, List.cons_append]
  exact balanced_of_isBlock hblock _

end Text

end TaskRunner
