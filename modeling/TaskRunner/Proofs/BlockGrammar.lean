import Mathlib.Data.List.Induction
import TaskRunner.Text.Cursor

/-! # The grammar of blocks

    What the scanner of a block takes for a block is told by a grammar that knows nothing of
    a scanner.  A block is a row of **`BlockItem`**s: line feeds, blanks, comments, quoted
    spans, escaped characters, groups in braces, and characters that stand for themselves.
    One item looks back: a hash that only blanks part from the last line feed of its level
    (**`AtLineStart`**) starts a comment, any other stands for itself; and a comment looks
    ahead, to the line feed at its end.  A text is a block (**`IsBlock`**) if it is the text
    of items that **`Fit`**, where what is inside of each group is a block again.

    The scanner goes through the items of a block one by one (`scanBlock_item`), so it goes
    through all of a block that a closing brace follows (`IsBlock.scan`); and what it has
    gone through is a block (`exists_items`).  Hence **`balanced_exact`**: it finds a block
    if and only if there is one, and there is never more than one. -/

namespace TaskRunner

namespace Text

/-! ## The grammar -/

/-- What may stand between two marks: a backslash escapes the character behind it, and no mark
stands there that is not escaped. -/
inductive IsQuoted (mark : Char) : Text → Prop
  | nil : IsQuoted mark []
  | escaped (c : Char) {s : Text} : IsQuoted mark s → IsQuoted mark ('\\' :: c :: s)
  | plain {c : Char} {s : Text} : c ≠ '\\' → c ≠ mark → IsQuoted mark s → IsQuoted mark (c :: s)

/-- An item of a block: a comment with the text behind its hash, a quoted span with its mark and
its inside, an escape with the character behind the backslash, a group with its inside. -/
inductive BlockItem
  | lineFeed
  | blank (c : Char)
  | comment (text : Text)
  | quotes (mark : Char) (inside : Text)
  | escape (c : Char)
  | group (inside : Text)
  | plain (c : Char)

namespace BlockItem

/-- An item as it is written. -/
def text : BlockItem → Text
  | lineFeed => ['\n']
  | blank c => [c]
  | comment text => '#' :: text
  | quotes mark inside => mark :: (inside ++ [mark])
  | escape c => ['\\', c]
  | group inside => '{' :: (inside ++ ['}'])
  | plain c => [c]

/-- Behind the last line feed there are only blanks. -/
def AtLineStart (before : List BlockItem) : Prop :=
  ∃ lines blanks, before = lines ++ lineFeed :: blanks ∧ ∀ item ∈ blanks, ∃ c, item = blank c

/-- An item may stand behind the items `before` and in front of the items `after` of its level. -/
def Fits (before after : List BlockItem) : BlockItem → Prop
  | lineFeed => True
  | blank c => c = ' ' ∨ c = '\t' ∨ c = '\r'
  | comment text => AtLineStart before ∧ '\n' ∉ text ∧ after.head? = some lineFeed
  | quotes mark inside => (mark = '"' ∨ mark = '\'') ∧ IsQuoted mark inside
  | escape _ => True
  | group _ => True
  | plain c =>
    c ∉ ['\n', ' ', '\t', '\r', '}', '{', '"', '\'', '\\'] ∧ (c = '#' → ¬ AtLineStart before)

/-- Every one of some items fits where it stands, where the items `before` stand in front. -/
def Fit (before : List BlockItem) : List BlockItem → Prop
  | [] => True
  | item :: after => item.Fits before after ∧ Fit (before ++ [item]) after

end BlockItem

open BlockItem

/-- The texts of rows of items that fit, with blocks inside of their groups. -/
inductive IsBlock : Text → Prop
  | items (items : List BlockItem) :
      Fit [] items → (∀ inside, .group inside ∈ items → IsBlock inside) →
      IsBlock (items.flatMap text)

/-! ## The starts of lines -/

/-- What an item does to the start of a line: a line feed makes one, and a blank leaves it one. -/
def BlockItem.keepsLineStart (here : Bool) : BlockItem → Bool
  | lineFeed => true
  | blank _ => here
  | _ => false

/-- Behind the last line feed there are only blanks. -/
def atLineStart (before : List BlockItem) : Bool := before.foldl keepsLineStart false

theorem atLineStart_concat (before : List BlockItem) (item : BlockItem) :
    atLineStart (before ++ [item]) = item.keepsLineStart (atLineStart before) := by
  rw [atLineStart, List.foldl_append]
  rfl

theorem atLineStart_iff (before : List BlockItem) :
    atLineStart before = true ↔ AtLineStart before := by
  induction before using List.reverseRecOn with
  | nil =>
      constructor
      · intro h
        cases h
      · rintro ⟨lines, blanks, h, -⟩
        exact absurd h.symm (by simp)
  | append_singleton before item ih =>
      rw [atLineStart_concat]
      constructor
      · intro h
        cases item with
        | lineFeed => exact ⟨before, [], rfl, fun _ hmem => absurd hmem List.not_mem_nil⟩
        | blank c =>
            obtain ⟨lines, blanks, rfl, hblanks⟩ := ih.mp h
            refine ⟨lines, blanks ++ [.blank c], by simp, ?_⟩
            intro item hmem
            rcases List.mem_append.mp hmem with hmem | hmem
            · exact hblanks item hmem
            · exact ⟨c, List.mem_singleton.mp hmem⟩
        | _ => cases h
      · rintro ⟨lines, blanks, h, hblanks⟩
        rcases List.eq_nil_or_concat blanks with rfl | ⟨more, last, rfl⟩
        · obtain ⟨-, hitem⟩ := List.append_inj' h rfl
          obtain rfl := List.singleton_inj.mp hitem
          rfl
        · rw [List.concat_eq_append, ← List.cons_append, ← List.append_assoc] at h
          obtain ⟨hbefore, hitem⟩ := List.append_inj' h rfl
          obtain rfl := List.singleton_inj.mp hitem
          obtain ⟨c, rfl⟩ := hblanks item (by simp)
          exact ih.mpr ⟨lines, more, hbefore, fun other hmem => hblanks other (by simp [hmem])⟩

/-! ## The scanner goes through blocks -/

theorem prepend_prepend (read more : Text) (scan : Except (ParseError Text) (Text × Text)) :
    prepend read (prepend more scan) = prepend (read ++ more) scan := by
  cases scan with
  | error e => rfl
  | ok found => simp [prepend, Except.map]

theorem scanBlock_lineFeed (opens : List Text) (here : Bool) (s : Text) :
    scanBlock opens (.code here) ('\n' :: s) = prepend ['\n'] (scanBlock opens (.code true) s) := by
  rw [scanBlock.eq_def]
  rfl

/-- At a closing brace it does not matter whether the line starts there. -/
theorem scanBlock_closing (opens : List Text) (here : Bool) (s : Text) :
    scanBlock opens (.code here) ('}' :: s) = scanBlock opens (.code false) ('}' :: s) := by
  rw [scanBlock.eq_def, scanBlock.eq_def opens (.code false)]
  rfl

theorem scanBlock_comment {comment : Text} (h : '\n' ∉ comment) (opens : List Text) (s : Text) :
    scanBlock opens .comment (comment ++ '\n' :: s)
      = prepend (comment ++ ['\n']) (scanBlock opens (.code true) s) := by
  induction comment with
  | nil =>
      rw [List.nil_append, scanBlock, if_pos rfl]
      rfl
  | cons c comment ih =>
      rw [List.mem_cons, not_or] at h
      rw [List.cons_append, scanBlock, if_neg (Ne.symm h.1), ih h.2, prepend_prepend]
      rfl

theorem scanBlock_quotes {mark : Char} {inside : Text} (h : IsQuoted mark inside)
    (hmark : mark ≠ '\\') (opens : List Text) (opening s : Text) :
    scanBlock opens (.quotes mark opening) (inside ++ mark :: s)
      = prepend (inside ++ [mark]) (scanBlock opens (.code false) s) := by
  induction h with
  | nil =>
      rw [List.nil_append, scanBlock.eq_def]
      simp only [if_neg hmark, if_true, List.nil_append]
  | escaped c _ ih =>
      rw [List.cons_append, List.cons_append, scanBlock.eq_def]
      simp only [if_true, ih, prepend_prepend]
      rfl
  | plain hescape hclose _ ih =>
      rw [List.cons_append, scanBlock.eq_def]
      simp only [if_neg hescape, if_neg hclose, ih, prepend_prepend]
      rfl

/-- **THE SCANNER GOES THROUGH AN ITEM** that fits, and knows behind it whether the line starts
    there.  For a group it has to go through what is inside. -/
theorem scanBlock_item {before after : List BlockItem} {item : BlockItem}
    (h : item.Fits before after)
    (hgroup : ∀ inside, item = .group inside → ∀ opens s,
      scanBlock opens (.code false) (inside ++ '}' :: s)
        = prepend inside (scanBlock opens (.code false) ('}' :: s)))
    (opens : List Text) (s : Text) :
    scanBlock opens (.code (atLineStart before)) (item.text ++ (after.flatMap text ++ s))
      = prepend item.text
          (scanBlock opens (.code (atLineStart (before ++ [item]))) (after.flatMap text ++ s)) := by
  rw [atLineStart_concat]
  cases item with
  | lineFeed => exact scanBlock_lineFeed ..
  | blank c =>
      rw [text, List.singleton_append, scanBlock.eq_def]
      rcases h with rfl | rfl | rfl <;> rfl
  | comment inside =>
      obtain ⟨hstart, hinside, hafter⟩ := h
      obtain ⟨rest, rfl⟩ : ∃ rest, after = .lineFeed :: rest := by
        cases after with
        | nil => cases hafter
        | cons first rest => exact ⟨rest, by rw [Option.some.inj hafter]⟩
      rw [(atLineStart_iff before).mpr hstart, List.flatMap_cons, text, text]
      show scanBlock opens (.code true) ('#' :: (inside ++ '\n' :: _)) = _
      rw [scanBlock.eq_def]
      simp only [Char.reduceEq, or_self, and_self, if_true, if_false]
      rw [scanBlock_comment hinside, prepend_prepend]
      show _ = prepend _ (scanBlock opens (.code false) ('\n' :: _))
      rw [scanBlock_lineFeed, prepend_prepend]
      simp
  | quotes mark inside =>
      obtain ⟨hmark, hinside⟩ := h
      have hescape : mark ≠ '\\' := by
        rintro rfl
        exact absurd hmark (by decide)
      rw [text, List.cons_append, List.append_assoc, List.singleton_append, scanBlock.eq_def]
      have hquotes := scanBlock_quotes hinside hescape opens
      rcases hmark with rfl | rfl
      · simp [hquotes, prepend_prepend]
        rfl
      · simp [hquotes, prepend_prepend]
        rfl
  | escape c =>
      rw [text, scanBlock.eq_def]
      rfl
  | group inside =>
      rw [text, List.cons_append, List.append_assoc, List.singleton_append, scanBlock.eq_def]
      simp only [Char.reduceEq, or_self, false_and, if_true, if_false]
      rw [hgroup inside rfl, scanBlock.eq_def (_ :: opens)]
      simp only [Char.reduceEq, or_self, false_and, if_true, if_false, prepend_prepend]
      rfl
  | plain c =>
      obtain ⟨hplain, hhash⟩ := h
      have hstart : ¬ (c = '#' ∧ atLineStart before = true) := by
        rintro ⟨hc, hbefore⟩
        exact hhash hc ((atLineStart_iff before).mp hbefore)
      simp only [List.mem_cons, List.not_mem_nil, or_false, not_or] at hplain
      rw [text, List.singleton_append, scanBlock.eq_def]
      simp [hplain, hstart]
      rfl

/-- The scanner goes through items that fit, up to a closing brace behind them. -/
theorem scanBlock_items {before items : List BlockItem} (hfit : Fit before items)
    (hgroups : ∀ inside, .group inside ∈ items → ∀ opens s,
      scanBlock opens (.code false) (inside ++ '}' :: s)
        = prepend inside (scanBlock opens (.code false) ('}' :: s)))
    (opens : List Text) (s : Text) :
    scanBlock opens (.code (atLineStart before)) (items.flatMap text ++ '}' :: s)
      = prepend (items.flatMap text) (scanBlock opens (.code false) ('}' :: s)) := by
  induction items generalizing before with
  | nil =>
      rw [List.flatMap_nil, List.nil_append, scanBlock_closing]
      cases scanBlock opens (.code false) ('}' :: s) <;> rfl
  | cons item items ih =>
      have hitem := scanBlock_item hfit.1 (fun inside heq => hgroups inside (heq ▸ List.mem_cons_self))
        opens ('}' :: s)
      rw [List.flatMap_cons, List.append_assoc, hitem,
        ih hfit.2 fun inside hmem => hgroups inside (List.mem_cons_of_mem _ hmem), prepend_prepend]

/-- **THE SCANNER GOES THROUGH A BLOCK** that a closing brace follows. -/
theorem IsBlock.scan {block : Text} (h : IsBlock block) (opens : List Text) (s : Text) :
    scanBlock opens (.code false) (block ++ '}' :: s)
      = prepend block (scanBlock opens (.code false) ('}' :: s)) := by
  induction h generalizing opens s with
  | items items hfit _ ih => exact @scanBlock_items [] items hfit ih opens s

theorem balanced_of_isBlock {block : Text} (h : IsBlock block) (s : Text) :
    balanced (block ++ '}' :: s) = .ok (block, '}' :: s) := by
  rw [balanced, h.scan, scanBlock.eq_def]
  simp [prepend, Except.map]

/-! ## What the scanner goes through is a block -/

theorem exists_comment {opens : List Text} {s block rest : Text}
    (h : scanBlock opens .comment s = .ok (block, rest)) :
    ∃ comment after more, '\n' ∉ comment ∧ s = comment ++ '\n' :: after ∧
      scanBlock opens (.code true) after = .ok (more, rest) := by
  induction s generalizing block with
  | nil =>
      rw [scanBlock] at h
      cases h
  | cons c s ih =>
      rw [scanBlock] at h
      by_cases hfeed : c = '\n'
      · rw [if_pos hfeed] at h
        obtain ⟨more, hmore, -⟩ := prepend_eq_ok h
        exact ⟨[], s, more, List.not_mem_nil, by rw [hfeed]; rfl, hmore⟩
      · rw [if_neg hfeed] at h
        obtain ⟨found, hfound, -⟩ := prepend_eq_ok h
        obtain ⟨comment, after, more, hcomment, rfl, hmore⟩ := ih hfound
        refine ⟨c :: comment, after, more, ?_, rfl, hmore⟩
        rw [List.mem_cons, not_or]
        exact ⟨Ne.symm hfeed, hcomment⟩

theorem exists_quoted {opens : List Text} {mark : Char} {opening s block rest : Text}
    (h : scanBlock opens (.quotes mark opening) s = .ok (block, rest)) :
    ∃ inside after more, IsQuoted mark inside ∧ s = inside ++ mark :: after ∧
      scanBlock opens (.code false) after = .ok (more, rest) := by
  fun_induction quotedSpan mark s generalizing block with
  | case1 =>
      rw [scanBlock] at h
      cases h
  | case2 =>
      rw [scanBlock.eq_def] at h
      simp at h
  | case3 d s ih =>
      rw [scanBlock.eq_def] at h
      simp only [if_true] at h
      obtain ⟨found, hfound, -⟩ := prepend_eq_ok h
      obtain ⟨inside, after, more, hinside, rfl, hmore⟩ := ih hfound
      exact ⟨'\\' :: d :: inside, after, more, .escaped d hinside, rfl, hmore⟩
  | case4 s hescape =>
      rw [scanBlock.eq_def] at h
      simp only [if_neg hescape, if_true] at h
      obtain ⟨more, hmore, -⟩ := prepend_eq_ok h
      exact ⟨[], s, more, .nil, rfl, hmore⟩
  | case5 c s hescape hclose ih =>
      rw [scanBlock.eq_def] at h
      simp only [if_neg hescape, if_neg hclose] at h
      obtain ⟨found, hfound, -⟩ := prepend_eq_ok h
      obtain ⟨inside, after, more, hinside, rfl, hmore⟩ := ih hfound
      exact ⟨c :: inside, after, more, .plain hescape hclose hinside, rfl, hmore⟩

/-- Behind the inside of a group the scanner goes on where it was. -/
theorem scan_behind_group {inside : Text} (h : IsBlock inside) {opening : Text} {opens : List Text}
    {s block rest : Text}
    (hscan : scanBlock (opening :: opens) (.code false) (inside ++ '}' :: s) = .ok (block, rest)) :
    ∃ more, scanBlock opens (.code false) s = .ok (more, rest) := by
  rw [h.scan] at hscan
  obtain ⟨closed, hclosed, -⟩ := prepend_eq_ok hscan
  rw [scanBlock.eq_def] at hclosed
  simp only [Char.reduceEq, or_self, false_and, if_true, if_false] at hclosed
  obtain ⟨more, hmore, -⟩ := prepend_eq_ok hclosed
  exact ⟨more, hmore⟩

/-- Where a line feed comes first in the text of items that fit, it is the first item. -/
theorem head_lineFeed {before items : List BlockItem} (hfit : Fit before items) {after s : Text}
    (h : '\n' :: s = items.flatMap text ++ '}' :: after) : items.head? = some .lineFeed := by
  cases items with
  | nil => exact absurd (List.cons.inj h).1 (by decide)
  | cons item items =>
      rw [List.flatMap_cons, List.append_assoc] at h
      have hitem := hfit.1
      cases item with
      | lineFeed => rfl
      | blank c =>
          obtain rfl := (List.cons.inj h).1
          exact absurd (show '\n' = ' ' ∨ '\n' = '\t' ∨ '\n' = '\r' from hitem) (by decide)
      | quotes mark inside =>
          obtain rfl := (List.cons.inj h).1
          exact absurd hitem.1 (by decide)
      | plain c =>
          obtain rfl := (List.cons.inj h).1
          exact absurd List.mem_cons_self hitem.1
      | _ => exact absurd (List.cons.inj h).1 (by decide)

/-- **WHAT THE SCANNER GOES THROUGH FIRST** is an item, which fits in front of whatever items the
    rest turns out to be, unless the scanner stops at once.  That it goes through a block where
    a group opens is left to the assumption. -/
theorem exists_item {opens : List Text} {before : List BlockItem} {c : Char} {s block rest : Text}
    (h : scanBlock opens (.code (atLineStart before)) (c :: s) = .ok (block, rest))
    (hclose : c ≠ '}')
    (hgroup : ∀ opening block, scanBlock (opening :: opens) (.code false) s = .ok (block, rest) →
      ∃ inside after, s = inside ++ '}' :: after ∧ IsBlock inside) :
    ∃ item behind more, c :: s = item.text ++ behind ∧
      (∀ inside, item = .group inside → IsBlock inside) ∧
      scanBlock opens (.code (atLineStart (before ++ [item]))) behind = .ok (more, rest) ∧
      ∀ items after, Fit (before ++ [item]) items → behind = items.flatMap text ++ '}' :: after →
        item.Fits before items := by
  have hnone : ∀ {item : BlockItem}, (∀ inside, item ≠ .group inside) →
      ∀ inside, item = .group inside → IsBlock inside :=
    fun hne inside heq => absurd heq (hne inside)
  simp only [atLineStart_concat]
  rw [scanBlock.eq_def] at h
  dsimp only at h
  split_ifs at h with hfeed hblank hcomment hquotes hopen hescape
  · obtain ⟨more, hmore, -⟩ := prepend_eq_ok h
    exact ⟨.lineFeed, s, more, by rw [hfeed]; rfl, hnone (by simp), hmore, fun _ _ _ _ => trivial⟩
  · obtain ⟨more, hmore, -⟩ := prepend_eq_ok h
    exact ⟨.blank c, s, more, rfl, hnone (by simp), hmore, fun _ _ _ _ => hblank⟩
  · obtain ⟨found, hfound, -⟩ := prepend_eq_ok h
    obtain ⟨comment, after, more, hcomment', rfl, hmore⟩ := exists_comment hfound
    obtain ⟨rfl, hstart⟩ := hcomment
    refine ⟨.comment comment, '\n' :: after, '\n' :: more, rfl, hnone (by simp), ?_, ?_⟩
    · rw [scanBlock_lineFeed, hmore]
      rfl
    · intro items _ hfit hitems
      exact ⟨(atLineStart_iff before).mp hstart, hcomment', head_lineFeed hfit hitems⟩
  · obtain ⟨found, hfound, -⟩ := prepend_eq_ok h
    obtain ⟨inside, after, more, hinside, rfl, hmore⟩ := exists_quoted hfound
    refine ⟨.quotes c inside, after, more, ?_, hnone (by simp), hmore, fun _ _ _ _ => ⟨hquotes, hinside⟩⟩
    rw [text, List.cons_append, List.append_assoc]
    rfl
  · obtain ⟨found, hfound, -⟩ := prepend_eq_ok h
    obtain ⟨inside, after, rfl, hinside⟩ := hgroup _ _ hfound
    obtain ⟨more, hmore⟩ := scan_behind_group hinside hfound
    refine ⟨.group inside, after, more, ?_, ?_, hmore, fun _ _ _ _ => trivial⟩
    · rw [hopen, text, List.cons_append, List.append_assoc]
      rfl
    · intro other heq
      exact BlockItem.group.inj heq ▸ hinside
  · cases s with
    | nil => cases h
    | cons d s =>
        obtain ⟨more, hmore, -⟩ := prepend_eq_ok h
        exact ⟨.escape d, s, more, by rw [hescape]; rfl, hnone (by simp), hmore,
          fun _ _ _ _ => trivial⟩
  · obtain ⟨more, hmore, -⟩ := prepend_eq_ok h
    refine ⟨.plain c, s, more, rfl, hnone (by simp), hmore, fun _ _ _ _ => ⟨?_, ?_⟩⟩
    · simp only [not_or] at hblank hquotes
      simp [hfeed, hblank, hclose, hopen, hquotes, hescape]
    · intro hhash hstart
      exact hcomment ⟨hhash, (atLineStart_iff before).mpr hstart⟩

/-- **WHAT THE SCANNER GOES THROUGH** up to a closing brace are items that fit, and the inside of
    each group is a block. -/
theorem exists_items {opens : List Text} {before : List BlockItem} {s block rest : Text}
    (h : scanBlock opens (.code (atLineStart before)) s = .ok (block, rest)) :
    ∃ items after, s = items.flatMap text ++ '}' :: after ∧ Fit before items ∧
      ∀ inside, .group inside ∈ items → IsBlock inside := by
  induction hlength : s.length using Nat.strongRecOn generalizing opens before s block with
  | _ n ih =>
      cases s with
      | nil =>
          rw [scanBlock] at h
          cases h
      | cons c s =>
          by_cases hclose : c = '}'
          · exact ⟨[], s, by rw [hclose]; rfl, trivial, fun _ hmem => absurd hmem List.not_mem_nil⟩
          · have hgroup : ∀ opening block,
                scanBlock (opening :: opens) (.code false) s = .ok (block, rest) →
                ∃ inside after, s = inside ++ '}' :: after ∧ IsBlock inside := by
              intro opening block hscan
              have hshorter : s.length < n := by simp [← hlength]
              have hstart : scanBlock (opening :: opens) (.code (atLineStart [])) s
                  = .ok (block, rest) := hscan
              obtain ⟨items, after, hs, hfit, hgroups⟩ := ih _ hshorter hstart rfl
              exact ⟨items.flatMap text, after, hs, .items items hfit hgroups⟩
            obtain ⟨item, behind, more, htext, hinside, hmore, hfits⟩ := exists_item h hclose hgroup
            have hshorter : behind.length < n := by
              have hpos : 0 < item.text.length := by cases item <;> simp [text]
              rw [← hlength, htext, List.length_append]
              omega
            obtain ⟨items, after, rfl, hfit, hgroups⟩ := ih _ hshorter hmore rfl
            refine ⟨item :: items, after, ?_, ⟨hfits items after hfit rfl, hfit⟩, ?_⟩
            · rw [htext, List.flatMap_cons, List.append_assoc]
            · intro inside hmem
              rcases List.mem_cons.mp hmem with heq | hmem
              · exact hinside inside heq.symm
              · exact hgroups inside hmem

/-- A block and nothing else is found in front of a closing brace. -/
theorem balanced_eq_ok_iff {s block rest : Text} :
    balanced s = .ok (block, rest) ↔
      IsBlock block ∧ s = block ++ rest ∧ ∃ after, rest = '}' :: after := by
  constructor
  · intro h
    have hstart : scanBlock [] (.code (atLineStart [])) s = .ok (block, rest) := h
    obtain ⟨items, after, rfl, hfit, hgroups⟩ := exists_items hstart
    have hblock : IsBlock (items.flatMap text) := .items items hfit hgroups
    have hfound := balanced_of_isBlock hblock after
    obtain ⟨rfl, rfl⟩ := Prod.mk.inj (Except.ok.inj (hfound.symm.trans h))
    exact ⟨hblock, rfl, after, rfl⟩
  · rintro ⟨hblock, rfl, after, rfl⟩
    exact balanced_of_isBlock hblock after

end Text

namespace Cursor

open Text

/-- The cursor finds what the scanner finds in what is still to come. -/
theorem balanced_fst_eq_ok_iff {c : Cursor} {block : Text} :
    c.balanced.1 = .ok block ↔ Text.balanced c.rest = .ok (block, c.balanced.2.rest) := by
  rw [balanced]
  split
  · rename_i found hfound
    constructor
    · intro h
      obtain rfl := Except.ok.inj h
      exact hfound
    · intro h
      exact congrArg (Except.ok ·.1) (Except.ok.inj (hfound.symm.trans h))
  · rename_i e he
    constructor
    · intro h
      cases h
    · intro h
      cases he.symm.trans h

/-- Where the scanner finds a block, the cursor stands behind it. -/
theorem balanced_snd_of_ok {c : Cursor} {block rest : Text}
    (h : Text.balanced c.rest = .ok (block, rest)) :
    c.balanced.2.source = c.source ∧ c.balanced.2.rest = rest := by
  rw [balanced]
  split
  · rename_i found hfound
    obtain rfl := Except.ok.inj (h.symm.trans hfound)
    exact ⟨rfl, rfl⟩
  · rename_i e he
    cases h.symm.trans he

/-- **BLOCKS ARE WHAT THE GRAMMAR SAYS**: a cursor takes a text for a block if and only if what is
    still to come is that text and a closing brace behind it, and the text is a block by the
    grammar.  There is never a second one, so the brace is the first that closes what nothing
    in the block has opened.  The cursor then stands in front of it, on the same text. -/
theorem balanced_exact (c : Cursor) :
    (∀ block, c.balanced.1 = .ok block ↔
      IsBlock block ∧ ∃ after, c.rest = block ++ '}' :: after) ∧
    (∀ block other, IsBlock block → (∃ after, c.rest = block ++ '}' :: after) →
      IsBlock other → (∃ after, c.rest = other ++ '}' :: after) → block = other) ∧
    ∀ block, c.balanced.1 = .ok block →
      c.balanced.2.source = c.source ∧ c.balanced.2.before = c.before ++ block ∧
        ∃ after, c.balanced.2.rest = '}' :: after := by
  refine ⟨fun block => ?_, ?_, fun block h => ?_⟩
  · constructor
    · intro h
      obtain ⟨hblock, hrest, after, hafter⟩ := balanced_eq_ok_iff.mp (balanced_fst_eq_ok_iff.mp h)
      exact ⟨hblock, after, by rw [hrest, hafter]⟩
    · rintro ⟨hblock, after, hrest⟩
      have hfound := balanced_of_isBlock hblock after
      rw [← hrest] at hfound
      rw [balanced_fst_eq_ok_iff, (balanced_snd_of_ok hfound).2]
      exact hfound
  · rintro block other hblock ⟨after, hrest⟩ hother ⟨after', hrest'⟩
    have hfound := balanced_of_isBlock hblock after
    have hfound' := balanced_of_isBlock hother after'
    rw [← hrest] at hfound
    rw [← hrest'] at hfound'
    exact congrArg Prod.fst (Except.ok.inj (hfound.symm.trans hfound'))
  · have hfound := balanced_fst_eq_ok_iff.mp h
    obtain ⟨-, hrest, after, hafter⟩ := balanced_eq_ok_iff.mp hfound
    have hsource := (balanced_snd_of_ok hfound).1
    refine ⟨hsource, ?_, after, hafter⟩
    have hbefore := c.balanced.2.before_append_rest
    rw [hsource, ← c.before_append_rest, hrest, ← List.append_assoc] at hbefore
    exact List.append_cancel_right hbefore

/-- A block with a comment that holds a quote and a brace, a brace in quotes, and a group behind a hash
that starts no comment. -/
def commentedBlock : Text := "\n # don't \x7d\n say '\x7d' # \x7b\x7d\n".toList

/-- A cursor in front of that block. -/
def commented : Cursor := (new ('{' :: commentedBlock ++ "\x7d x".toList)).bump.2

theorem commented_is_found :
    commented.balanced.1 = .ok commentedBlock ∧ IsBlock commentedBlock ∧
      ∃ after, commented.balanced.2.rest = '}' :: after := by
  have hfound : commented.balanced.1 = .ok commentedBlock := by decide +kernel
  obtain ⟨hexact, -, hstands⟩ := balanced_exact commented
  exact ⟨hfound, ((hexact _).mp hfound).1, (hstands _ hfound).2.2⟩

end Cursor

end TaskRunner
