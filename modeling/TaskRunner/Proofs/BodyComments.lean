import TaskRunner.Proofs.TailExchange

/-! # Comment lines in the body of a task

    Two readers decide what a comment in a body is.  The scanner that looks for the end of
    the body goes by what stands in front of a hash (`Standing`), and the splitter of
    commands goes by whole lines.  The scanner is put in a form that tells for every front
    of a block how things stand behind it (`scan`), and in this form it is seen that a
    comment line leaves them as they are (`scan_commentLine`), whatever its text.

    So the two agree at each line break that no quotes enclose, **unless a backslash stands
    directly before it**.  The scanner takes the backslash and the line break for one
    escaped character, no line starts for it there, and it goes into the quotes and the
    braces of the comment (`comment_lines_may_count`).  At all other line breaks a comment
    line can be put into the body of any task, and the file does not change
    (`comment_lines_do_not_count`). -/

namespace TaskRunner

namespace Text

/-! ## How things stand in a block -/

/-- How a place in a block stands: in code, where a line may start; in a comment; in a quoted span;
or behind a backslash, in code or in a quoted span. -/
inductive Standing
  | code (atLineStart : Bool)
  | comment
  | quotes (mark : Char)
  | escaped
  | escapedIn (mark : Char)
  deriving DecidableEq

namespace Standing

/-- How the place behind a character stands. -/
def behind (c : Char) : Standing → Standing
  | code here =>
    if c = '\n' then code true
    else if c = ' ' ∨ c = '\t' ∨ c = '\r' then code here
    else if c = '#' ∧ here = true then comment
    else if c = '"' ∨ c = '\'' then quotes c
    else if c = '\\' then escaped
    else code false
  | comment => if c = '\n' then code true else comment
  | quotes mark =>
    if c = '\\' then escapedIn mark else if c = mark then code false else quotes mark
  | escaped => code false
  | escapedIn mark => quotes mark

/-- How many braces are open behind a character where `opens` are open in front of it; none if the
character closes the block. -/
def opensBehind (c : Char) (opens : Nat) : Standing → Option Nat
  | code _ =>
    if c = '}' then if opens = 0 then none else some (opens - 1)
    else if c = '{' then some (opens + 1)
    else some opens
  | _ => some opens

/-- How things stand behind a text. -/
def after (st : Standing) (front : Text) : Standing := front.foldl (fun st c => st.behind c) st

/-- A quoted span is open. -/
def isQuoted : Standing → Bool
  | quotes _ | escapedIn _ => true
  | _ => false

/-- A line break that no quotes enclose starts a line, if it is not escaped. -/
theorem behind_lineFeed {st : Standing} (hquoted : st.isQuoted = false) (hescaped : st ≠ escaped) :
    st.behind '\n' = code true := by
  cases st with
  | code here => rfl
  | comment => rfl
  | quotes mark => cases hquoted
  | escaped => exact absurd rfl hescaped
  | escapedIn mark => cases hquoted

end Standing

open Standing

/-- How the place behind the first characters of a block stands. -/
def standing (front : Text) : Standing := (code false).after front

/-- The rest of a block from a place on, where `opens` braces are open. -/
def scan (opens : Nat) (st : Standing) : Text → Option (Text × Text)
  | [] => none
  | c :: rest =>
    match st.opensBehind c opens with
    | none => some ([], c :: rest)
    | some more => (scan more (st.behind c) rest).map fun found => (c :: found.1, found.2)

/-- How the place stands that a scanner is in. -/
def Inside.standing : Inside → Standing
  | .code atLineStart => .code atLineStart
  | .comment => .comment
  | .quotes mark _ => .quotes mark

theorem toOption_prepend (read : Text) (found : Except (ParseError Text) (Text × Text)) :
    (prepend read found).toOption = found.toOption.map fun found => (read ++ found.1, found.2) := by
  cases found <;> rfl

/-- **THE SCANNER GOES BY HOW THINGS STAND** and by the number of open braces, errors apart. -/
theorem toOption_scanBlock (opens : List Text) (inside : Inside) (s : Text) :
    (scanBlock opens inside s).toOption = scan opens.length inside.standing s := by
  fun_induction scanBlock opens inside s with
  | case1 | case2 | case6 | case9 | case13 | case17 => rfl
  | case3 opens mark opening d rest ih =>
      rw [toOption_prepend, ih]
      simp only [scan, Inside.standing, behind, opensBehind, if_true, Option.map_map]
      rfl
  | case11 opens here c rest hfeed hblank ih =>
      rw [toOption_prepend, ih]
      rcases hblank with rfl | rfl | rfl <;> rfl
  | case15 opens here c rest hfeed hblank hcomment hclose hquote ih =>
      rw [toOption_prepend, ih]
      rcases hquote with rfl | rfl <;> rfl
  | case18 opens here d rest hfeed hblank hcomment hclose hquote hopen ih =>
      have hescape : scan opens.length (code here) ('\\' :: d :: rest)
          = (scan opens.length escaped (d :: rest)).map fun found => ('\\' :: found.1, found.2) := by
        cases here <;> rfl
      have hnext : scan opens.length escaped (d :: rest)
          = (scan opens.length (code false) rest).map fun found => (d :: found.1, found.2) := rfl
      rw [toOption_prepend, ih]
      show _ = scan opens.length (code here) _
      rw [hescape, hnext, Option.map_map]
      rfl
  | case19 opens here c rest hfeed hblank hcomment hclose hquote hopen hescape ih =>
      rw [toOption_prepend, ih, scan]
      simp only [Inside.standing, behind, opensBehind, if_neg hfeed, if_neg hblank, if_neg hcomment,
        if_neg hclose, if_neg hquote, if_neg hopen, if_neg hescape]
      rfl
  | _ =>
      rename_i ih
      rw [toOption_prepend, ih]
      simp_all [scan, Inside.standing, behind, opensBehind]

theorem balanced_eq_ok_iff_scan {s block rest : Text} :
    balanced s = .ok (block, rest) ↔ scan 0 (.code false) s = some (block, rest) := by
  have hscan : (balanced s).toOption = scan 0 (.code false) s :=
    toOption_scanBlock [] (.code false) s
  rw [← hscan]
  cases balanced s with
  | error e => exact ⟨nofun, nofun⟩
  | ok found => exact ⟨congrArg Except.toOption, fun h => congrArg Except.ok (Option.some.inj h)⟩

/-- What is scanned behind a front of the block depends on the front only by how things stand there
and by the braces that it leaves open. -/
theorem exists_scan_behind {opens : Nat} {st : Standing} {front back block rest : Text}
    (h : scan opens st (front ++ back) = some (front ++ block, rest)) :
    ∃ more, scan more (st.after front) back = some (block, rest) ∧
      ∀ s, scan opens st (front ++ s)
        = (scan more (st.after front) s).map
            fun found => (front ++ found.1, found.2) := by
  induction front generalizing opens st with
  | nil => exact ⟨opens, h, fun s => (Option.map_id' ..).symm⟩
  | cons c front ih =>
      rw [List.cons_append, scan] at h
      cases hopens : st.opensBehind c opens with
      | none =>
          rw [hopens] at h
          cases h
      | some opens' =>
          rw [hopens] at h
          obtain ⟨⟨found, after⟩, hfound, heq⟩ := Option.map_eq_some_iff.mp h
          obtain ⟨hblock, rfl⟩ := Prod.mk.inj heq
          obtain rfl := (List.cons.inj hblock).2
          obtain ⟨more, hback, hall⟩ := ih hfound
          refine ⟨more, hback, fun s => ?_⟩
          rw [List.cons_append, scan, hopens]
          dsimp only
          rw [hall, Option.map_map]
          rfl

/-! ## Comment lines -/

/-- A line of blanks, a hash, and any text. The blanks are those that leave the scanner at the start
of a line. -/
def IsCommentLine (line : Text) : Prop :=
  ∃ blanks comment, (∀ c ∈ blanks, c = ' ' ∨ c = '\t' ∨ c = '\r') ∧ '\n' ∉ comment ∧
    line = blanks ++ '#' :: comment

theorem IsCommentLine.lineFeed_not_mem {line : Text} (h : IsCommentLine line) : '\n' ∉ line := by
  obtain ⟨blanks, comment, hblanks, hcomment, rfl⟩ := h
  rw [List.mem_append, List.mem_cons]
  rintro (hmem | hmem | hmem)
  · exact absurd (hblanks _ hmem) (by decide)
  · exact absurd hmem (by decide)
  · exact hcomment hmem

theorem scan_comment {comment : Text} (h : '\n' ∉ comment) (opens : Nat) (s : Text) :
    scan opens .comment (comment ++ '\n' :: s)
      = (scan opens (.code true) s).map fun found => (comment ++ '\n' :: found.1, found.2) := by
  induction comment with
  | nil => rfl
  | cons c comment ih =>
      rw [List.mem_cons, not_or] at h
      rw [List.cons_append, scan]
      simp only [opensBehind, behind, if_neg (Ne.symm h.1), ih h.2, Option.map_map]
      rfl

/-- **A COMMENT LINE LEAVES THINGS AS THEY STAND** at the start of a line, whatever its text. -/
theorem scan_commentLine {line : Text} (h : IsCommentLine line) (opens : Nat) (s : Text) :
    scan opens (.code true) (line ++ '\n' :: s)
      = (scan opens (.code true) s).map fun found => (line ++ '\n' :: found.1, found.2) := by
  obtain ⟨blanks, comment, hblanks, hcomment, rfl⟩ := h
  induction blanks with
  | nil =>
      have hhash : scan opens (.code true) ('#' :: (comment ++ '\n' :: s))
          = (scan opens .comment (comment ++ '\n' :: s)).map
              fun found => ('#' :: found.1, found.2) := rfl
      rw [List.nil_append, List.cons_append, hhash, scan_comment hcomment, Option.map_map]
      rfl
  | cons c blanks ih =>
      have hblank : scan opens (.code true) (c :: (blanks ++ '#' :: comment ++ '\n' :: s))
          = (scan opens (.code true) (blanks ++ '#' :: comment ++ '\n' :: s)).map
              fun found => (c :: found.1, found.2) := by
        rcases hblanks c List.mem_cons_self with rfl | rfl | rfl <;> rfl
      rw [List.cons_append, List.cons_append, hblank,
        ih fun d hd => hblanks d (List.mem_cons_of_mem _ hd), Option.map_map]
      rfl

/-- The scanner finds the same end of a block with a comment line in it. -/
theorem balanced_commentLine {front back rest line : Text}
    (h : balanced (front ++ '\n' :: (back ++ rest)) = .ok (front ++ '\n' :: back, rest))
    (hquoted : (standing front).isQuoted = false) (hescaped : standing front ≠ .escaped)
    (hline : IsCommentLine line) :
    balanced (front ++ '\n' :: (line ++ '\n' :: (back ++ rest)))
      = .ok (front ++ '\n' :: (line ++ '\n' :: back), rest) := by
  have hbreak : (code false).after (front ++ ['\n']) = code true := by
    rw [Standing.after, List.foldl_append]
    exact behind_lineFeed hquoted hescaped
  have hscan : scan 0 (code false) ((front ++ ['\n']) ++ (back ++ rest))
      = some ((front ++ ['\n']) ++ back, rest) := by
    rw [List.append_assoc, List.append_assoc]
    exact balanced_eq_ok_iff_scan.mp h
  obtain ⟨opens, hback, hall⟩ := exists_scan_behind hscan
  rw [hbreak] at hback hall
  have hlong := hall (line ++ '\n' :: (back ++ rest))
  rw [scan_commentLine hline, hback, List.append_assoc] at hlong
  rw [balanced_eq_ok_iff_scan]
  exact hlong.trans (by simp)

end Text

open Text

namespace Command

/-- A comment line is no command. -/
theorem ofLine?_commentLine {line : Text} (h : IsCommentLine line) : ofLine? line = none := by
  obtain ⟨blanks, comment, hblanks, -, rfl⟩ := h
  have hstart : trimStart (blanks ++ '#' :: comment) = '#' :: comment := by
    rw [trimStart, List.dropWhile_append_of_pos fun c hc => ?_,
      List.dropWhile_cons_of_neg (by decide)]
    rcases hblanks c hc with rfl | rfl | rfl <;> decide
  have hend : ∃ rest, trimEnd ('#' :: comment) = '#' :: rest := by
    rw [trimEnd, List.reverse_cons, List.dropWhile_append]
    split
    · exact ⟨[], rfl⟩
    · exact ⟨_, List.reverse_concat ..⟩
  obtain ⟨rest, hrest⟩ := hend
  rw [ofLine?, trim, hstart, hrest]
  rfl

/-- The commands of a body are the same with a comment line in it. -/
theorem parseBody_commentLine {line : Text} (h : IsCommentLine line) (front back : Text) :
    parseBody (front ++ '\n' :: (line ++ '\n' :: back)) = parseBody (front ++ '\n' :: back) := by
  have hone : List.filterMap ofLine? (line.splitOn '\n') = [] := by
    rw [List.splitOn_eq_singleton h.lineFeed_not_mem,
      List.filterMap_cons_none (ofLine?_commentLine h), List.filterMap_nil]
  rw [parseBody, parseBody, lines, lines, List.splitOn_append_cons_self,
    List.splitOn_append_cons_self, List.splitOn_append_cons_self, List.filterMap_append,
    List.filterMap_append, List.filterMap_append, hone, List.nil_append]

end Command

namespace Item

/-! ## Bodies in a text -/

theorem body_of_balanced {s rest block after : Text} (hbrace : skipSpacing s = '{' :: rest)
    (hblock : balanced rest = .ok (block, after)) :
    body s = .ok (Command.parseBody block, after.drop 1) := by
  rw [body, hbrace, eat, if_pos rfl, eat]
  dsimp only
  rw [hblock]

end Item

open Item

/-- Reading a text comes to a task with a body: the text before the body, up to and with its opening
brace, the body, and the text behind it, from its closing brace on. -/
inductive HasBody (source before block after : Text) : Prop
  | intro {s t rest behind next : Text} {doc : List Text} {task : Task}
      {head : String × List String × List String}
      (hcomes : Comes source s) (hlead : leadingComments [] s = (doc, t))
      (htask : declaration doc t = .ok (.task task, next))
      (hkeyword : eatKeyword "task".toList t = some rest)
      (hhead : taskHead rest = .ok (head, behind))
      (hbrace : skipSpacing behind = '{' :: (block ++ after))
      (hblock : balanced (block ++ after) = .ok (block, after))
      (hsource : source = before ++ (block ++ after))

namespace HasBody

variable {source before front back after line : Text}

/-- What a task reads in its body does not depend on comment lines in it. -/
theorem body_commentLine {behind : Text}
    (hbrace : skipSpacing behind = '{' :: (front ++ '\n' :: back ++ after))
    (hblock : balanced (front ++ '\n' :: back ++ after) = .ok (front ++ '\n' :: back, after))
    (hquoted : (standing front).isQuoted = false) (hescaped : standing front ≠ .escaped)
    (hline : IsCommentLine line) :
    ∃ w, behind = w ++ '\n' :: (back ++ after) ∧ '{' :: front <:+ w ∧
      body (w ++ '\n' :: (line ++ '\n' :: (back ++ after))) = body behind := by
  rw [List.append_assoc, List.cons_append] at hbrace hblock
  have hcut : skipSpacing behind = '{' :: front ++ '\n' :: (back ++ after) :=
    hbrace.trans (List.cons_append ..).symm
  obtain ⟨w, rfl, hw⟩ := exists_of_dropWhile hcut
  refine ⟨w, rfl, hw, ?_⟩
  have hbrace' : skipSpacing (w ++ '\n' :: (line ++ '\n' :: (back ++ after)))
      = '{' :: (front ++ '\n' :: (line ++ '\n' :: (back ++ after))) :=
    dropWhile_exchange hcut (List.cons_ne_nil _ _) _
  rw [body_of_balanced hbrace hblock,
    body_of_balanced hbrace' (balanced_commentLine hblock hquoted hescaped hline),
    Command.parseBody_commentLine hline]

/-- The items of a text do not depend on comment lines in a body, but for their places. -/
theorem items_commentLine (hbody : HasBody source before (front ++ '\n' :: back) after)
    (hquoted : (standing front).isQuoted = false) (hescaped : standing front ≠ .escaped)
    (hline : IsCommentLine line) :
    ∃ found found' rest, found'.map placeless = found.map placeless ∧
      items source = (found ++ (items rest).1, (items rest).2) ∧
      items (before ++ (front ++ '\n' :: (line ++ '\n' :: (back ++ after))))
        = (found' ++ (items rest).1, (items rest).2) := by
  obtain ⟨hcomes, hlead, htask, hkeyword, hhead, hbrace, hblock, rfl⟩ := hbody
  rename_i s t rest behind next doc task head
  obtain ⟨w, rfl, hw, hbody⟩ := body_commentLine hbrace hblock hquoted hescaped hline
  generalize hn' : '\n' :: (line ++ '\n' :: (back ++ after)) = n' at *
  generalize hn : '\n' :: (back ++ after) = n at *
  have hblank : BlankLed n := hn ▸ blankLed_cons rfl _
  have hblank' : BlankLed n' := hn' ▸ blankLed_cons rfl _
  have hwSolid : Solid w := ⟨'{', hw.subset List.mem_cons_self, rfl⟩
  -- all that was read up to the line break ends with the text behind it
  obtain ⟨x, rfl, hx⟩ := exists_of_suffix (taskHead_suffix hhead)
  obtain ⟨y, rfl, hy⟩ := exists_of_suffix (suffix_of_eatKeyword hkeyword)
  obtain ⟨z, rfl, hz⟩ := exists_of_suffix (v := y) (n := n) (r := s) (by
    have hsuffix := leadingComments_suffix [] s
    rwa [hlead] at hsuffix)
  have hxSolid := hwSolid.mono hx
  have hySolid := hxSolid.mono hy
  have hzSolid := hySolid.mono hz
  have hkeywordHere : eatKeyword "task".toList y = some x := by
    rw [eatKeyword_blankLed "task".toList rfl hblank] at hkeyword
    obtain ⟨x', hx', heq⟩ := Option.map_eq_some_iff.mp hkeyword
    rwa [List.append_cancel_right heq] at hx'
  have htask' : declaration doc (y ++ n') = .ok (.task task, next) := by
    obtain ⟨hassign, rest, hkeyword', hdeclared⟩ := declaration_eq_task_iff.mp htask
    obtain rfl := Option.some.inj (hkeyword.symm.trans hkeyword')
    obtain ⟨_, _, _, _, commands, hhead', hread, rfl⟩ := taskDeclaration_eq_ok_iff.mp hdeclared
    obtain ⟨rfl, rfl⟩ := Prod.mk.inj (Except.ok.inj (hhead.symm.trans hhead'))
    have hdrop := dropWhile_keyword rfl hkeywordHere hxSolid.ne_nil n
    refine declaration_eq_task_iff.mpr
      ⟨assignment?_exchange_of_none hblank hassign hdrop hxSolid hblank', x ++ n', ?_, ?_⟩
    · rw [eatKeyword_blankLed "task".toList rfl hblank', hkeywordHere]
      rfl
    · exact taskDeclaration_eq_ok_iff.mpr ⟨_, _, _, w ++ n', commands,
        taskHead_exchange hblank hhead hwSolid.ne_nil hblank', hbody.trans hread, rfl⟩
  have hhere : items (z ++ n') = items (z ++ n) := by
    obtain ⟨c, more, rfl⟩ := List.exists_cons_of_ne_nil hySolid.ne_nil
    rw [items_eq, items_eq, hlead, leadingComments_exchange hlead hySolid n', List.cons_append,
      List.cons_append, itemsFrom, itemsFrom, ← List.cons_append, ← List.cons_append, htask, htask']
  have hsource : before ++ (front ++ '\n' :: back ++ after) = (before ++ front) ++ n := by
    simp [← hn]
  rw [hsource] at hcomes ⊢
  obtain ⟨found, found', hfound, hitems, hitems'⟩ := hcomes.exchange hblank hzSolid hblank'
  rw [hhere] at hitems'
  rw [← List.append_assoc]
  exact ⟨found, found', z ++ n, hfound, hitems, hitems'⟩

end HasBody

namespace TaskFile

/-- **COMMENT LINES IN BODIES DO NOT COUNT**: behind a line break in the body of a task, a line of
blanks, a hash and any text can be put in, and the file that is read is the same, if no quoted
span is open at the line break and no backslash escapes it. -/
theorem comment_lines_do_not_count {source : String} {file : TaskFile}
    (h : parse source = .ok file) {before front back after : Text}
    (hbody : HasBody source.toList before (front ++ '\n' :: back) after)
    (hquoted : (standing front).isQuoted = false) (hescaped : standing front ≠ .escaped)
    {line : Text} (hline : IsCommentLine line) :
    parse (String.ofList (before ++ (front ++ '\n' :: (line ++ '\n' :: (back ++ after)))))
      = .ok file := by
  rw [parse_eq_ok_iff] at h
  rw [parse_eq_ok_iff, String.toList_ofList]
  obtain ⟨found, found', rest, hfound, hitems, hitems'⟩ :=
    hbody.items_commentLine hquoted hescaped hline
  obtain ⟨_, hread, -⟩ := read_eq_ok_iff.mp h
  obtain ⟨-, hnone⟩ := Prod.mk.inj (hitems.symm.trans hread)
  rw [hnone] at hitems hitems'
  refine read_congr hitems hitems' ?_ h
  rw [List.map_append, List.map_append, hfound]

/-- A task with a quoted span in its body. -/
def quoting : String := "task say \x7b\n  echo 'a b'\n\x7d\n"

/-- The file of that task. -/
def saying : TaskFile :=
  { tasks := [{ name := "say", commands := [⟨[.text "echo 'a b'"], false, false⟩] }] }

theorem parse_quoting : parse quoting = .ok saying := by
  rewrite [parse, read, items_cons (by cbv) (by decide) (by cbv) (by cbv), items_of_blank (by cbv)]
  rfl

theorem quoting_hasBody : HasBody quoting.toList "task say \x7b".toList
    ("\n  echo 'a b'".toList ++ ['\n']) "\x7d\n".toList :=
  .intro (.here _) (leadingComments_of_ne (by cbv) (by decide)) (by cbv) (by cbv) (by cbv) (by cbv)
    (by cbv) (by cbv)

/-- The task keeps its command when a comment with a quote and a brace comes behind it. -/
theorem quoting_keeps_commands :
    parse "task say \x7b\n  echo 'a b'\n  # don't \x7d\n\x7d\n" = .ok saying := by
  have hparse := comment_lines_do_not_count parse_quoting quoting_hasBody rfl (by decide)
    ⟨[' ', ' '], " don't \x7d".toList, by simp, by simp, rfl⟩
  have htext : "task say \x7b".toList ++ ("\n  echo 'a b'".toList ++ '\n' ::
      ([' ', ' '] ++ '#' :: " don't \x7d".toList ++ '\n' :: ([] ++ "\x7d\n".toList)))
        = "task say \x7b\n  echo 'a b'\n  # don't \x7d\n\x7d\n".toList := by
    cbv
  rwa [htext, String.ofList_toList] at hparse

/-- A task whose last command ends with a backslash. -/
def continuing : String := "task t \x7b\n  echo a \\\n\x7d\n"

theorem parse_continuing : parse continuing
    = .ok { tasks := [{ name := "t", commands := [⟨[.text "echo a \\"], false, false⟩] }] } := by
  rewrite [parse, read, items_cons (by cbv) (by decide) (by cbv) (by cbv), items_of_blank (by cbv)]
  rfl

theorem continuing_hasBody : HasBody continuing.toList "task t \x7b".toList
    ("\n  echo a \\".toList ++ ['\n']) "\x7d\n".toList :=
  .intro (.here _) (leadingComments_of_ne (by cbv) (by decide)) (by cbv) (by cbv) (by cbv) (by cbv)
    (by cbv) (by cbv)

/-- **BEHIND A BACKSLASH COMMENT LINES MAY COUNT**: no quoted span is open at the line break, and
the comment behind it makes the text unreadable, since the quote in it is taken for one. -/
theorem comment_lines_may_count :
    ¬ ∀ (source : String) (file : TaskFile) (before front back after line : Text),
      parse source = .ok file → HasBody source.toList before (front ++ '\n' :: back) after →
      (standing front).isQuoted = false → IsCommentLine line →
      parse (String.ofList (before ++ (front ++ '\n' :: (line ++ '\n' :: (back ++ after)))))
        = .ok file := by
  intro hall
  have hparse := hall _ _ _ _ _ _ _ parse_continuing continuing_hasBody (by cbv)
    ⟨[' ', ' '], " don't".toList, by simp, by simp, rfl⟩
  have htext : "task t \x7b".toList ++ ("\n  echo a \\".toList ++ '\n' ::
      ([' ', ' '] ++ '#' :: " don't".toList ++ '\n' :: ([] ++ "\x7d\n".toList)))
        = "task t \x7b\n  echo a \\\n  # don't\n\x7d\n".toList := by
    cbv
  rw [htext, parse_eq_ok_iff, String.toList_ofList] at hparse
  obtain ⟨found, hitems, -⟩ := read_eq_ok_iff.mp hparse
  have hlead : leadingComments [] "task t \x7b\n  echo a \\\n  # don't\n\x7d\n".toList
      = ([], 't' :: "ask t \x7b\n  echo a \\\n  # don't\n\x7d\n".toList) :=
    leadingComments_of_ne (by cbv) (by decide)
  have herror : declaration [] ('t' :: "ask t \x7b\n  echo a \\\n  # don't\n\x7d\n".toList)
      = .error (.unterminatedQuote '\'' "'t\n\x7d\n".toList) := by
    cbv
  rw [items_eq, hlead, itemsFrom, herror] at hitems
  cases hitems

end TaskFile

end TaskRunner
