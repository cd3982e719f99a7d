import Mathlib.Data.List.DropRight
import TaskRunner.Proofs.CommandSpelling
import TaskRunner.Proofs.Declarations
import TaskRunner.Proofs.LineStarts

/-! # Descriptions of tasks

    The comment lines above a task describe it.  A comment line that has been read leaves its
    line end behind, and a blank line adds a second one, which detaches all comment lines
    above (`leadingComments_lines`).  So what is left above a task are the comment lines below
    the last blank line (`describing`), whatever is read when the lines begin: reading knows
    nothing of a comment that ends the line of an item.

    Hence **`descriptions_are_attached`**: where such lines and a task come behind a text that
    ends with the line of an item, the task has their text for its description; and so it has
    in every file, at any depth, where such lines start behind an item or behind the brace
    that opens the block, and there it is declared in that block (`Nesting.exists_at_task`). -/

namespace TaskRunner

open Text Item

/-! ## Lines above a task -/

/-- A line that may stand above a task: blank, or a comment behind blanks. -/
def IsLineAbove (line : Text) : Prop :=
  '\n' ∉ line ∧ (skipSpacing line = [] ∨ (skipSpacing line).head? = some '#')

/-- What the lines above a task say: the comments below the last blank line, without their marks and
the blanks around. -/
def describing (lines : List Text) : List Text :=
  (lines.rtakeWhile fun line => !(skipSpacing line).isEmpty).map fun line =>
    commentText (skipSpacing line)

/-- Lines as they are written. -/
def writtenLines (lines : List Text) : Text := lines.flatMap (· ++ ['\n'])

/-- What is left of comments with one more line below. -/
def addLine (doc : List Text) (line : Text) : List Text :=
  if skipSpacing line = [] then [] else doc ++ [commentText (skipSpacing line)]

/-- One more line above a task either goes on with its description or starts again. -/
theorem describing_concat (lines : List Text) (line : Text) :
    describing (lines ++ [line]) = addLine (describing lines) line := by
  rw [addLine, describing]
  split
  · rename_i hblank
    rw [List.rtakeWhile_concat_neg _ _ _ (by rw [hblank]; decide), List.map_nil]
  · rename_i hcomment
    rw [List.rtakeWhile_concat_pos _ _ _ (by simpa using hcomment), List.map_append]
    rfl

/-- Reading the lines one by one gives the lines that describe. -/
theorem foldl_addLine (lines : List Text) : lines.foldl addLine [] = describing lines := by
  induction lines using List.reverseRecOn with
  | nil => rfl
  | append_singleton lines line ih =>
      rw [List.foldl_append, List.foldl_cons, List.foldl_nil, ih, describing_concat]

/-- An empty line is counted. -/
theorem leadingLineFeeds_feed (s : Text) :
    leadingLineFeeds ('\n' :: s) = leadingLineFeeds s + 1 := by
  rw [leadingLineFeeds, List.takeWhile_cons_of_pos rfl, List.count_cons_self, leadingLineFeeds]

/-- Within a line there is none to count. -/
theorem leadingLineFeeds_of_not_mem {s : Text} (h : '\n' ∉ s) : leadingLineFeeds s = 0 :=
  List.count_eq_zero.mpr fun hmem => h ((List.takeWhile_prefix _).subset hmem)

/-- What is left of a comment line when it has been read is blank, and what was read says the
same. -/
theorem splitLine_comment {s : Text} (hline : '\n' ∉ s) (hs : s.head? = some '#') :
    (∀ c ∈ (splitLine s).2, c = '\r') ∧ commentText (splitLine s).1 = commentText s := by
  by_cases hreturn : s.getLast? = some '\r'
  · obtain ⟨t, rfl⟩ := List.getLast?_eq_some_iff.mp hreturn
    have hall : ∀ c ∈ t ++ ['\r'], (c != '\n') = true := by
      intro c hc
      rw [bne_iff_ne]
      rintro rfl
      exact hline hc
    rw [splitLine, List.takeWhile_eq_self_iff.mpr hall, List.dropWhile_eq_nil_iff.mpr hall,
      if_pos hreturn, List.dropLast_concat]
    refine ⟨fun c hc => List.mem_singleton.mp hc, ?_⟩
    cases t with
    | nil => cases hs
    | cons d t =>
        show trim t = trim (t ++ ['\r'])
        rw [trim_concat (by decide)]
  · rw [splitLine_of_line hline hreturn]
    exact ⟨fun c hc => absurd hc List.not_mem_nil, rfl⟩

/-- What stands behind a line end when it comes next detaches nothing. -/
theorem attached_feed {s : Text} (h : leadingLineFeeds s = 0) (doc : List Text) :
    attached doc ('\n' :: s) = doc := by
  rw [attached, leadingLineFeeds_feed, h, if_neg (by decide)]

/-- An empty line takes away the comments above it. -/
theorem leadingComments_blankAbove {line : Text} (h : skipSpacing line = []) (doc : List Text)
    (more : Text) :
    leadingComments doc ('\n' :: (line ++ '\n' :: more)) = leadingComments [] ('\n' :: more) := by
  refine leadingComments_congr (skipSpacing_append_of_blank h _) ?_
  have htwo : 1 < leadingLineFeeds ('\n' :: (line ++ '\n' :: more)) := by
    rw [leadingLineFeeds_feed, leadingLineFeeds_append_of_blank h, leadingLineFeeds_feed]
    omega
  rw [attached, if_pos htwo, attached_nil]

/-- A comment line goes on with them. -/
theorem leadingComments_commentAbove {line : Text} (hfeed : '\n' ∉ line)
    (h : (skipSpacing line).head? = some '#') (doc : List Text) (more : Text) :
    leadingComments doc ('\n' :: (line ++ '\n' :: more))
      = leadingComments (doc ++ [commentText (skipSpacing line)]) ('\n' :: more) := by
  obtain ⟨comment, hcomment⟩ := List.head?_eq_some_iff.mp h
  have hne : skipSpacing line ≠ [] := hcomment ▸ List.cons_ne_nil _ _
  have hstart : skipSpacing ('\n' :: (line ++ '\n' :: more))
      = '#' :: (comment ++ '\n' :: more) := by
    have hskip := skipSpacing_append hne ('\n' :: more)
    rw [hcomment] at hskip
    exact hskip
  have hnone : leadingLineFeeds (line ++ '\n' :: more) = 0 := by
    rw [leadingLineFeeds_append hne, leadingLineFeeds_of_not_mem hfeed]
  have hcommentFeed : '\n' ∉ skipSpacing line := fun hmem =>
    hfeed ((List.dropWhile_suffix isSpacing).subset hmem)
  obtain ⟨hreturns, htext⟩ := splitLine_comment hcommentFeed h
  rw [leadingComments_of_comment hstart, attached_feed hnone, ← List.cons_append, ← hcomment,
    splitLine_feed, htext]
  -- only a carriage return may be left of the line
  have hblank : skipSpacing (splitLine (skipSpacing line)).2 = [] :=
    List.dropWhile_eq_nil_iff.mpr fun c hc => by rw [hreturns c hc]; rfl
  have hcount : (splitLine (skipSpacing line)).2.count '\n' = 0 :=
    List.count_eq_zero.mpr fun hmem => absurd (hreturns _ hmem) (by decide)
  refine leadingComments_congr (skipSpacing_append_of_blank hblank _) ?_
  rw [attached, attached, leadingLineFeeds_append_of_blank hblank, hcount, Nat.zero_add]

/-- **LINES ABOVE** something that is no comment are read one by one. -/
theorem leadingComments_lines {lines : List Text} (h : ∀ line ∈ lines, IsLineAbove line)
    (doc : List Text) {tail : Text} (htail : skipSpacing tail = tail)
    (hplain : tail.head? ≠ some '#') :
    leadingComments doc ('\n' :: (writtenLines lines ++ tail))
      = (lines.foldl addLine doc, tail) := by
  induction lines generalizing doc with
  | nil =>
      have hskip : skipSpacing ('\n' :: tail) = tail := htail
      have hnone : leadingLineFeeds tail = 0 := by
        have hall := List.takeWhile_append_dropWhile (p := isSpacing) (l := tail)
        rw [← skipSpacing, htail, List.append_left_eq_self] at hall
        rw [leadingLineFeeds, hall]
        rfl
      rw [show writtenLines [] ++ tail = tail from rfl, leadingComments_of_head (by rwa [hskip]),
        hskip, attached_feed hnone]
      rfl
  | cons line lines ih =>
      obtain ⟨⟨hfeed, hline⟩, hlines⟩ := List.forall_mem_cons.mp h
      have hwritten : writtenLines (line :: lines) ++ tail
          = line ++ '\n' :: (writtenLines lines ++ tail) := by
        simp [writtenLines]
      rw [hwritten, List.foldl_cons, addLine]
      rcases hline with hblank | hcomment
      · rw [leadingComments_blankAbove hblank, if_pos hblank, ih hlines]
      · rw [leadingComments_commentAbove hfeed hcomment, ih hlines, if_neg]
        intro hnil
        rw [hnil] at hcomment
        cases hcomment

/-! ## Texts with one task -/

namespace Nesting

/-- Where there are only tasks, the last item was one. -/
theorem exists_task_of_add {n : Nesting} {item : Item} {tasks : List Task}
    (h : n.add item = .ok ⟨{ tasks }, []⟩) :
    ∃ front task, item = .task task ∧ tasks = front ++ [task] ∧ n = ⟨{ tasks := front }, []⟩ := by
  obtain ⟨⟨before, namespaces, vars, own⟩, blocks⟩ := n
  generalize hm : (⟨{ tasks }, []⟩ : Nesting) = m at h
  have hadds := adds_of_add h
  cases hadds with
  | «variable» v => cases blocks <;> simp [addVariable] at hm
  | task declared =>
      cases blocks with
      | nil =>
          simp only [addTask, Nesting.mk.injEq, TaskFile.mk.injEq] at hm
          obtain ⟨⟨rfl, rfl, rfl, rfl⟩, -⟩ := hm
          exact ⟨before, declared, rfl, rfl, rfl⟩
      | cons block outer => simp [addTask] at hm
  | opening hform => simp at hm
  | @closing place block outer hblocks => cases outer <;> simp [addNamespace] at hm
  | fileNamespace hblocks hform => simp at hm

/-- A file of tasks comes out of these tasks only. -/
theorem eq_map_task {found : List Item} {tasks : List Task}
    (h : empty.addAll found = .ok ⟨{ tasks }, []⟩) : found = tasks.map .task := by
  induction found using List.reverseRecOn generalizing tasks with
  | nil =>
      cases h
      rfl
  | append_singleton found item ih =>
      obtain ⟨between, hfound, hitem⟩ := exists_addAll_of_append h
      have hadd : between.add item = .ok ⟨{ tasks }, []⟩ := by
        rw [addAll] at hitem
        cases hadd : between.add item with
        | error e =>
            rw [hadd] at hitem
            cases hitem
        | ok n =>
            rw [hadd] at hitem
            exact hitem
      obtain ⟨front, task, rfl, rfl, rfl⟩ := exists_task_of_add hadd
      rw [ih hfound, List.map_append, List.map_singleton]

end Nesting

/-- A text that is read as one task, and begins with its keyword, is the declaration of this task
and what may stand behind it. -/
theorem exists_declaration {s : Text} {task : Task}
    (hread : TaskFile.read s = .ok { tasks := [task] })
    (hkeyword : (eatKeyword "task".toList s).isSome = true) :
    ∃ after next, declaration [] s = .ok (.task task, after) ∧ endOfItem after = .ok next ∧
      items next = ([], none) := by
  obtain ⟨rest, hrest⟩ := Option.isSome_iff_exists.mp hkeyword
  obtain ⟨found, hfound, hadd⟩ := TaskFile.read_eq_ok_iff.mp hread
  rw [Nesting.eq_map_task hadd] at hfound
  have hlead : leadingComments [] s = ([], s) := by
    rw [eat_of_eatKeyword hrest]
    exact leadingComments_of_ne rfl (by decide)
  have hreads := reads_items s
  rw [hfound] at hreads
  cases hreads with
  | item hlead' hitem hend hlater =>
      obtain ⟨rfl, rfl⟩ := Prod.mk.inj (hlead.symm.trans hlead')
      cases hlater with
      | atEnd hnone => exact ⟨_, _, hitem, hend, by rw [items_eq, hnone]; rfl⟩

/-- The comments above a task do not matter for anything but its description. -/
theorem declaration_described {doc : List Text} {s next : Text} {task : Task}
    (h : declaration [] s = .ok (.task task, next)) :
    declaration doc s = .ok (.task { task with description := description? doc }, next) := by
  obtain ⟨hassign, rest, hkeyword, htask⟩ := declaration_eq_task_iff.mp h
  obtain ⟨_, _, _, _, _, hhead, hbody, rfl⟩ := taskDeclaration_eq_ok_iff.mp htask
  exact declaration_eq_task_iff.mpr ⟨hassign, rest, hkeyword,
    taskDeclaration_eq_ok_iff.mpr ⟨_, _, _, _, _, hhead, hbody, rfl⟩⟩

/-- If a text is read to its end, an item that stands at a place is the first one from there. -/
theorem exists_later {s t after : Text} {doc : List Text} {item : Item}
    (hlead : leadingComments [] s = (doc, t)) (hitem : declaration doc t = .ok (item, after))
    (hnone : (items s).2 = none) : ∃ later, (items s).1 = item :: later := by
  cases hend : item.behind after with
  | error e =>
      obtain ⟨c, rest, rfl, -⟩ := declaration_suffix_tail hitem
      rw [items_eq, hlead, itemsFrom] at hnone
      simp only [hitem, hend] at hnone
      cases hnone
  | ok next => exact ⟨_, by rw [items_of_declaration hlead hitem hend]⟩

/-! ## Whole texts -/

/-- Reading comes from lines above a task to the task with what they say. -/
theorem leadingComments_written {lines : List Text} (h : ∀ line ∈ lines, IsLineAbove line)
    {t next : Text} {task : Task} (htask : declaration [] t = .ok (.task task, next)) :
    leadingComments [] (writtenLines lines ++ t) = (describing lines, t) := by
  obtain ⟨-, rest, hkeyword, -⟩ := declaration_eq_task_iff.mp htask
  have ht := eat_of_eatKeyword hkeyword
  have hskip : skipSpacing t = t := by
    rw [ht]
    rfl
  have hplain : t.head? ≠ some '#' := by
    rw [ht]
    exact fun hsharp => absurd hsharp (by decide : some 't' ≠ some '#')
  have hfeed : leadingComments [] (writtenLines lines ++ t)
      = leadingComments [] ('\n' :: (writtenLines lines ++ t)) :=
    leadingComments_congr rfl (by rw [attached_nil, attached_nil])
  rw [hfeed, leadingComments_lines h [] hskip hplain, foldl_addLine]

namespace TaskFile

/-- Lines above a task and the task can be put behind a text that ends with the line of an item. -/
theorem read_described {lines : List Text} (h : ∀ line ∈ lines, IsLineAbove line)
    {source declared : Text} {file : TaskFile} {task : Task} (hsource : read source = .ok file)
    (hstarts : LineStarts source []) (hdeclared : read declared = .ok { tasks := [task] })
    (hkeyword : (eatKeyword "task".toList declared).isSome = true) :
    read (source ++ (writtenLines lines ++ declared))
      = .ok { file with
          tasks := file.tasks ++ [{ task with description := description? (describing lines) }] } := by
  obtain ⟨after, next, htask, hend, hnone⟩ := exists_declaration hdeclared hkeyword
  have hlead := leadingComments_written h htask
  -- the lines open no body of a task that is left open above them
  have hmore : (skipSpacing (writtenLines lines ++ declared)).head? ≠ some '{' := by
    intro hbrace
    rw [leadingComments_of_head (by rw [hbrace]; decide)] at hlead
    rw [(Prod.mk.inj hlead).2] at hbrace
    obtain ⟨rest, hrest⟩ := Option.isSome_iff_exists.mp hkeyword
    rw [eat_of_eatKeyword hrest] at hbrace
    cases hbrace
  obtain ⟨found, hadd, hitems⟩ := hstarts.exists_items hsource hmore
  rw [items_of_declaration hlead (declaration_described htask) hend, hnone] at hitems
  refine read_eq_ok_iff.mpr ⟨_, hitems, ?_⟩
  rw [Nesting.addAll_append hadd]
  rfl

/-- Where lines above a task start in a file, the task is declared in the block that is open there,
behind the tasks that the block has by then. -/
theorem exists_described {lines : List Text} (h : ∀ line ∈ lines, IsLineAbove line)
    {source back next : Text} {file : TaskFile} {task : Task} (hfile : read source = .ok file)
    (hstarts : LineStarts source (writtenLines lines ++ back))
    (htask : declaration [] back = .ok (.task task, next)) :
    let described : Task := { task with description := description? (describing lines) }
    file.HoldsTask described ∧
    ∃ found n ns,
      (items source).1 = found ++ (items (writtenLines lines ++ back)).1 ∧
      Nesting.empty.addAll found = .ok n ∧ file.topLevel.at? n.path = some ns ∧
      ns.name = n.current.name ∧ n.current.tasks ++ [described] <+: ns.tasks := by
  intro described
  obtain ⟨all, hall, hadd⟩ := read_eq_ok_iff.mp hfile
  obtain ⟨s, hcomes, hlead⟩ := hstarts.exists_comes
  have hsame : items s = items (writtenLines lines ++ back) := by
    rw [items_eq, items_eq, hlead]
  rw [leadingComments_written h htask] at hlead
  obtain ⟨found, hfound⟩ := hcomes.exists_append
  rw [hall] at hfound
  obtain ⟨rfl, hnone⟩ := Prod.mk.inj hfound
  obtain ⟨later, hlater⟩ := exists_later hlead (declaration_described htask) hnone.symm
  obtain ⟨n, hbetween, hadd'⟩ := Nesting.exists_addAll_of_append hadd
  rw [hlater] at hadd hadd'
  obtain ⟨ns, hat, hname, htasks⟩ := Nesting.exists_at_task hadd'
  refine ⟨Nesting.holdsTask_of_addAll hadd (List.mem_append_right _ List.mem_cons_self), found, n,
    ns, ?_, hbetween, hat, hname, htasks⟩
  rw [hall, hsame]

/-- **DESCRIPTIONS ARE ATTACHED**: the text of the comments below the last blank line describes the
task below them, and a task below a blank line, or with no line above, has no description.  A
text that ends with the line of an item can be followed by such lines and a task; and
wherever such lines start in a file, behind an item or the brace of a block, the task below
them is declared in that file with this description, in the block that is open there and
behind the tasks that are declared there above it. -/
theorem descriptions_are_attached {lines : List Text} (h : ∀ line ∈ lines, IsLineAbove line) :
    let above := String.ofList (writtenLines lines)
    let description : Option String :=
      if describing lines = [] then none
      else some (String.ofList (['\n'].intercalate (describing lines)))
    (∀ (source declared : String) (file : TaskFile) (task : Task),
      parse source = .ok file → LineStarts source.toList [] →
      parse declared = .ok { tasks := [task] } →
      (eatKeyword "task".toList declared.toList).isSome = true →
      parse (source ++ above ++ declared)
        = .ok { file with tasks := file.tasks ++ [{ task with description }] }) ∧
    ∀ (front back : String) (file : TaskFile) (task : Task) (next : Text),
      parse (front ++ above ++ back) = .ok file →
      LineStarts (front ++ above ++ back).toList (above ++ back).toList →
      declaration [] back.toList = .ok (.task task, next) →
      file.HoldsTask { task with description } ∧
      ∃ found n ns,
        (items (front ++ above ++ back).toList).1 = found ++ (items (above ++ back).toList).1 ∧
        Nesting.empty.addAll found = .ok n ∧ file.topLevel.at? n.path = some ns ∧
        ns.name = n.current.name ∧ n.current.tasks ++ [{ task with description }] <+: ns.tasks := by
  intro above description
  have hdescription : description = description? (describing lines) := by
    simp only [description, description?, List.isEmpty_iff]
  have habove : above.toList = writtenLines lines := String.toList_ofList ..
  rw [hdescription]
  constructor
  · intro source declared file task hsource hstarts hdeclared hkeyword
    rw [parse_eq_ok_iff] at hsource hdeclared ⊢
    rw [String.toList_append, String.toList_append, habove, List.append_assoc]
    exact read_described h hsource hstarts hdeclared hkeyword
  · intro front back file task next hfile hstarts htask
    have hbehind : (above ++ back).toList = writtenLines lines ++ back.toList := by
      rw [String.toList_append, habove]
    rw [hbehind] at hstarts ⊢
    exact exists_described h (parse_eq_ok_iff.mp hfile) hstarts htask

/-- A comment, a blank line, and two more comments. -/
def remarks : List Text := ["# Old.", " \t", "  # Builds all. ", "#twice\r"].map String.toList

/-- The task below them. -/
def built : Task := { name := "build", description := some "Builds all.\ntwice" }

/-- Each of the remarks is a comment, or blank. -/
theorem isLineAbove_remarks : ∀ line ∈ remarks, IsLineAbove line := by
  unfold IsLineAbove
  decide

/-- The text above the remarks is a variable with a comment of its own. -/
theorem parse_noted : parse "mode = \"fast\" # note\n"
    = .ok { vars := [⟨"mode", .literal "fast"⟩] } := by
  rewrite [parse, read, items_cons (by cbv) (by decide) (by cbv) (by cbv), items_of_blank (by cbv)]
  rfl

/-- Behind it a line starts. -/
theorem noted_starts_line : LineStarts "mode = \"fast\" # note\n".toList [] := by
  have hlead : leadingComments [] "mode = \"fast\" # note\n".toList
      = ([], 'm' :: "ode = \"fast\" # note\n".toList) := leadingComments_of_ne (by cbv) (by decide)
  have hmode : declaration [] ('m' :: "ode = \"fast\" # note\n".toList)
      = .ok (.variable ⟨"mode", .literal "fast"⟩, " # note".toList ++ '\n' :: []) := by
    cbv
  exact .behindItem (.here _) hlead hmode (by decide) (by cbv)

/-- The task alone has no description. -/
theorem parse_build : parse "task build" = .ok { tasks := [{ name := "build" }] } := by
  rewrite [parse, read, items_cons (by cbv) (by decide) (by cbv) (by cbv), items_of_blank (by cbv)]
  rfl

/-- Behind a variable and its note, and behind the brace of a namespace, the task has the same
description. -/
theorem remarks_are_attached :
    let above := String.ofList (writtenLines remarks)
    let block := "namespace ci \x7b\n" ++ above ++ "task build\n\x7d"
    parse ("mode = \"fast\" # note\n" ++ above ++ "task build")
        = .ok { vars := [⟨"mode", .literal "fast"⟩], tasks := [built] } ∧
      parse block = .ok { namespaces := [⟨"ci", [built], [], []⟩] } ∧
      TaskFile.HoldsTask { namespaces := [⟨"ci", [built], [], []⟩] } built ∧
      ∃ found n ns, (items block.toList).1 = found ++ (items (above ++ "task build\n\x7d").toList).1 ∧
        Nesting.empty.addAll found = .ok n ∧
        (TaskFile.topLevel { namespaces := [⟨"ci", [built], [], []⟩] }).at? n.path = some ns ∧
        ns.name = n.current.name ∧ n.current.tasks ++ [built] <+: ns.tasks := by
  intro above block
  have hdescribing : describing remarks = ["Builds all.".toList, "twice".toList] := by cbv
  obtain ⟨htop, hinside⟩ := descriptions_are_attached isLineAbove_remarks
  rw [hdescribing] at htop hinside
  have htext : block.toList
      = "namespace ci \x7b".toList
        ++ '\n' :: (writtenLines remarks ++ "task build\n\x7d".toList) := by
    cbv
  have hlead : leadingComments [] block.toList = ([], block.toList) := by
    rw [htext]
    exact leadingComments_of_ne rfl (by decide)
  obtain ⟨start, brace, hopening⟩ : ∃ start brace, declaration [] block.toList
      = .ok (.opening "ci" start brace,
          [] ++ '\n' :: (writtenLines remarks ++ "task build\n\x7d".toList)) :=
    ⟨block.toList, _, by cbv⟩
  have htask : declaration [] "task build\n\x7d".toList
      = .ok (.task { name := "build" }, "\n\x7d".toList) := by
    cbv
  have hblock : parse block = .ok { namespaces := [⟨"ci", [built], [], []⟩] } := by
    have hclosing : items ['}'] = ([.closing ['}']], none) := by
      rw [items_cons rfl (by decide) rfl rfl, items_of_blank rfl]
    have hend : (Item.task built).behind "\n\x7d".toList = .ok ['}'] := by cbv
    have hbuilt : declaration (describing remarks) "task build\n\x7d".toList
        = .ok (.task built, "\n\x7d".toList) := by
      rw [declaration_described htask, hdescribing]
      cbv
    have hitems := items_of_declaration hlead hopening rfl
    rw [List.nil_append, items_blank rfl, items_of_declaration
      (leadingComments_written isLineAbove_remarks htask) hbuilt hend, hclosing] at hitems
    exact parse_eq_ok_iff.mpr (read_eq_ok_iff.mpr ⟨_, hitems, rfl⟩)
  have hstarts : LineStarts block.toList (above ++ "task build\n\x7d").toList := by
    have habove : (above ++ "task build\n\x7d").toList
        = writtenLines remarks ++ "task build\n\x7d".toList := by
      cbv
    rw [habove]
    exact .behindBrace (.here _) hlead hopening (by decide) rfl
  exact ⟨htop _ _ _ _ parse_noted noted_starts_line parse_build (by cbv), hblock,
    hinside _ _ _ _ _ hblock hstarts htask⟩

end TaskFile

end TaskRunner
