import TaskRunner.Proofs.CommandSpelling
import TaskRunner.Proofs.ItemExchange
import TaskRunner.Proofs.MergedNames
import TaskRunner.Proofs.ReadingRuns

/-! # Files that are read are well formed

    Names, arguments and dependencies are cut from the text by the characters that they may
    hold, so what is cut off holds no other ones.  Being well formed is said for each thing
    that a file declares, from the elements of a command (`Element.WellFormed`) up to
    namespaces inside of namespaces (**`Namespace.WellFormed`**).

    Each item that a declaration gives is well formed (`declaration_wellFormed`), and to put
    it where it belongs leaves a nesting well formed (`Nesting.WellFormed.add`): a block that
    closes was well formed when it was still open, and the name of the file is kept away
    from namespace blocks on both sides, whichever of the two comes first
    (`Nesting.OneForm`).  Hence **`TaskFile.wellFormed_of_parse`**. -/

namespace TaskRunner

open Text

namespace Text

/-! ## Pieces of texts -/

/-- What is in a piece of a list is in the list. -/
theorem mem_of_mem_splitOnPPrepend {α : Type} {p : α → Bool} {l front piece : List α}
    (h : piece ∈ l.splitOnPPrepend p front) : ∀ a ∈ piece, a ∈ front ∨ a ∈ l := by
  intro a ha
  induction l generalizing front with
  | nil =>
      rw [List.splitOnPPrepend, List.mem_singleton] at h
      rw [h] at ha
      exact Or.inl (List.mem_reverse.mp ha)
  | cons b l ih =>
      rw [List.splitOnPPrepend] at h
      cases hb : p b with
      | true =>
          rw [if_pos hb] at h
          rcases List.mem_cons.mp h with rfl | h
          · exact Or.inl (List.mem_reverse.mp ha)
          · rcases ih h with hnil | hmem
            · cases hnil
            · exact Or.inr (List.mem_cons_of_mem _ hmem)
      | false =>
          rw [if_neg (by simp [hb])] at h
          rcases ih h with hmem | hmem
          · rcases List.mem_cons.mp hmem with rfl | hmem
            · exact Or.inr List.mem_cons_self
            · exact Or.inl hmem
          · exact Or.inr (List.mem_cons_of_mem _ hmem)

/-- A piece holds characters of the text, and none that the text is split at. -/
theorem of_mem_splitOnP {p : Char → Bool} {s piece : Text} (h : piece ∈ s.splitOnP p) :
    ∀ c ∈ piece, c ∈ s ∧ p c = false := by
  intro c hc
  refine ⟨?_, not_of_mem_splitOnPPrepend (List.forall_mem_nil _) h c hc⟩
  rcases mem_of_mem_splitOnPPrepend h c hc with hnil | hmem
  · cases hnil
  · exact hmem

/-- A trimmed text does not end with a blank. -/
theorem getLast_trim {s : Text} : ∀ c ∈ (trim s).getLast?, isBlank c = false := getLast_trimEnd

theorem trimEnd_of_getLast {s : Text} (h : ∀ c ∈ s.getLast?, isBlank c = false) :
    trimEnd s = s := by
  have hreverse : trimStart ([] ++ s.reverse) = s.reverse :=
    trimStart_blanks (List.forall_mem_nil _) (by rwa [List.head?_reverse])
  rw [List.nil_append, trimStart] at hreverse
  rw [trimEnd, hreverse, List.reverse_reverse]

/-- A trimmed text stays as it is. -/
theorem trim_trim (s : Text) : trim (trim s) = trim s := by
  have hstart : trimStart ([] ++ trim s) = trim s :=
    trimStart_blanks (List.forall_mem_nil _) head_trim
  rw [List.nil_append] at hstart
  rw [trim, hstart]
  exact trimEnd_of_getLast getLast_trim

theorem mem_of_mem_trim {c : Char} {s : Text} (h : c ∈ trim s) : c ∈ s :=
  (List.dropWhile_suffix _).subset ((isPrefix_trimEnd _).subset h)

end Text

/-! ## Well-formed declarations -/

/-- Letters, digits, underscores, colons, points, hyphens and slashes, at least one. -/
def Text.IsTaskName (w : Text) : Prop := w ≠ [] ∧ ∀ c ∈ w, isTaskNameChar c = true

/-- At least one element, each well formed, and no two texts next to each other. -/
structure Command.WellFormed (command : Command) : Prop where
  nonempty : command.elements ≠ []
  elements : ∀ e ∈ command.elements, e.WellFormed
  apart : command.elements.IsChain Element.Apart

/-- The name of an argument is not empty, has no blanks around it, and holds neither a comma nor a
closing parenthesis. -/
structure IsArgument (name : String) : Prop where
  nonempty : name ≠ ""
  trimmed : trimmed name = name
  comma : ',' ∉ name.toList
  parenthesis : ')' ∉ name.toList

/-- The name of a dependency is not empty, and holds neither a blank nor a comma nor an opening
brace. -/
structure IsDependency (name : String) : Prop where
  nonempty : name ≠ ""
  blank : ∀ c ∈ name.toList, isBlank c = false
  comma : ',' ∉ name.toList
  brace : '{' ∉ name.toList

/-- All that a task declares is well formed, and it has nothing that only a loader adds. -/
structure Task.WellFormed (task : Task) : Prop where
  name : IsTaskName task.name.toList
  arguments : ∀ name ∈ task.arguments, IsArgument name
  dependencies : ∀ name ∈ task.dependencies, IsDependency name
  commands : ∀ command ∈ task.commands, command.WellFormed
  dispatch : task.dispatch = none
  source : task.source = none
  home : task.home = none

/-- The name is a word, and all that a namespace declares is well formed, at every depth. -/
inductive Namespace.WellFormed : Namespace → Prop
  | intro {ns : Namespace} (name : IsWord ns.name.toList)
      (tasks : ∀ task ∈ ns.tasks, task.WellFormed)
      (vars : ∀ v ∈ ns.vars, IsWord v.name.toList)
      (namespaces : ∀ inner ∈ ns.namespaces, inner.WellFormed) : ns.WellFormed

/-- All that a file declares is well formed. -/
structure TaskFile.DeclaresWellFormed (file : TaskFile) : Prop where
  tasks : ∀ task ∈ file.tasks, task.WellFormed
  vars : ∀ v ∈ file.vars, IsWord v.name.toList
  namespaces : ∀ ns ∈ file.namespaces, ns.WellFormed
  fileNamespace : ∀ name ∈ file.fileNamespace, IsWord name.toList

/-- All that a file declares is well formed, and a file that has a namespace of its own has no
namespace blocks. -/
structure TaskFile.WellFormed (file : TaskFile) : Prop extends file.DeclaresWellFormed where
  oneForm : file.fileNamespace ≠ none → file.namespaces = []

/-! ## What declarations give -/

theorem Command.wellFormed_of_mem {body : Text} {command : Command}
    (h : command ∈ parseBody body) : command.WellFormed := by
  obtain ⟨line, -, hline⟩ := List.mem_filterMap.mp h
  obtain ⟨rest, hcarries, helements⟩ := carries_of_ofLine? hline
  have hcuts := Element.cuts_parseLine hcarries.nonempty
  rw [← helements] at hcuts
  exact ⟨hcuts.nonempty, hcuts.wellFormed, hcuts.apart⟩

namespace Item

/-- What an item declares is well formed. -/
def WellFormed : Item → Prop
  | .variable v => IsWord v.name.toList
  | .task declared => declared.WellFormed
  | .opening name _ _ => IsWord name.toList
  | .closing _ => True
  | .fileNamespace name _ _ => IsWord name.toList

theorem isArgument_of_mem {s : Text} (hs : ')' ∉ s) {name : String}
    (h : name ∈ splitArguments s) : IsArgument name := by
  obtain ⟨chars, hchars, hname⟩ := List.mem_filterMap.mp h
  obtain ⟨piece, hpiece, rfl⟩ := List.mem_map.mp hchars
  split at hname
  · cases hname
  · rename_i hne
    obtain rfl := Option.some.inj hname
    have hcut := of_mem_splitOnP hpiece
    refine ⟨?_, ?_, ?_, ?_⟩
    · intro hempty
      exact hne (List.isEmpty_iff.mpr (String.ofList_eq_empty_iff.mp hempty))
    · rw [trimmed, String.toList_ofList, trim_trim]
    · rw [String.toList_ofList]
      intro hcomma
      exact absurd (hcut _ (mem_of_mem_trim hcomma)).2 (by decide)
    · rw [String.toList_ofList]
      intro hparenthesis
      exact hs (hcut _ (mem_of_mem_trim hparenthesis)).1

theorem isDependency_of_mem {s : Text} (hs : '{' ∉ s) {name : String}
    (h : name ∈ splitDependencies s) : IsDependency name := by
  obtain ⟨piece, hpiece, hname⟩ := List.mem_filterMap.mp h
  split at hname
  · cases hname
  · rename_i hne
    obtain rfl := Option.some.inj hname
    have hcut := of_mem_splitOnP hpiece
    refine ⟨?_, ?_, ?_, ?_⟩
    · intro hempty
      exact hne (List.isEmpty_iff.mpr (String.ofList_eq_empty_iff.mp hempty))
    · rw [String.toList_ofList]
      intro c hc
      exact (Bool.or_eq_false_iff.mp (hcut c hc).2).2
    · rw [String.toList_ofList]
      intro hcomma
      exact absurd (hcut _ hcomma).2 (by decide)
    · rw [String.toList_ofList]
      intro hbrace
      exact hs (hcut _ hbrace).1

theorem isArgument_of_arguments {s rest : Text} {names : List String}
    (h : arguments s = .ok (names, rest)) : ∀ name ∈ names, IsArgument name := by
  rw [arguments] at h
  split at h
  · obtain ⟨rfl, -⟩ := Prod.mk.inj (Except.ok.inj h)
    exact List.forall_mem_nil _
  · split at h
    · cases h
    · rename_i hspan
      obtain ⟨rfl, -⟩ := Prod.mk.inj (Except.ok.inj h)
      intro name hname
      exact isArgument_of_mem (not_mem_of_upThrough hspan) hname

theorem isDependency_of_dependencies (s : Text) :
    ∀ name ∈ (dependencies s).1, IsDependency name := by
  rw [dependencies]
  split
  · exact List.forall_mem_nil _
  · intro name hname
    refine isDependency_of_mem ?_ hname
    intro hbrace
    exact absurd (List.mem_takeWhile_imp hbrace) (by decide)

theorem wellFormed_of_body {s rest : Text} {commands : List Command}
    (h : body s = .ok (commands, rest)) : ∀ command ∈ commands, command.WellFormed := by
  rw [body] at h
  split at h
  · obtain ⟨rfl, -⟩ := Prod.mk.inj (Except.ok.inj h)
    exact List.forall_mem_nil _
  · split at h
    · obtain ⟨rfl, -⟩ := Prod.mk.inj (Except.ok.inj h)
      intro command hcommand
      exact Command.wellFormed_of_mem hcommand
    · cases h
    · cases h

theorem taskDeclaration_wellFormed {description : Option String} {s rest : Text} {task : Task}
    (h : taskDeclaration description s = .ok (task, rest)) : task.WellFormed := by
  obtain ⟨name, names, deps, rest', commands, hhead, hbody, rfl⟩ := taskDeclaration_eq_ok_iff.mp h
  obtain ⟨hname, names', rest'', hargs, heq, -⟩ := taskHead_eq_ok_iff.mp hhead
  obtain ⟨rfl, hmore⟩ := Prod.mk.inj heq
  obtain ⟨rfl, rfl⟩ := Prod.mk.inj hmore
  refine ⟨⟨?_, ?_⟩, isArgument_of_arguments hargs, isDependency_of_dependencies _,
    wellFormed_of_body hbody, rfl, rfl, rfl⟩
  · rw [String.toList_ofList]
    exact hname
  · rw [String.toList_ofList]
    intro c hc
    exact List.mem_takeWhile_imp hc

theorem isWord_of_assignment? {s name rest : Text} (h : assignment? s = some (name, rest)) :
    IsWord name := by
  rw [assignment?] at h
  split at h
  · cases h
  · rename_i hname
    dsimp only at h
    split at h
    · cases h
    · obtain ⟨after, -, heq⟩ := Option.map_eq_some_iff.mp h
      obtain ⟨rfl, -⟩ := Prod.mk.inj heq
      exact isWord_takeWhile hname

/-- **WHAT A DECLARATION GIVES IS WELL FORMED.** -/
theorem declaration_wellFormed {doc : List Text} {s rest : Text} {item : Item}
    (h : declaration doc s = .ok (item, rest)) : item.WellFormed := by
  have hstring : ∀ {name : Text}, IsWord name → IsWord (String.ofList name).toList := by
    intro name hname
    rwa [String.toList_ofList]
  rw [declaration_eq_ok_iff] at h
  cases h with
  | closing hbrace => exact True.intro
  | assignment hassign hvalue => exact hstring (isWord_of_assignment? hassign)
  | task hassign hkeyword htask => exact taskDeclaration_wellFormed htask
  | namespaced hassign hkeyword hnamespace =>
      obtain ⟨name, behind, -, hname, -, ⟨-, rfl⟩ | rfl⟩ := namespaceDeclaration_cases hnamespace
      · exact hstring hname
      · exact hstring hname

end Item

theorem Reads.wellFormed {s : Text} {found : List Item} {failure : Option (ParseError Text)}
    (h : Reads s found failure) : ∀ item ∈ found, item.WellFormed := by
  induction h with
  | atEnd => exact List.forall_mem_nil _
  | noItem => exact List.forall_mem_nil _
  | noEnd _ hitem _ => exact List.forall_mem_singleton.mpr (Item.declaration_wellFormed hitem)
  | item _ hitem _ _ ih => exact List.forall_mem_cons.mpr ⟨Item.declaration_wellFormed hitem, ih⟩

/-! ## What nestings hold -/

theorem forall_mem_concat {α : Type} {p : α → Prop} {l : List α} {a : α} (hl : ∀ b ∈ l, p b)
    (ha : p a) : ∀ b ∈ l ++ [a], p b :=
  List.forall_mem_append.mpr ⟨hl, List.forall_mem_singleton.mpr ha⟩

namespace Nesting

/-- All that the file declares so far is well formed, and so is all that the open blocks declare. -/
structure WellFormed (n : Nesting) : Prop where
  file : n.file.DeclaresWellFormed
  blocks : ∀ block ∈ n.blocks, block.content.WellFormed

namespace WellFormed

variable {n m : Nesting}

theorem empty : Nesting.empty.WellFormed where
  file := ⟨List.forall_mem_nil _, List.forall_mem_nil _, List.forall_mem_nil _, nofun⟩
  blocks := List.forall_mem_nil _

theorem addVariable (hn : n.WellFormed) {v : Variable} (hv : IsWord v.name.toList) :
    (n.addVariable v).WellFormed := by
  obtain ⟨file, blocks⟩ := n
  cases blocks with
  | nil => exact ⟨{ hn.file with vars := forall_mem_concat hn.file.vars hv }, hn.blocks⟩
  | cons block outer =>
      obtain ⟨⟨name, tasks, vars, namespaces⟩, houter⟩ := List.forall_mem_cons.mp hn.blocks
      refine ⟨hn.file, List.forall_mem_cons.mpr ⟨?_, houter⟩⟩
      exact ⟨name, tasks, forall_mem_concat vars hv, namespaces⟩

theorem addTask (hn : n.WellFormed) {task : Task} (htask : task.WellFormed) :
    (n.addTask task).WellFormed := by
  obtain ⟨file, blocks⟩ := n
  cases blocks with
  | nil => exact ⟨{ hn.file with tasks := forall_mem_concat hn.file.tasks htask }, hn.blocks⟩
  | cons block outer =>
      obtain ⟨⟨name, tasks, vars, namespaces⟩, houter⟩ := List.forall_mem_cons.mp hn.blocks
      refine ⟨hn.file, List.forall_mem_cons.mpr ⟨?_, houter⟩⟩
      exact ⟨name, forall_mem_concat tasks htask, vars, namespaces⟩

theorem addNamespace (hn : n.WellFormed) {ns : Namespace} (hns : ns.WellFormed) :
    (n.addNamespace ns).WellFormed := by
  obtain ⟨file, blocks⟩ := n
  cases blocks with
  | nil =>
      exact ⟨{ hn.file with namespaces := forall_mem_concat hn.file.namespaces hns }, hn.blocks⟩
  | cons block outer =>
      obtain ⟨⟨name, tasks, vars, namespaces⟩, houter⟩ := List.forall_mem_cons.mp hn.blocks
      refine ⟨hn.file, List.forall_mem_cons.mpr ⟨?_, houter⟩⟩
      exact ⟨name, tasks, vars, forall_mem_concat namespaces hns⟩

/-- **A WELL-FORMED ITEM LEAVES A NESTING WELL FORMED.** -/
theorem add (hn : n.WellFormed) {item : Item} (hitem : item.WellFormed)
    (h : n.add item = .ok m) : m.WellFormed := by
  cases adds_of_add h with
  | «variable» v => exact hn.addVariable hitem
  | task declared => exact hn.addTask hitem
  | opening hform =>
      refine ⟨hn.file, List.forall_mem_cons.mpr ⟨?_, hn.blocks⟩⟩
      exact ⟨hitem, List.forall_mem_nil _, List.forall_mem_nil _, List.forall_mem_nil _⟩
  | @closing place block outer hblocks =>
      have hall := hn.blocks
      rw [hblocks] at hall
      obtain ⟨hblock, houter⟩ := List.forall_mem_cons.mp hall
      have hclosed : WellFormed { n with blocks := outer } := ⟨hn.file, houter⟩
      exact hclosed.addNamespace hblock
  | @fileNamespace name start after hblocks hform =>
      refine ⟨{ hn.file with fileNamespace := ?_ }, hn.blocks⟩
      intro other hother
      obtain rfl := Option.some.inj hother
      exact hitem

end WellFormed

end Nesting

/-! ## Whole files -/

namespace TaskFile

/-- **FILES THAT ARE READ ARE WELL FORMED**, in every namespace at every depth. -/
theorem wellFormed_of_parse {source : String} {file : TaskFile} (h : parse source = .ok file) :
    file.WellFormed := by
  obtain ⟨found, hitems, hadd⟩ := read_eq_ok_iff.mp (parse_eq_ok_iff.mp h)
  have hread : Reads source.toList found none := by
    have hreads := reads_items source.toList
    rwa [hitems] at hreads
  have hnesting : Nesting.WellFormed ⟨file, []⟩ :=
    Nesting.addAll_preserves (fun item hmem n m hn => hn.add (hread.wellFormed item hmem))
      Nesting.WellFormed.empty hadd
  exact { hnesting.file with oneForm := namespaces_of_parse h }

/-- A namespace block in another one, with a task that has all that a task can have. -/
def dropping : TaskFile where
  vars := [⟨"mode", .literal "fast"⟩]
  namespaces := [{
    name := "db"
    namespaces := [{
      name := "old"
      tasks := [{
        name := "drop-all"
        arguments := ["force", "to go"]
        dependencies := ["db:lint"]
        commands :=
          [⟨[.text "rm ", .variable "mode", .text " ", .backtick "date"], true, false⟩] }] }] }]

theorem parse_dropping :
    parse ("mode = \"fast\"\nnamespace db \x7b namespace old \x7b\n"
      ++ "task drop-all( force,, to go ) => db:lint, \x7b @rm $mode `date` \x7d\n\x7d\n\x7d\n")
      = .ok dropping := by
  rewrite [parse, read,
    items_cons (by cbv) (by decide) (by cbv) (by cbv),
    items_cons (by cbv) (by decide) (by cbv) (by cbv),
    items_cons (by cbv) (by decide) (by cbv) (by cbv),
    items_cons (by cbv) (by decide) (by cbv) (by cbv),
    items_cons (by cbv) (by decide) (by cbv) (by cbv),
    items_cons (by cbv) (by decide) (by cbv) (by cbv),
    items_of_blank (by cbv)]
  rfl

/-- The argument that stands between two commas is none, and the other ones are trimmed. -/
theorem dropping_is_wellFormed :
    dropping.WellFormed ∧
      ∃ ns ∈ dropping.namespaces, ∃ inner ∈ ns.namespaces, ∃ task ∈ inner.tasks,
        task.arguments = ["force", "to go"] ∧ task.WellFormed := by
  have hfile := wellFormed_of_parse parse_dropping
  refine ⟨hfile, _, List.mem_cons_self, _, List.mem_cons_self, _, List.mem_cons_self, rfl, ?_⟩
  obtain ⟨-, -, -, hinner⟩ := hfile.namespaces _ List.mem_cons_self
  obtain ⟨-, htasks, -, -⟩ := hinner _ List.mem_cons_self
  exact htasks _ List.mem_cons_self

end TaskFile

end TaskRunner
