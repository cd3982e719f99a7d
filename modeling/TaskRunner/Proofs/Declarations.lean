import TaskRunner.Proofs.ReadingRuns

/-! # Declarations in files

    A task or a variable is declared in a file at the top level or in a namespace at any
    depth, and is found there by what holds of one of the namespaces (`Namespace.Holds`), the
    top level taken for one (`TaskFile.topLevel`).  Which one is told by a path from the top
    level inwards, by the number of namespaces that stand in front at each step
    (`Namespace.at?`).

    While items are read, the block that is innermost has such a path already
    (**`Nesting.path`**): at each level it will stand behind the namespaces that are declared
    so far.  And reading only ever **adds** behind what there is: a namespace that is at a
    path stays there and keeps its name, its tasks and its variables as a beginning
    (`Namespace.Grows`, `Nesting.grows_add`).  So whatever is read as a task or as a variable
    is declared in the file that comes out in the end, in the block that was open there
    (**`Nesting.exists_at`**). -/

namespace TaskRunner

/-! ## What is declared somewhere -/

namespace Namespace

/-- Something holds of a namespace, or of one inside of it. -/
inductive Holds (own : Namespace → Prop) : Namespace → Prop
  | here {ns : Namespace} (hown : own ns) : Holds own ns
  | inside {ns child : Namespace} (hchild : child ∈ ns.namespaces) (h : child.Holds own) :
      Holds own ns

/-- The namespace at a path, which says at each step how many others stand in front. -/
def at? : List Nat → Namespace → Option Namespace
  | [], ns => some ns
  | i :: path, ns => ns.namespaces[i]?.bind fun child => at? path child

/-- What a namespace on a path holds, the namespace holds. -/
theorem holds_of_at? {own : Namespace → Prop} {path : List Nat} {ns found : Namespace}
    (h : ns.at? path = some found) (hown : own found) : ns.Holds own := by
  induction path generalizing ns with
  | nil =>
      obtain rfl := Option.some.inj h
      exact .here hown
  | cons i path ih =>
      obtain ⟨child, hchild, hfound⟩ := Option.bind_eq_some_iff.mp h
      exact .inside (List.mem_of_getElem? hchild) (ih hfound)

/-- A path leads on from where its first part leads. -/
theorem at?_append (path more : List Nat) (ns : Namespace) :
    ns.at? (path ++ more) = (ns.at? path).bind fun found => found.at? more := by
  induction path generalizing ns with
  | nil => rfl
  | cons i path ih =>
      rw [List.cons_append, at?, at?, Option.bind_assoc]
      exact congrArg _ (funext ih)

end Namespace

namespace TaskFile

/-- The top level of a file as a namespace without a name. -/
def topLevel (file : TaskFile) : Namespace := ⟨"", file.tasks, file.vars, file.namespaces⟩

/-- A task is declared in a file, at the top level or in a namespace at any depth. -/
def HoldsTask (file : TaskFile) (task : Task) : Prop := file.topLevel.Holds (task ∈ ·.tasks)

/-- A variable is set in a file, at the top level or in a namespace at any depth. -/
def HoldsVariable (file : TaskFile) (v : Variable) : Prop := file.topLevel.Holds (v ∈ ·.vars)

end TaskFile

/-! ## Declarations stay -/

namespace Namespace

/-- What is declared in one namespace is declared in the other at the same place, and before what
is declared there besides. -/
def Grows (ns ns' : Namespace) : Prop :=
  ∀ path found, ns.at? path = some found → ∃ found', ns'.at? path = some found' ∧
    found'.name = found.name ∧ found.tasks <+: found'.tasks ∧ found.vars <+: found'.vars

variable {ns ns' : Namespace}

/-- A namespace that stays as it is has grown. -/
theorem Grows.refl (ns : Namespace) : ns.Grows ns :=
  fun _ found h => ⟨found, h, rfl, List.prefix_refl _, List.prefix_refl _⟩

/-- Growing twice is growing. -/
theorem Grows.trans {ns'' : Namespace} (h : ns.Grows ns') (h' : ns'.Grows ns'') :
    ns.Grows ns'' := by
  intro path found hfound
  obtain ⟨found', hfound', hname, htasks, hvars⟩ := h path found hfound
  obtain ⟨found'', hfound'', hname', htasks', hvars'⟩ := h' path found' hfound'
  exact ⟨found'', hfound'', hname'.trans hname, htasks.trans htasks', hvars.trans hvars'⟩

/-- A namespace grows by more tasks, more variables and more namespaces. -/
theorem grows_of_prefix (hname : ns'.name = ns.name) (htasks : ns.tasks <+: ns'.tasks)
    (hvars : ns.vars <+: ns'.vars) (hnamespaces : ns.namespaces <+: ns'.namespaces) :
    ns.Grows ns' := by
  rintro (_ | ⟨i, path⟩) found hfound
  · obtain rfl := Option.some.inj hfound
    exact ⟨ns', rfl, hname, htasks, hvars⟩
  · obtain ⟨child, hchild, hbelow⟩ := Option.bind_eq_some_iff.mp hfound
    obtain ⟨more, hmore⟩ := hnamespaces
    have hchild' : ns'.namespaces[i]? = some child := by
      rw [← hmore, List.getElem?_append_left (List.getElem?_eq_some_iff.mp hchild).1, hchild]
    exact ⟨found, Option.bind_eq_some_iff.mpr ⟨child, hchild', hbelow⟩, rfl,
      List.prefix_refl _, List.prefix_refl _⟩

/-- The namespace with another one declared in it, behind its own. -/
def insert (outer inner : Namespace) : Namespace :=
  { outer with namespaces := outer.namespaces ++ [inner] }

/-- A block that is closed comes behind the namespaces that are there. -/
theorem grows_insert (outer inner : Namespace) : outer.Grows (outer.insert inner) :=
  grows_of_prefix rfl (List.prefix_refl _) (List.prefix_refl _) (List.prefix_append _ _)

/-- A namespace grows if the last one in it does. -/
theorem Grows.insert (h : ns.Grows ns') (outer : Namespace) :
    (outer.insert ns).Grows (outer.insert ns') := by
  rintro (_ | ⟨i, path⟩) found hfound
  · obtain rfl := Option.some.inj hfound
    exact ⟨_, rfl, rfl, List.prefix_refl _, List.prefix_refl _⟩
  · obtain ⟨child, hchild, hbelow⟩ := Option.bind_eq_some_iff.mp hfound
    change (outer.namespaces ++ [ns])[i]? = some child at hchild
    rw [List.getElem?_append] at hchild
    by_cases hfront : i < outer.namespaces.length
    · rw [if_pos hfront] at hchild
      refine ⟨found, Option.bind_eq_some_iff.mpr ⟨child, ?_, hbelow⟩, rfl,
        List.prefix_refl _, List.prefix_refl _⟩
      exact (List.getElem?_append_left hfront).trans hchild
    · rw [if_neg hfront] at hchild
      obtain ⟨hlast, rfl⟩ : i - outer.namespaces.length = 0 ∧ ns = child := by
        rw [List.getElem?_singleton] at hchild
        simpa using hchild
      obtain ⟨found', hfound', hsame⟩ := h path found hbelow
      refine ⟨found', Option.bind_eq_some_iff.mpr ⟨ns', ?_, hfound'⟩, hsame⟩
      exact (List.getElem?_append_right (Nat.le_of_not_lt hfront)).trans (by rw [hlast]; rfl)

end Namespace

namespace Nesting

open Namespace

/-! ## The place of the innermost block -/

/-- What is declared so far in the innermost open block, or at the top level if there is none. -/
def current (n : Nesting) : Namespace :=
  match n.blocks with
  | [] => n.file.topLevel
  | block :: _ => block.content

/-- What is declared so far around the innermost open block, from the inside to the top level. -/
def enclosing (n : Nesting) : List Namespace :=
  match n.blocks with
  | [] => []
  | _ :: outer => outer.map (·.content) ++ [n.file.topLevel]

/-- The path that the innermost open block will have: at each level it stands behind the namespaces
that are declared so far. -/
def path (n : Nesting) : List Nat := (n.enclosing.map (·.namespaces.length)).reverse

/-- Namespaces closed one in the other, from the inside to the outside. -/
def closeAll (inner : Namespace) (enclosing : List Namespace) : Namespace :=
  enclosing.foldl (fun inner outer => outer.insert inner) inner

/-- The top level, if all open blocks are closed. -/
def whole (n : Nesting) : Namespace := closeAll n.current n.enclosing

/-- However many blocks are closed around it, the innermost one stands where its path says. -/
theorem at?_closeAll (inner : Namespace) (enclosing : List Namespace) :
    (closeAll inner enclosing).at? (enclosing.map (·.namespaces.length)).reverse = some inner := by
  induction enclosing generalizing inner with
  | nil => rfl
  | cons outer enclosing ih =>
      show (closeAll (outer.insert inner) enclosing).at? _ = some inner
      rw [List.map_cons, List.reverse_cons, at?_append, ih (outer.insert inner)]
      show (outer.namespaces ++ [inner])[outer.namespaces.length]?.bind _ = some inner
      rw [List.getElem?_concat_length]
      rfl

/-- Where the innermost block grows, the namespace around all of them does. -/
theorem grows_closeAll {ns ns' : Namespace} (h : ns.Grows ns') (enclosing : List Namespace) :
    (closeAll ns enclosing).Grows (closeAll ns' enclosing) := by
  induction enclosing generalizing ns ns' with
  | nil => exact h
  | cons outer enclosing ih => exact ih (h.insert outer)

/-- What is declared in the innermost block is at its path. -/
theorem at?_path (n : Nesting) : n.whole.at? n.path = some n.current :=
  at?_closeAll n.current n.enclosing

/-! ## Reading adds -/

/-- A task comes behind the tasks that are there. -/
theorem grows_addTask (n : Nesting) (task : Task) : n.whole.Grows (n.addTask task).whole := by
  obtain ⟨file, _ | ⟨block, outer⟩⟩ := n
  · exact grows_of_prefix rfl (List.prefix_append _ _) (List.prefix_refl _) (List.prefix_refl _)
  · show (closeAll _ _).Grows (closeAll _ _)
    apply grows_closeAll
    exact grows_of_prefix rfl (List.prefix_append _ _) (List.prefix_refl _) (List.prefix_refl _)

/-- So does a variable. -/
theorem grows_addVariable (n : Nesting) (v : Variable) :
    n.whole.Grows (n.addVariable v).whole := by
  obtain ⟨file, _ | ⟨block, outer⟩⟩ := n
  · exact grows_of_prefix rfl (List.prefix_refl _) (List.prefix_append _ _) (List.prefix_refl _)
  · show (closeAll _ _).Grows (closeAll _ _)
    apply grows_closeAll
    exact grows_of_prefix rfl (List.prefix_refl _) (List.prefix_append _ _) (List.prefix_refl _)

/-- To open a block is to declare a namespace that is still empty. -/
theorem whole_opened (n : Nesting) (brace : Text) (content : Namespace) :
    whole { n with blocks := ⟨brace, content⟩ :: n.blocks }
      = closeAll (n.current.insert content) n.enclosing := by
  obtain ⟨file, _ | ⟨block, outer⟩⟩ := n <;> rfl

/-- To close a block changes nothing, since all blocks are thought closed. -/
theorem whole_closed (file : TaskFile) (block : OpenBlock) (outer : List OpenBlock) :
    (addNamespace ⟨file, outer⟩ block.content).whole = whole ⟨file, block :: outer⟩ := by
  cases outer <;> rfl

/-- **WHAT IS DECLARED STAYS** where it is, whatever is declared behind it. -/
theorem grows_add {n m : Nesting} {item : Item} (h : n.add item = .ok m) :
    n.whole.Grows m.whole := by
  obtain ⟨file, blocks⟩ := n
  have hadds := adds_of_add h
  cases hadds with
  | «variable» v => exact grows_addVariable _ v
  | task declared => exact grows_addTask _ declared
  | opening hform =>
      rw [whole_opened ⟨file, blocks⟩]
      exact grows_closeAll (grows_insert _ _) _
  | closing hblocks =>
      obtain rfl : blocks = _ := hblocks
      rw [whole_closed]
      exact Grows.refl _
  | fileNamespace hblocks hform =>
      obtain rfl : blocks = [] := hblocks
      exact Grows.refl file.topLevel

/-- **ITEMS ONLY ADD**: what was declared stays where it was declared. -/
theorem grows_addAll {n m : Nesting} {found : List Item} (h : n.addAll found = .ok m) :
    n.whole.Grows m.whole :=
  addAll_preserves (P := fun m => n.whole.Grows m.whole)
    (fun _ _ _ _ hn hadd => hn.trans (grows_add hadd)) (Grows.refl _) h

/-- **THE INNERMOST BLOCK HAS ITS PLACE** in the file that comes out in the end: there is a
namespace at its path, with its name, and what it declares so far comes first in there. -/
theorem exists_at {n : Nesting} {later : List Item} {file : TaskFile}
    (h : n.addAll later = .ok ⟨file, []⟩) :
    ∃ ns, file.topLevel.at? n.path = some ns ∧ ns.name = n.current.name ∧
      n.current.tasks <+: ns.tasks ∧ n.current.vars <+: ns.vars :=
  grows_addAll h n.path n.current n.at?_path

/-- **EACH TASK THAT IS READ IS DECLARED** where the block is that was innermost, behind the tasks
that are declared there before. -/
theorem exists_at_task {n : Nesting} {task : Task} {later : List Item} {file : TaskFile}
    (h : n.addAll (.task task :: later) = .ok ⟨file, []⟩) :
    ∃ ns, file.topLevel.at? n.path = some ns ∧ ns.name = n.current.name ∧
      n.current.tasks ++ [task] <+: ns.tasks := by
  obtain ⟨ns, hat, hname, htasks, -⟩ := exists_at h (n := n.addTask task)
  obtain ⟨file, _ | ⟨block, outer⟩⟩ := n <;> exact ⟨ns, hat, hname, htasks⟩

/-- The same for variables. -/
theorem exists_at_variable {n : Nesting} {v : Variable} {later : List Item} {file : TaskFile}
    (h : n.addAll (.variable v :: later) = .ok ⟨file, []⟩) :
    ∃ ns, file.topLevel.at? n.path = some ns ∧ ns.name = n.current.name ∧
      n.current.vars ++ [v] <+: ns.vars := by
  obtain ⟨ns, hat, hname, -, hvars⟩ := exists_at (n := n.addVariable v) h
  obtain ⟨file, _ | ⟨block, outer⟩⟩ := n <;> exact ⟨ns, hat, hname, hvars⟩

/-- A task among the items is held by the file, at some depth. -/
theorem holdsTask_of_addAll {found : List Item} {task : Task} {file : TaskFile}
    (h : empty.addAll found = .ok ⟨file, []⟩) (hmem : .task task ∈ found) :
    file.HoldsTask task := by
  obtain ⟨before, later, rfl⟩ := List.append_of_mem hmem
  obtain ⟨between, -, hlater⟩ := exists_addAll_of_append h
  obtain ⟨ns, hat, -, htasks⟩ := exists_at_task hlater
  exact holds_of_at? hat (htasks.subset (List.mem_append_right _ List.mem_cons_self))

/-- So is a variable. -/
theorem holdsVariable_of_addAll {found : List Item} {v : Variable} {file : TaskFile}
    (h : empty.addAll found = .ok ⟨file, []⟩) (hmem : .variable v ∈ found) :
    file.HoldsVariable v := by
  obtain ⟨before, later, rfl⟩ := List.append_of_mem hmem
  obtain ⟨between, -, hlater⟩ := exists_addAll_of_append h
  obtain ⟨ns, hat, -, hvars⟩ := exists_at_variable hlater
  exact holds_of_at? hat (hvars.subset (List.mem_append_right _ List.mem_cons_self))

end Nesting

end TaskRunner
