import TaskRunner.Files.Pattern
import TaskRunner.Files.Tree

/-!
# Finding files by a pattern

The pieces of a pattern lead from the root or the working directory to paths. A piece
without wildcards is followed if there is such an entry, without looking at the
others; every other piece is compared with the entries of the directory, and with `.`
and `..` only if it starts with a point. Behind the working directory itself a path
starts with the entry's name, so that a leading `./` of the pattern is not written.
A directory whose path has become too long is not looked into.

The search ends since each step has fewer pieces left, or stands deeper in the tree.
-/

namespace TaskRunner.Files

/-- The path of an entry: behind the working directory the name alone. -/
def entryPath (path : Path) (name : Text) : Path :=
  if path.same (.ofString ".") then ⟨name⟩ else path.join ⟨name⟩

/-- The piece that stands for directories at any depth. -/
def isAnyDepth (pattern : Pattern) : Bool := pattern == [.anyDepth]

/-- A path that was found, if directories are not asked for or it is one. -/
def accept (directoriesOnly : Bool) (path : Path) (node : Node) : List Path :=
  if directoriesOnly && !node.isDirectory then [] else [path]

mutual

/-- The paths that the pieces lead to from a node at `path`; no pieces lead to the node itself. -/
def follow (files : Files) (directoriesOnly : Bool) : List Pattern → Path → Node → List Path
  | [], path, node => accept directoriesOnly path node
  | piece :: rest, path, node =>
    match piece.literal? with
    | some name => files.enter directoriesOnly rest (entryPath path name)
    | none =>
      match node with
      | .file _ => []
      | .directory entries =>
        if maxPathOctets < Text.octets path.text then []
        else
          files.enterSpecial directoriesOnly piece rest path ['.', '.']
            ++ files.enterSpecial directoriesOnly piece rest path ['.']
            ++ files.followEntries directoriesOnly piece rest path entries
termination_by pieces _ node => (pieces.length, 0, sizeOf node)

/-- The paths that the pieces lead to from what `path` leads to. -/
def enter (files : Files) (directoriesOnly : Bool) (pieces : List Pattern) (path : Path) :
    List Path :=
  match files.find path with
  | .error _ => []
  | .ok place => files.follow directoriesOnly pieces path place.node
termination_by (pieces.length, 1, 0)

/-- The same for `.` and `..`, which a piece with wildcards means only if it starts with a point. -/
def enterSpecial (files : Files) (directoriesOnly : Bool) (piece : Pattern)
    (rest : List Pattern) (path : Path) (name : Text) : List Path :=
  if piece.head? = some (.exactly '.') ∧ piece.isMatch name = true then
    files.enter directoriesOnly rest (path.join ⟨name⟩)
  else []
termination_by (rest.length, 2, 0)

/-- The paths that a piece with wildcards and the pieces behind it lead to over the entries of a
directory at `path`. -/
def followEntries (files : Files) (directoriesOnly : Bool) (piece : Pattern)
    (rest : List Pattern) (path : Path) : List (String × Node) → List Path
  | [] => []
  | (name, node) :: others =>
    let found := entryPath path name.toList
    let here :=
      if isAnyDepth piece then
        (match h : rest.dropWhile isAnyDepth with
          | [] => if node.isDirectory then [found] else []
          | next :: more =>
            have : more.length < rest.length := by
              have := (List.dropWhile_suffix isAnyDepth (l := rest)).length_le
              rw [h, List.length_cons] at this
              omega
            if next.isMatch name.toList then files.follow directoriesOnly more found node else [])
          ++ (if node.isDirectory then
            files.follow directoriesOnly (piece :: rest) found node else [])
      else if piece.isMatch name.toList then files.follow directoriesOnly rest found node
      else []
    here ++ files.followEntries directoriesOnly piece rest path others
termination_by entries => (rest.length + 1, 0, sizeOf entries)

end

/-- The paths that a pattern leads to. -/
def glob (files : Files) (pattern : PathPattern) : List Path :=
  if pattern.fromRoot then
    files.follow pattern.directoriesOnly pattern.pieces (.ofString "/") files.root
  else match files.here with
    | .error _ => []
    | .ok here => files.follow pattern.directoriesOnly pattern.pieces (.ofString ".") here.node

end TaskRunner.Files
