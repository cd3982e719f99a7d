import TaskRunner.Files.Path
import TaskRunner.Files.PathError
import TaskRunner.Text.Utf8

/-!
# Trees of files

A tree of files is a directory that holds files and directories by name. A path leads
through it piece by piece (`Place.step`): the piece must lead out of a directory, `..`
leads back to where the directory was entered from, and an empty piece and `.` lead
nowhere else. What a path leads to is found from a working directory, or from the root
if the path starts with a slash (`Place.find`, `Files.find`).
-/

namespace TaskRunner

/-- What keeps a file from being read as text. -/
inductive ReadError
  | path (error : PathError)
  | isDirectory
  | notText
deriving DecidableEq, Repr

/-- The reason as the system words it. -/
def ReadError.message : ReadError → String
  | path error => error.message
  | isDirectory => "Is a directory (os error 21)"
  | notText => "stream did not contain valid UTF-8"

-- ── Nodes ────────────────────────────────────────────────────────────────────

/-- A file with its octets, or a directory with its entries. -/
inductive Node
  | file (content : Octets)
  | directory (entries : List (String × Node))
deriving Repr, Inhabited

namespace Node

/-- The node has entries. -/
def isDirectory : Node → Bool
  | .file _ => false
  | .directory _ => true

/-- The node has octets. -/
def isFile (node : Node) : Bool := !node.isDirectory

/-- The entry of a name. -/
def child? (name : String) : List (String × Node) → Option Node
  | [] => none
  | (key, node) :: rest => if key = name then some node else child? name rest

/-- Puts an entry at its place among entries that are sorted by name. -/
def putEntry (name : String) (node : Node) : List (String × Node) → List (String × Node)
  | [] => [(name, node)]
  | (key, held) :: rest =>
    if name < key then (name, node) :: (key, held) :: rest
    else if name = key then (name, node) :: rest
    else (key, held) :: putEntry name node rest

/-- The entries of a directory; a file has none. -/
def entries : Node → List (String × Node)
  | .file _ => []
  | .directory entries => entries

/-- A node in the place of another. A directory in the place of a directory keeps its entries. -/
def replace (node held : Node) : Node :=
  match node, held with
  | .directory entries, .directory old =>
    .directory (entries.foldl (fun all entry => putEntry entry.1 entry.2 all) old)
  | node, _ => node

/-- The node with another at the end of a chain of names; directories on the way are made. -/
def put (leaf : Node) : List String → Node → Node
  | [], held => leaf.replace held
  | name :: names, node =>
    let inner := (child? name node.entries).getD (.directory [])
    .directory (putEntry name (put leaf names inner) node.entries)

end Node

-- ── Places ───────────────────────────────────────────────────────────────────

/-- A node of a tree and how it was reached: the names and nodes on the way from the root, the
last one first. -/
structure Place where
  root : Node
  trail : List (String × Node)

namespace Place

/-- The node at a place. -/
def node (p : Place) : Node :=
  match p.trail with
  | [] => p.root
  | (_, node) :: _ => node

/-- The absolute path of a place. -/
def absolute (p : Place) : String :=
  if p.trail.isEmpty then "/" else String.join (p.trail.reverse.map fun entry => "/" ++ entry.1)

/-- Goes on by one piece of a path. -/
def step (p : Place) (piece : Text) : Except PathError Place :=
  match p.node with
  | .file _ => .error .notDirectory
  | .directory entries =>
    if Path.isNegligible piece then .ok p
    else if piece = ['.', '.'] then .ok { p with trail := p.trail.tail }
    else if maxNameOctets < Text.octets piece then .error .nameTooLong
    else match Node.child? (String.ofList piece) entries with
      | none => .error .notFound
      | some node => .ok { p with trail := (String.ofList piece, node) :: p.trail }

/-- What a path leads to from a place. The empty path leads nowhere. -/
def find (p : Place) (path : Path) : Except PathError Place :=
  if path.text.contains '\x00' then .error .nul
  else if path.text = [] then .error .notFound
  else if maxPathOctets < Text.octets path.text then .error .nameTooLong
  else (path.text.splitOn '/').foldlM step (if path.isAbsolute then ⟨p.root, []⟩ else p)

end Place

/-- A tree of files and the directory that paths start from. -/
structure Files where
  root : Node
  workingDir : List String

namespace Files

/-- The names that a path goes through, where nothing in it leads back. -/
def namesOf (path : String) : List String := (path.splitOn "/").filter (!·.isEmpty)

/-- The tree in which paths from the root lead to the nodes given with them, and to a working
directory. -/
def ofEntries (here : String) (entries : List (String × Node)) : Files :=
  let empty := Node.put (.directory []) (namesOf here) (.directory [])
  ⟨entries.foldl (fun root entry => Node.put entry.2 (namesOf entry.1) root) empty, namesOf here⟩

/-- The place of the working directory. -/
def here (files : Files) : Except PathError Place :=
  (files.workingDir.map String.toList).foldlM Place.step ⟨files.root, []⟩

/-- The absolute path of the working directory. -/
def herePath (files : Files) : Path :=
  .ofString (if files.workingDir.isEmpty then "/"
    else String.join (files.workingDir.map fun name => "/" ++ name))

/-- What a path leads to. -/
def find (files : Files) (path : Path) : Except PathError Place :=
  if path.isAbsolute then Place.find ⟨files.root, []⟩ path
  else files.here.bind fun here => here.find path

/-- A path leads to a file. -/
def isFile (files : Files) (path : Path) : Bool :=
  match files.find path with
  | .ok place => place.node.isFile
  | .error _ => false

/-- The octets of the file that a path leads to. -/
def readOctets (files : Files) (path : Path) : Except ReadError Octets :=
  match files.find path with
  | .error e => .error (.path e)
  | .ok place =>
    match place.node with
    | .file content => .ok content
    | .directory _ => .error .isDirectory

/-- The text of the file that a path leads to. -/
def readText (files : Files) (path : Path) : Except ReadError String :=
  match files.readOctets path with
  | .error e => .error e
  | .ok content =>
    match Utf8.decode? content with
    | some text => .ok (String.ofList text)
    | none => .error .notText

end Files

end TaskRunner
