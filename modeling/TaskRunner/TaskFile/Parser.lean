import TaskRunner.TaskFile.Item.Sequence

/-!
# Reading task files

The items of a text are put one by one into the innermost open namespace block
(`Nesting.add`). What an item may not do shows here: a closing brace needs an open
block, the file's own namespace is named once, at the top level, and not together
with namespace blocks. At the end of the text no block may be open.

`TaskFile.read` gives errors with the text still to come where they show, and
`TaskFile.parse` with lines and columns.
-/

namespace TaskRunner

-- ── Open blocks ──────────────────────────────────────────────────────────────

/-- A namespace block that is still open: where its brace stands and what it declares so far. -/
structure OpenBlock where
  brace : Text
  content : Namespace

/-- What is known while items are read: the file so far, and the open blocks, innermost first. -/
structure Nesting where
  file : TaskFile
  blocks : List OpenBlock

namespace Nesting

/-- Nothing is read yet. -/
def empty : Nesting := ⟨{}, []⟩

/-- Declares a variable in the innermost open block, or in the file. -/
def addVariable (n : Nesting) (v : Variable) : Nesting :=
  match n.blocks with
  | [] => { n with file := { n.file with vars := n.file.vars ++ [v] } }
  | ⟨brace, content⟩ :: outer =>
    { n with blocks := ⟨brace, { content with vars := content.vars ++ [v] }⟩ :: outer }

/-- Declares a task in the innermost open block, or in the file. -/
def addTask (n : Nesting) (task : Task) : Nesting :=
  match n.blocks with
  | [] => { n with file := { n.file with tasks := n.file.tasks ++ [task] } }
  | ⟨brace, content⟩ :: outer =>
    { n with blocks := ⟨brace, { content with tasks := content.tasks ++ [task] }⟩ :: outer }

/-- Declares a namespace in the innermost open block, or in the file. -/
def addNamespace (n : Nesting) (ns : Namespace) : Nesting :=
  match n.blocks with
  | [] => { n with file := { n.file with namespaces := n.file.namespaces ++ [ns] } }
  | ⟨brace, content⟩ :: outer =>
    { n with blocks := ⟨brace, { content with namespaces := content.namespaces ++ [ns] }⟩ :: outer }

/-- Opens a namespace block. A file with a namespace of its own has none. -/
def openBlock (n : Nesting) (name : String) (start brace : Text) :
    Except (ParseError Text) Nesting :=
  match n.blocks, n.file.fileNamespace with
  | [], some own => .error (.mixedNamespaceForms own start)
  | _, _ => .ok { n with blocks := ⟨brace, { name }⟩ :: n.blocks }

/-- Closes the innermost open block. -/
def closeBlock (n : Nesting) (place : Text) : Except (ParseError Text) Nesting :=
  match n.blocks with
  | [] => .error (.unexpectedInput (Item.found place) place)
  | block :: outer => .ok ({ n with blocks := outer }.addNamespace block.content)

/-- Names the namespace of the file. -/
def nameFile (n : Nesting) (name : String) (start after : Text) :
    Except (ParseError Text) Nesting :=
  match n.blocks, n.file.fileNamespace with
  | _ :: _, _ => .error (.expected .nestedNamespaceBody after)
  | [], some first => .error (.duplicateFileNamespace first name start)
  | [], none =>
    if n.file.namespaces.isEmpty then
      .ok { n with file := { n.file with fileNamespace := some name } }
    else .error (.mixedNamespaceForms name start)

/-- Puts one item where it belongs. -/
def add (n : Nesting) : Item → Except (ParseError Text) Nesting
  | .variable v => .ok (n.addVariable v)
  | .task task => .ok (n.addTask task)
  | .opening name start brace => n.openBlock name start brace
  | .closing place => n.closeBlock place
  | .fileNamespace name start after => n.nameFile name start after

/-- The file, at the end of the text. -/
def finish (n : Nesting) : Except (ParseError Text) TaskFile :=
  match n.blocks with
  | [] => .ok n.file
  | block :: _ => .error (.unterminatedBlock .namespaceBlock block.brace)

/-- Puts the items where they belong, one after the other. -/
def addAll (n : Nesting) : List Item → Except (ParseError Text) Nesting
  | [] => .ok n
  | item :: rest =>
    match n.add item with
    | .ok n => n.addAll rest
    | .error e => .error e

end Nesting

-- ── Whole texts ──────────────────────────────────────────────────────────────

namespace TaskFile

/-- Reads a text as a task file. Of two errors the one that comes first in the text counts. -/
def read (s : Text) : Except (ParseError Text) TaskFile :=
  let (found, failure) := items s
  match Nesting.empty.addAll found, failure with
  | .error e, _ => .error e
  | .ok _, some e => .error e
  | .ok n, none => n.finish

/-- Reads a string as a task file. -/
def parse (source : String) : Except (ParseError Position) TaskFile :=
  match read source.toList with
  | .ok file => .ok file
  | .error e => .error (e.locate source.toList)

end TaskFile

end TaskRunner
