/-!
# The characters of names

Variables, arguments and namespaces are named by words of ASCII letters, digits and
underscores. Task names may also hold a colon, a point, a hyphen and a slash, so
that `docs:generate`, `output.txt` and `build-all` are task names.
-/

namespace TaskRunner.Text

/-- A character of a variable, argument or namespace name. -/
def isWordChar (c : Char) : Bool :=
  c.isAlphanum || c == '_'

/-- A character of a task name. -/
def isTaskNameChar (c : Char) : Bool :=
  isWordChar c || c == ':' || c == '.' || c == '-' || c == '/'

/-- Each character of a word is one of a task name. -/
theorem isTaskNameChar_of_isWordChar {c : Char} (h : isWordChar c = true) :
    isTaskNameChar c = true := by
  simp [isTaskNameChar, h]

end TaskRunner.Text
