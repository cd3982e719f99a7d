import TaskRunner.Text.Blank

/-!
# Backslash escapes

Inside double quotes a backslash and the character after it stand for one character:
`\"`, `\\`, `\n` and `\t`. Any other pair, and a backslash at the end, stand for
themselves. `escape` writes a text so that `unescape` reads it back
(`unescape_escape`).
-/

namespace TaskRunner.Text

/-- The character that a backslash and `c` stand for together, if they stand for one. -/
def escaped? (c : Char) : Option Char :=
  if c = '"' then some '"'
  else if c = '\\' then some '\\'
  else if c = 'n' then some '\n'
  else if c = 't' then some '\t'
  else none

/-- The text that an escaped text stands for. -/
def unescape : Text → Text
  | [] => []
  | c :: rest =>
    if c = '\\' then
      match rest with
      | [] => ['\\']
      | d :: rest =>
        match escaped? d with
        | some e => e :: unescape rest
        | none => '\\' :: d :: unescape rest
    else c :: unescape rest

/-- Writes a quote, a backslash, a line feed and a tab as their escapes. -/
def escape : Text → Text
  | [] => []
  | c :: rest =>
    if c = '"' then '\\' :: '"' :: escape rest
    else if c = '\\' then '\\' :: '\\' :: escape rest
    else if c = '\n' then '\\' :: 'n' :: escape rest
    else if c = '\t' then '\\' :: 't' :: escape rest
    else c :: escape rest

/-- A character other than the backslash stands for itself. -/
theorem unescape_cons_of_ne {c : Char} (h : c ≠ '\\') (rest : Text) :
    unescape (c :: rest) = c :: unescape rest := by
  cases rest <;> simp [unescape, h]

/-- What `escape` writes, `unescape` reads. -/
theorem unescape_escape (s : Text) : unescape (escape s) = s := by
  induction s with
  | nil => rfl
  | cons c rest ih =>
    by_cases quote : c = '"'
    · subst quote; simp [escape, unescape, escaped?, ih]
    by_cases backslash : c = '\\'
    · subst backslash; simp [escape, unescape, escaped?, ih]
    by_cases lineFeed : c = '\n'
    · subst lineFeed; simp [escape, unescape, escaped?, ih]
    by_cases tab : c = '\t'
    · subst tab; simp [escape, unescape, escaped?, ih]
    simp [escape, quote, backslash, lineFeed, tab, unescape_cons_of_ne backslash, ih]

end TaskRunner.Text
