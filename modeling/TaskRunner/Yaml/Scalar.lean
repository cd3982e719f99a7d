import TaskRunner.Yaml.Resolution

/-!
# Scalars in YAML

A string is written in one of four styles. A string of several lines is a block of
lines as they stand; another one is plain if it cannot be mistaken for anything else,
in single quotes if it can, and in double quotes if there is a character in it that
has to be escaped, or if a block or single quotes would lose blanks.
-/

namespace TaskRunner.Yaml

/-- The way a string is written. -/
inductive Style
  | plain
  | singleQuoted
  | doubleQuoted
  | block
deriving DecidableEq, Repr

-- ── Characters ───────────────────────────────────────────────────────────────

/-- A character that ends a line. -/
def isBreak (c : Char) : Bool :=
  c == '\n' || c == '\r' || c == '\u0085' || c == '\u2028' || c == '\u2029'

/-- A character that can be written as it is. -/
def isPrintable (c : Char) : Bool :=
  c == '\n' || (0x20 ≤ c.toNat && c.toNat ≤ 0x7E) ||
    (0xA0 ≤ c.toNat && c.toNat != 0xFEFF && c.toNat != 0xFFFE && c.toNat != 0xFFFF)

/-- A blank or a line end. -/
def isGap (c : Char) : Bool := c == ' ' || c == '\t' || c == '\x00' || isBreak c

/-- The characters that a plain scalar cannot start with. -/
def indicators : List Char :=
  ['#', ',', '[', ']', '{', '}', '&', '*', '!', '|', '>', '\'', '"', '%', '@', '`']

-- ── The style of a string ────────────────────────────────────────────────────

/-- The start of a plain scalar has a meaning of its own. -/
def startsWithIndicator : Text → Bool
  | [] => false
  | '-' :: '-' :: '-' :: _ => true
  | '.' :: '.' :: '.' :: _ => true
  | c :: rest => indicators.contains c || ((c == '?' || c == '-') && rest.head?.all isGap)

/-- A colon in front of a gap, or a number sign behind one, has a meaning of its own. -/
def containsIndicator : Text → Bool
  | [] => false
  | c :: rest =>
    (c == ':' && rest.head?.all isGap) || (isGap c && rest.head? == some '#')
      || containsIndicator rest

/-- A space stands directly before a line end. -/
def hasSpaceBeforeBreak : Text → Bool
  | [] => false
  | c :: rest => (c == ' ' && rest.head?.any isBreak) || hasSpaceBeforeBreak rest

/-- A space stands directly behind a line end. -/
def hasSpaceAfterBreak : Text → Bool
  | [] => false
  | c :: rest => (isBreak c && rest.head? == some ' ') || hasSpaceAfterBreak rest

/-- A plain scalar would keep the text. -/
def plainAllowed (s : Text) : Bool :=
  s.all (fun c => isPrintable c && !isBreak c) && s.head? != some ' ' && s.getLast? != some ' '
    && !startsWithIndicator s && !containsIndicator s

/-- Single quotes would keep the text. -/
def singleQuotesAllowed (s : Text) : Bool :=
  s.all isPrintable && !hasSpaceBeforeBreak s && !hasSpaceAfterBreak s

/-- A block would keep the text. -/
def blockAllowed (s : Text) : Bool :=
  s.all isPrintable && !hasSpaceBeforeBreak s && s.getLast? != some ' '

/-- The style of a string. -/
def style (s : String) : Style :=
  if s.toList.contains '\n' then if blockAllowed s.toList then .block else .doubleQuoted
  else if !isReserved s && plainAllowed s.toList then .plain
  else if singleQuotesAllowed s.toList then .singleQuoted
  else .doubleQuoted

-- ── Writing ──────────────────────────────────────────────────────────────────

/-- Spaces. -/
def spaces (n : Nat) : Text := List.replicate n ' '

/-- Lines with an indentation before every one that is not empty, where `atStart` tells whether a
line starts here. -/
def indented (indent : Nat) (atStart : Bool) : Text → Text
  | [] => []
  | c :: rest =>
    if isBreak c then c :: indented indent true rest
    else (if atStart then spaces indent else []) ++ c :: indented indent false rest

/-- What is told at the head of a block: its indentation, if its first line does not show it, and
what becomes of the line ends at its end. -/
def blockHead (s : Text) : Text :=
  let indentation := if s.head?.any fun c => c == ' ' || isBreak c then ['2'] else []
  let ending := match s.reverse with
    | [] => ['-']
    | last :: before =>
      if !isBreak last then ['-'] else if before.head?.all isBreak then ['+'] else []
  ['|'] ++ indentation ++ ending

/-- Upper-case hexadecimal digits, as many as wanted. -/
def hexDigits (width : Nat) (n : Nat) : Text :=
  (List.range width).reverse.map fun place => (Nat.digitChar ((n >>> (4 * place)) % 16)).toUpper

/-- The letters that stand for characters behind a backslash. -/
def escapeLetters : List (Char × Char) :=
  [('\x00', '0'), ('\x07', 'a'), ('\x08', 'b'), ('\t', 't'), ('\n', 'n'), ('\x0b', 'v'),
   ('\x0c', 'f'), ('\r', 'r'), ('\x1b', 'e'), ('"', '"'), ('\\', '\\'), ('\u0085', 'N'),
   ('\u2028', 'L'), ('\u2029', 'P')]

/-- A character in double quotes. -/
def escaped (c : Char) : Text :=
  if isPrintable c && !isBreak c && c != '"' && c != '\\' then [c]
  else match escapeLetters.lookup c with
    | some letter => ['\\', letter]
    | none =>
      if c.toNat ≤ 0xFF then ['\\', 'x'] ++ hexDigits 2 c.toNat
      else if c.toNat ≤ 0xFFFF then ['\\', 'u'] ++ hexDigits 4 c.toNat
      else ['\\', 'U'] ++ hexDigits 8 c.toNat

/-- A text in single quotes: a quote is written twice, and lines are indented. -/
def singleQuoted (indent : Nat) (s : Text) : Text :=
  let doubled := s.flatMap fun c => if c = '\'' then ['\'', '\''] else [c]
  ['\''] ++ indented indent false doubled
    ++ (if s.getLast?.any isBreak then spaces indent else []) ++ ['\'']

/-- A string with its further lines indented, up to the end of its last line. -/
def scalar (indent : Nat) (s : String) : Text :=
  match style s with
  | .plain => s.toList ++ ['\n']
  | .singleQuoted => singleQuoted indent s.toList ++ ['\n']
  | .doubleQuoted => ['"'] ++ s.toList.flatMap escaped ++ ['"', '\n']
  | .block =>
    blockHead s.toList ++ ['\n'] ++ indented indent true s.toList
      ++ (if s.toList.getLast?.any isBreak then [] else ['\n'])

end TaskRunner.Yaml
