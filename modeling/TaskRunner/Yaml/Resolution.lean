import TaskRunner.Text.Blank

/-!
# What a plain scalar means

In YAML a scalar without quotes may mean something else than the string it spells: a
truth value, nothing, or a number. `isReserved` tells the strings that would be
misread, so that they are written in quotes. Digits behind a leading zero count among
them; words such as no and off, which were truth values once, do not.

Numbers are integers to the bases 2, 8 and 16 that fit into 128 bits, infinities, and
decimal numbers that are finite in double precision.
-/

namespace TaskRunner.Yaml

/-- Spellings of truth values. -/
def truthWords : List String := ["true", "True", "TRUE", "false", "False", "FALSE"]

/-- Spellings of nothing. -/
def nullWords : List String := ["", "~", "null", "Null", "NULL"]

/-- Spellings of infinities and of what is no number. -/
def boundlessWords : List String :=
  [".inf", ".Inf", ".INF", "+.inf", "+.Inf", "+.INF", "-.inf", "-.Inf", "-.INF", ".nan", ".NaN",
   ".NAN"]

-- ── Integers to other bases ──────────────────────────────────────────────────

/-- The value of a digit, letters included. -/
def digitValue? (c : Char) : Option Nat :=
  if c.isDigit then some (c.toNat - '0'.toNat)
  else if 'a' ≤ c ∧ c ≤ 'z' then some (c.toNat - 'a'.toNat + 10)
  else if 'A' ≤ c ∧ c ≤ 'Z' then some (c.toNat - 'A'.toNat + 10)
  else none

/-- The number that digits spell to a base. -/
def digitsValue? (base : Nat) (s : Text) : Option Nat :=
  if s.isEmpty then none
  else s.foldlM (fun n c => (digitValue? c).bind fun d => if d < base then some (n * base + d) else none) 0

/-- The base that a letter behind a leading zero announces. -/
def announcedBase? (c : Char) : Option Nat :=
  if c = 'x' then some 16 else if c = 'o' then some 8 else if c = 'b' then some 2 else none

/-- The number that digits with an announced base spell, at most `bound`. -/
def isBasedInteger (bound : Nat) : Text → Bool
  | '0' :: letter :: digits =>
    match announcedBase? letter with
    | none => false
    | some base => (digitsValue? base digits).any fun n => n ≤ bound
  | _ => false

/-- Integers with an announced base, with a sign or without one. -/
def isSignedBasedInteger : Text → Bool
  | '-' :: s => isBasedInteger (Nat.pow 2 127) s
  | '+' :: s => isBasedInteger (Nat.pow 2 128 - 1) s
  | s => isBasedInteger (Nat.pow 2 128 - 1) s

-- ── Decimal numbers ──────────────────────────────────────────────────────────

/-- The text behind a sign, if there is one. -/
def dropSign : Text → Text
  | '-' :: s => s
  | '+' :: s => s
  | s => s

/-- The least number that rounds to infinity in double precision. -/
def leastUnbounded : Nat := Nat.pow 2 1024 - Nat.pow 2 970

/-- A number `digits · 10 ^ exponent` is below the least that rounds to infinity. -/
def isFinite (digits : Nat) (exponent : Int) : Bool :=
  let size : Int := (Nat.repr digits).length + exponent
  if digits = 0 then true
  else if size < 300 then true
  else if 320 < size then false
  else if 0 ≤ exponent then digits * Nat.pow 10 exponent.toNat < leastUnbounded
  else digits < leastUnbounded * Nat.pow 10 (-exponent).toNat

/-- The exponent that a text spells: none at all, or a letter and a signed integer. -/
def exponent? : Text → Option Int
  | [] => some 0
  | c :: s =>
    if c = 'e' ∨ c = 'E' then
      (digitsValue? 10 (dropSign s)).map fun n => if s.head? = some '-' then -n else n
    else none

/-- Decimal numbers: digits with a point in them or without, and an exponent. -/
def isDecimal (s : Text) : Bool :=
  let unsigned := dropSign s
  let whole := unsigned.takeWhile Char.isDigit
  let rest := unsigned.dropWhile Char.isDigit
  let (fraction, rest) := match rest with
    | '.' :: rest => (rest.takeWhile Char.isDigit, rest.dropWhile Char.isDigit)
    | rest => ([], rest)
  match digitsValue? 10 (whole ++ fraction), exponent? rest with
  | some digits, some exponent => isFinite digits (exponent - fraction.length)
  | _, _ => false

/-- Digits behind a leading zero, which are no number. -/
def isZeroPadded (s : Text) : Bool :=
  match dropSign s with
  | '0' :: digits => !digits.isEmpty && digits.all Char.isDigit
  | _ => false

/-- Strings that would be misread without quotes. -/
def isReserved (s : String) : Bool :=
  truthWords.contains s || nullWords.contains s || boundlessWords.contains s
    || isSignedBasedInteger s.toList || isDecimal s.toList || isZeroPadded s.toList

end TaskRunner.Yaml
