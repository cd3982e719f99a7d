import TaskRunner.Text.Blank

/-!
# UTF-8

A text is written as octets character by character. Reading goes octet by octet: a
first octet says how many more must follow and which values the next of them may have,
so that each character has one spelling and surrogates have none. Octets that do not
fit are cut into parts: each part is as long as it is the beginning of a character's
spelling, and at least one octet. `decode?` refuses such octets, and `decodeLossy`
puts U+FFFD for each part.
-/

namespace TaskRunner

/-- Octets, in order. -/
abbrev Octets := List UInt8

namespace Utf8

/-- The octets of a text. -/
def encode (s : Text) : Octets := s.flatMap String.utf8EncodeChar

/-- A character that is not read to its end: the bits so far, how many octets are missing, and
the least and the greatest value that the next of them may have. -/
structure Owed where
  bits : Nat
  missing : Nat
  least : UInt8
  greatest : UInt8
deriving DecidableEq, Repr

/-- What is owed behind the first octet of a character of more than one octet. -/
def owedBehind (b : UInt8) : Option Owed :=
  if 0xC2 ≤ b ∧ b ≤ 0xDF then some ⟨b.toNat % 32, 1, 0x80, 0xBF⟩
  else if b = 0xE0 then some ⟨0, 2, 0xA0, 0xBF⟩
  else if b = 0xED then some ⟨13, 2, 0x80, 0x9F⟩
  else if 0xE1 ≤ b ∧ b ≤ 0xEF then some ⟨b.toNat % 16, 2, 0x80, 0xBF⟩
  else if b = 0xF0 then some ⟨0, 3, 0x90, 0xBF⟩
  else if b = 0xF4 then some ⟨4, 3, 0x80, 0x8F⟩
  else if 0xF1 ≤ b ∧ b ≤ 0xF3 then some ⟨b.toNat % 8, 3, 0x80, 0xBF⟩
  else none

/-- What an octet means where a character may begin: the characters that are complete with it,
where `none` is a part that does not fit, and what is owed behind it. -/
def begins (b : UInt8) : List (Option Char) × Option Owed :=
  if b < 0x80 then ([some (Char.ofNat b.toNat)], none)
  else match owedBehind b with
    | some owed => ([], some owed)
    | none => ([none], none)

/-- What an octet means where octets are owed. -/
def continues (owed : Owed) (b : UInt8) : List (Option Char) × Option Owed :=
  if owed.least ≤ b ∧ b ≤ owed.greatest then
    let bits := owed.bits * 64 + b.toNat % 64
    if owed.missing ≤ 1 then ([some (Char.ofNat bits)], none)
    else ([], some ⟨bits, owed.missing - 1, 0x80, 0xBF⟩)
  else (none :: (begins b).1, (begins b).2)

/-- The characters of octets, where `none` stands for each part that does not fit. -/
def parts : Option Owed → Octets → List (Option Char)
  | none, [] => []
  | some _, [] => [none]
  | none, b :: rest => (begins b).1 ++ parts (begins b).2 rest
  | some owed, b :: rest => (continues owed b).1 ++ parts (continues owed b).2 rest

/-- The text that octets spell, if they spell one. -/
def decode? (octets : Octets) : Option Text := (parts none octets).mapM id

/-- The text that octets spell, with U+FFFD for each part that does not fit. -/
def decodeLossy (octets : Octets) : Text :=
  (parts none octets).map fun part => part.getD '\uFFFD'

end Utf8

end TaskRunner
