import TaskRunner.Text.Blank

/-!
# Patterns for names

A pattern is made of characters that stand for themselves and of wildcards: `?` for
any character, `*` for any text, `[abx-z]` for a character of a class and `[!…]` for
one outside of it. The piece `**` of a pattern for paths stands for directories at any
depth.

`PathPattern.parse` reads a pattern for paths: the whole of it must be well formed,
and then each piece between slashes.
-/

namespace TaskRunner

-- ── The language ─────────────────────────────────────────────────────────────

/-- A part of a class of characters. -/
inductive ClassPart
  | single (c : Char)
  | range (first last : Char)
deriving DecidableEq, Repr

/-- A part of a pattern. -/
inductive Wildcard
  | exactly (c : Char)
  | anyCharacter
  | anyText
  | anyDepth
  | within (parts : List ClassPart)
  | outside (parts : List ClassPart)
deriving DecidableEq, Repr

/-- A pattern for one name. -/
abbrev Pattern := List Wildcard

/-- What keeps a text from being a pattern. -/
inductive PatternFault
  | tooManyStars
  | crowdedStars
  | openClass
deriving DecidableEq, Repr

/-- A fault of a pattern and the number of characters before it. -/
structure PatternError where
  position : Nat
  fault : PatternFault
deriving DecidableEq, Repr

/-- The fault in words. -/
def PatternFault.text : PatternFault → String
  | .tooManyStars => "wildcards are either regular `*` or recursive `**`"
  | .crowdedStars => "recursive wildcards must form a single path component"
  | .openClass => "invalid range pattern"

/-- The error as one sentence. -/
def PatternError.message (e : PatternError) : String :=
  "Pattern syntax error near position " ++ e.position.repr ++ ": " ++ e.fault.text

-- ── Reading patterns ─────────────────────────────────────────────────────────

/-- The parts of a class: ranges of three characters with a hyphen in the middle, and else single
characters. -/
def classParts : Text → List ClassPart
  | a :: '-' :: b :: rest => .range a b :: classParts rest
  | a :: rest => .single a :: classParts rest
  | [] => []

/-- The class behind an opening bracket and the text behind the closing one. A closing bracket right
at the start of a class belongs to the class. -/
def characterClass? : Text → Option (Wildcard × Text)
  | '!' :: first :: rest =>
    match rest.dropWhile (· != ']') with
    | [] => none
    | _ :: after => some (.outside (classParts (first :: rest.takeWhile (· != ']'))), after)
  | '!' :: [] => none
  | first :: rest =>
    match rest.dropWhile (· != ']') with
    | [] => none
    | _ :: after => some (.within (classParts (first :: rest.takeWhile (· != ']'))), after)
  | [] => none

theorem length_characterClass_lt {s after : Text} {w : Wildcard}
    (h : characterClass? s = some (w, after)) : after.length < s.length := by
  unfold characterClass? at h
  split at h
  · rename_i first rest
    split at h
    · exact absurd h (by simp)
    · rename_i closing after' hdrop
      simp only [Option.some.injEq, Prod.mk.injEq] at h
      have := (List.dropWhile_suffix (· != ']') (l := rest)).length_le
      rw [hdrop, h.2] at this
      simp only [List.length_cons] at this ⊢
      omega
  · exact absurd h (by simp)
  · rename_i first rest _ _
    split at h
    · exact absurd h (by simp)
    · rename_i closing after' hdrop
      simp only [Option.some.injEq, Prod.mk.injEq] at h
      have := (List.dropWhile_suffix (· != ']') (l := rest)).length_le
      rw [hdrop, h.2] at this
      simp only [List.length_cons] at this ⊢
      omega
  · exact absurd h (by simp)

/-- Reads a pattern from the place `position`, where `previous` is the character before it. Two
stars must fill the piece that they are in; a slash behind them belongs to them. -/
def Pattern.parseFrom (position : Nat) (previous : Option Char) :
    Text → Except PatternError Pattern
  | [] => .ok []
  | c :: rest =>
    if c = '?' then (parseFrom (position + 1) (some c) rest).map (.anyCharacter :: ·)
    else if c = '*' then
      match rest with
      | '*' :: '*' :: _ => .error ⟨position + 2, .tooManyStars⟩
      | '*' :: after =>
        if previous.all (· == '/') then
          match after with
          | [] => .ok [.anyDepth]
          | '/' :: after => (parseFrom (position + 3) (some '/') after).map (.anyDepth :: ·)
          | _ :: _ => .error ⟨position + 2, .crowdedStars⟩
        else .error ⟨position - 1, .crowdedStars⟩
      | after => (parseFrom (position + 1) (some c) after).map (.anyText :: ·)
    else if c = '[' then
      match h : characterClass? rest with
      | none => .error ⟨position, .openClass⟩
      | some (w, after) =>
        have : after.length ≤ rest.length := Nat.le_of_lt (length_characterClass_lt h)
        (parseFrom (position + ((c :: rest).length - after.length)) (some ']') after).map (w :: ·)
    else (parseFrom (position + 1) (some c) rest).map (.exactly c :: ·)
termination_by s => s.length

/-- Reads a pattern. -/
def Pattern.parse (s : Text) : Except PatternError Pattern := Pattern.parseFrom 0 none s

-- ── Matching ─────────────────────────────────────────────────────────────────

/-- A character belongs to a part of a class. -/
def ClassPart.holds (c : Char) : ClassPart → Bool
  | .single d => c == d
  | .range first last => first ≤ c && c ≤ last

/-- A character fits a part of a pattern. -/
def Wildcard.fits (c : Char) : Wildcard → Bool
  | .exactly d => c == d
  | .anyCharacter => true
  | .within parts => parts.any (ClassPart.holds c)
  | .outside parts => !parts.any (ClassPart.holds c)
  | .anyText => false
  | .anyDepth => false

/-- The ends of a text, the longest first. -/
def Text.ends : Text → List Text
  | [] => [[]]
  | c :: rest => (c :: rest) :: ends rest

/-- What is left of a text behind a part of a pattern that stands for one character. -/
def Wildcard.takeOne? (w : Wildcard) : Text → Option Text
  | [] => none
  | c :: rest => if w.fits c then some rest else none

/-- What can be left behind a part of a pattern, where `rests` can be left before it. Each of `rests`
is an end of those before it, so that any text leaves the ends of the first. -/
def Wildcard.advance (rests : List Text) : Wildcard → List Text
  | .anyText | .anyDepth =>
    match rests with
    | [] => []
    | longest :: _ => Text.ends longest
  | w => rests.filterMap w.takeOne?

/-- What can be left behind a pattern, where `rests` can be left before it. -/
def Pattern.advance (pattern : Pattern) (rests : List Text) : List Text :=
  pattern.foldl Wildcard.advance rests

/-- A name matches a pattern: nothing can be left of it. -/
def Pattern.isMatch (pattern : Pattern) (s : Text) : Bool :=
  (pattern.advance [s]).any List.isEmpty

/-- The text that a pattern stands for, if it has no wildcards. -/
def Pattern.literal? : Pattern → Option Text
  | [] => some []
  | .exactly c :: rest => (literal? rest).map (c :: ·)
  | _ :: _ => none

-- ── Matching part by part ────────────────────────────────────────────────────

theorem Text.mem_ends {r s : Text} : r ∈ Text.ends s ↔ r <:+ s := by
  induction s with
  | nil => simp [ends]
  | cons c s ih => simp [ends, ih, List.suffix_cons_iff]

/-- Each text is an end of those before it. -/
def Nested (rests : List Text) : Prop := rests.Pairwise fun longer shorter => shorter <:+ longer

theorem nested_singleton (s : Text) : Nested [s] := List.pairwise_singleton _ s

theorem nested_ends (s : Text) : Nested (Text.ends s) := by
  induction s with
  | nil => exact nested_singleton []
  | cons c s ih =>
    refine List.pairwise_cons.2 ⟨fun r hr => ?_, ih⟩
    exact (Text.mem_ends.1 hr).trans (List.suffix_cons c s)

theorem suffix_of_takeOne {w : Wildcard} {longer shorter s t : Text} (h : shorter <:+ longer)
    (hs : w.takeOne? longer = some s) (ht : w.takeOne? shorter = some t) : t <:+ s := by
  cases longer with
  | nil => exact absurd hs (by simp [Wildcard.takeOne?])
  | cons c longer =>
    cases shorter with
    | nil => exact absurd ht (by simp [Wildcard.takeOne?])
    | cons d shorter =>
      simp only [Wildcard.takeOne?, Option.ite_none_right_eq_some, Option.some.injEq] at hs ht
      rw [← hs.2, ← ht.2]
      rcases List.suffix_cons_iff.1 h with heq | hsuffix
      · exact (List.cons.inj heq).2 ▸ List.suffix_rfl
      · exact (List.suffix_cons d shorter).trans hsuffix

theorem nested_filterMap_takeOne {rests : List Text} (w : Wildcard) (h : Nested rests) :
    Nested (rests.filterMap w.takeOne?) := by
  refine List.pairwise_filterMap.2 (h.imp fun {longer shorter} hsuffix => ?_)
  intro s hs t ht
  exact suffix_of_takeOne hsuffix hs ht

theorem Wildcard.nested_advance {rests : List Text} (w : Wildcard) (h : Nested rests) :
    Nested (w.advance rests) := by
  unfold Wildcard.advance
  split
  · cases rests with
    | nil => exact h
    | cons longest _ => exact nested_ends longest
  · cases rests with
    | nil => exact h
    | cons longest _ => exact nested_ends longest
  · exact nested_filterMap_takeOne w h

/-- The ends of the first of nested texts are those of all of them. -/
theorem any_ends_head {longest : Text} {rests : List Text} (h : Nested (longest :: rests))
    (p : Text → Bool) :
    (Text.ends longest).any p = (longest :: rests).any fun s => (Text.ends s).any p := by
  rw [Bool.eq_iff_iff, List.any_eq_true, List.any_eq_true]
  constructor
  · intro hfound
    exact ⟨longest, List.mem_cons_self, List.any_eq_true.2 hfound⟩
  · rintro ⟨s, hs, hfound⟩
    obtain ⟨r, hr, hp⟩ := List.any_eq_true.1 hfound
    refine ⟨r, Text.mem_ends.2 ?_, hp⟩
    rcases List.mem_cons.1 hs with rfl | hs
    · exact Text.mem_ends.1 hr
    · exact (Text.mem_ends.1 hr).trans ((List.pairwise_cons.1 h).1 s hs)

theorem Wildcard.any_advance {rests : List Text} (w : Wildcard) (h : Nested rests)
    (p : Text → Bool) :
    (w.advance rests).any p = rests.any fun s => (w.advance [s]).any p := by
  unfold Wildcard.advance
  split
  · cases rests with
    | nil => rfl
    | cons longest rests => exact any_ends_head h p
  · cases rests with
    | nil => rfl
    | cons longest rests => exact any_ends_head h p
  · rw [List.any_filterMap]
    congr 1
    funext s
    cases h : w.takeOne? s <;> simp [h]

/-- A pattern leaves what it leaves of one of the texts. -/
theorem Pattern.any_advance (pattern : Pattern) {rests : List Text} (h : Nested rests) :
    (pattern.advance rests).any List.isEmpty = rests.any pattern.isMatch := by
  induction pattern generalizing rests with
  | nil =>
    have hnone : Pattern.isMatch [] = List.isEmpty := by
      funext s
      simp [Pattern.isMatch, Pattern.advance]
    rw [hnone]
    rfl
  | cons w pattern ih =>
    have hstep : ∀ s : Text, Pattern.isMatch (w :: pattern) s
        = (w.advance [s]).any (Pattern.isMatch pattern) := fun s =>
      ih (w.nested_advance (nested_singleton s))
    have hall : (Pattern.advance (w :: pattern) rests).any List.isEmpty
        = (w.advance rests).any (Pattern.isMatch pattern) := ih (w.nested_advance h)
    rw [hall, w.any_advance h]
    congr 1
    funext s
    exact (hstep s).symm

/-- Matching goes on, behind the first part of a pattern, with one of the texts it leaves. -/
theorem Pattern.isMatch_cons (w : Wildcard) (pattern : Pattern) (s : Text) :
    Pattern.isMatch (w :: pattern) s = (w.advance [s]).any pattern.isMatch :=
  pattern.any_advance (w.nested_advance (nested_singleton s))

/-- Any text and then a pattern: the pattern matches an end. -/
theorem Pattern.isMatch_anyText (pattern : Pattern) (s : Text) :
    Pattern.isMatch (.anyText :: pattern) s = (Text.ends s).any pattern.isMatch :=
  pattern.isMatch_cons .anyText s

-- ── Patterns for paths ───────────────────────────────────────────────────────

/-- A pattern for paths: from the root or not, a pattern for each piece, and whether only
directories are meant. -/
structure PathPattern where
  fromRoot : Bool
  pieces : List Pattern
  directoriesOnly : Bool
deriving DecidableEq, Repr

/-- The pieces of a text between slashes; an empty piece at the end does not count. -/
def slashPieces (s : Text) : List Text :=
  let pieces := s.splitOn '/'
  if pieces.getLast? = some [] then pieces.dropLast else pieces

/-- Reads a pattern for paths. -/
def PathPattern.parse (s : Text) : Except PatternError PathPattern :=
  match Pattern.parse s with
  | .error e => .error e
  | .ok _ =>
    let fromRoot := s.head? == some '/'
    match (slashPieces (if fromRoot then s.drop 1 else s)).mapM Pattern.parse with
    | .error e => .error e
    | .ok pieces => .ok ⟨fromRoot, pieces, s.getLast? == some '/'⟩

end TaskRunner
