import TaskRunner.Proofs.BracedExpressions
import TaskRunner.Proofs.EchoWords
import TaskRunner.Run.Valuation

/-! # Quoted literals

    What stands between two quotes is a row of **`QuotedUnit`**s: characters that stand for
    themselves, and backslashes with the character behind each.  The scanner that looks for
    the closing quote goes through the same units (`isQuoted_iff`) as the reader of escapes,
    which takes each unit for what it means and then goes on with the next
    (`unescape_append`).  So neither of them ever takes the second half of a pair for its
    first, and none is left with half a pair at the end.

    A text that was escaped is such a row, and it means the text that it was made of.  Hence
    **`quoted_literals_round_trip`**: every string can be written in quotes, in an expression
    and, if it refers to nothing, as the value of a variable. -/

namespace TaskRunner

namespace Text

/-! ## Units of a quoted text -/

/-- A character that stands for itself, or a backslash with the character behind it. -/
inductive QuotedUnit
  | plain (c : Char)
  | pair (c : Char)

namespace QuotedUnit

/-- A unit as it is written. -/
def text : QuotedUnit → Text
  | plain c => [c]
  | pair c => ['\\', c]

/-- What a unit means: a pair that is no escape means its two characters. -/
def meaning : QuotedUnit → Text
  | plain c => [c]
  | pair c => (escaped? c).elim ['\\', c] fun meant => [meant]

/-- A character that stands for itself is no backslash, and it does not close the quotes. -/
def Fits (mark : Char) : QuotedUnit → Prop
  | plain c => c ≠ '\\' ∧ c ≠ mark
  | pair _ => True

end QuotedUnit

open QuotedUnit

/-- **THE SCANNER GOES THROUGH UNITS**: what may stand between two marks is a row of them. -/
theorem isQuoted_iff {mark : Char} {s : Text} : IsQuoted mark s ↔
    ∃ units : List QuotedUnit, (∀ unit ∈ units, unit.Fits mark) ∧ s = units.flatMap text := by
  constructor
  · intro h
    induction h with
    | nil => exact ⟨[], List.forall_mem_nil _, rfl⟩
    | escaped c _ ih =>
        obtain ⟨units, hfit, rfl⟩ := ih
        exact ⟨.pair c :: units, List.forall_mem_cons.mpr ⟨trivial, hfit⟩, rfl⟩
    | plain hescape hclose _ ih =>
        obtain ⟨units, hfit, rfl⟩ := ih
        exact ⟨.plain _ :: units, List.forall_mem_cons.mpr ⟨⟨hescape, hclose⟩, hfit⟩, rfl⟩
  · rintro ⟨units, hfit, rfl⟩
    induction units with
    | nil => exact .nil
    | cons unit units ih =>
        obtain ⟨hunit, hunits⟩ := List.forall_mem_cons.mp hfit
        cases unit with
        | plain c => exact .plain hunit.1 hunit.2 (ih hunits)
        | pair c => exact .escaped c (ih hunits)

theorem unescape_pair (c : Char) (rest : Text) :
    unescape ('\\' :: c :: rest) = (pair c).meaning ++ unescape rest := by
  rw [unescape, if_pos rfl, meaning]
  cases escaped? c <;> rfl

/-- **THE READER OF ESCAPES GOES THROUGH UNITS** too, and then on with what stands behind them. -/
theorem unescape_append {mark : Char} {units : List QuotedUnit}
    (h : ∀ unit ∈ units, unit.Fits mark) (rest : Text) :
    unescape (units.flatMap text ++ rest) = units.flatMap meaning ++ unescape rest := by
  induction units with
  | nil => rfl
  | cons unit units ih =>
      obtain ⟨hunit, hunits⟩ := List.forall_mem_cons.mp h
      rw [List.flatMap_cons, List.flatMap_cons, List.append_assoc, List.append_assoc, ← ih hunits]
      cases unit with
      | plain c => exact unescape_cons_of_ne hunit.1 _
      | pair c => exact unescape_pair c _

/-! ## Escaped texts -/

/-- What is escaped may stand between quotes. -/
theorem isQuoted_escape (s : Text) : IsQuoted '"' (escape s) := by
  induction s with
  | nil => exact .nil
  | cons c s ih =>
      rw [escape]
      split
      · exact .escaped '"' ih
      · rename_i hquote
        split
        · exact .escaped '\\' ih
        · rename_i hbackslash
          split
          · exact .escaped 'n' ih
          · split
            · exact .escaped 't' ih
            · exact .plain hbackslash hquote ih

end Text

open Text

/-- What a cursor finds between two marks is what the scanner finds. -/
theorem Cursor.isQuoted_of_quoted {mark : Char} (hmark : mark ≠ '\\') {c : Cursor} {inside : Text}
    (h : (c.quoted mark).1 = .ok inside) : IsQuoted mark inside := by
  unfold Cursor.quoted at h
  split at h
  · cases h
  · split at h
    · split at h
      · rename_i hspan
        obtain rfl := Except.ok.inj h
        exact ((quotedSpan_eq_some_iff hmark).mp hspan).1
      · cases h
    · cases h

/-- A quoted text that is all there is does not begin a block of lines. -/
theorem eat_quotes_of_isQuoted {inside : Text} (h : IsQuoted '"' inside) :
    eat ['"', '"', '"'] ('"' :: (inside ++ ['"'])) = none := by
  cases h with
  | nil => rfl
  | escaped c _ => rfl
  | plain _ hclose _ =>
      rw [eat, if_pos rfl, List.cons_append, eat, if_neg (Ne.symm hclose)]

/-- A quoted text is a value as it is written. -/
theorem Item.value_quoted {inside : Text} (h : IsQuoted '"' inside) :
    Item.value ('"' :: (inside ++ ['"'])) = .ok (.literal (String.ofList inside), []) := by
  have hspan : quotedSpan '"' (inside ++ ['"']) = some (inside, []) :=
    (quotedSpan_eq_some_iff (by decide)).mpr ⟨h, rfl⟩
  rw [Item.value, eat_quotes_of_isQuoted h]
  show Item.quotedString _ (inside ++ ['"']) = _
  rw [Item.quotedString, hspan]

/-- A quoted text is an expression, and means what its units mean. -/
theorem Expression.parse_quoted {inside : Text} (h : IsQuoted '"' inside) :
    Expression.parse ('"' :: (inside ++ ['"']))
      = .ok (.literal (String.ofList (unescape inside))) := by
  let chain : Chain := ⟨⟨[], .string inside, []⟩, []⟩
  have hchain : chain.Fits :=
    ⟨⟨List.forall_mem_nil _, h, List.forall_mem_nil _⟩, List.forall_mem_nil _⟩
  have htext : chain.text = '"' :: (inside ++ ['"']) := by
    show [] ++ ('"' :: (inside ++ ['"']) ++ []) ++ [] = _
    rw [List.nil_append, List.append_nil, List.append_nil]
  have hread := read_text hchain
  rw [htext] at hread
  rw [Expression.parse, hread]
  rfl

/-- The value of a quoted text without references is what its units mean. -/
theorem Value.evaluate_literal {σ : Type} (host : Host σ) (ctx : Context) (world : σ) {s : Text}
    (h : '$' ∉ unescape s) : (Value.literal (String.ofList s)).evaluate host ctx world
      = ⟨String.ofList (unescape s), world, []⟩ := by
  rw [Value.evaluate, String.toList_ofList, expanded, String.toList_ofList, expand_of_plain h]

/-! ## Every string can be written in quotes -/

/-- A string between quotes, escaped. -/
def quoted (s : String) : String := "\"" ++ String.ofList (escape s.toList) ++ "\""

theorem toList_quoted (s : String) : (quoted s).toList = '"' :: (escape s.toList ++ ['"']) := by
  simp [quoted]

/-- **QUOTED LITERALS**: a string that is escaped and put between quotes is read as an expression,
    which is the string again.  A variable with the value in quotes is a whole file, and if
    the string has no dollar sign, then the value of the variable is the string in every
    context.  And whatever a cursor finds between quotes is a row of units: the reader of
    escapes goes through it unit by unit, a backslash always with the character behind it,
    and comes to its end with no half of a pair, whatever stands behind it. -/
theorem quoted_literals_round_trip :
    (∀ s : String, Expression.parse (quoted s).toList = .ok (.literal s)) ∧
    (∀ word s : String, IsWord word.toList →
      let value := Value.literal (String.ofList (escape s.toList))
      TaskFile.parse (word ++ " = " ++ quoted s) = .ok { vars := [⟨word, value⟩] } ∧
        ('$' ∉ s.toList → ∀ (σ : Type) (host : Host σ) (ctx : Context) (world : σ),
          value.evaluate host ctx world = ⟨s, world, []⟩)) ∧
    ∀ (c : Cursor) (inside : Text), (c.quoted '"').1 = .ok inside →
      ∃ units : List QuotedUnit, (∀ unit ∈ units, unit.Fits '"') ∧
        inside = units.flatMap QuotedUnit.text ∧
        ∀ rest, unescape (inside ++ rest) = units.flatMap QuotedUnit.meaning ++ unescape rest := by
  refine ⟨fun s => ?_, fun word s hword => ?_, fun c inside h => ?_⟩
  · rw [toList_quoted, Expression.parse_quoted (isQuoted_escape _), unescape_escape,
      String.ofList_toList]
  · refine ⟨?_, fun hplain σ host ctx world => ?_⟩
    · refine TaskFile.parse_assigned hword rfl (Item.value_quoted (isQuoted_escape s.toList)) ?_
      rw [String.toList_append, String.toList_append, toList_quoted, List.append_assoc]
      rfl
    · rw [Value.evaluate_literal host ctx world (by rwa [unescape_escape]), unescape_escape,
        String.ofList_toList]
  · obtain ⟨units, hfit, rfl⟩ := isQuoted_iff.mp (Cursor.isQuoted_of_quoted (by decide) h)
    exact ⟨units, hfit, rfl, unescape_append hfit⟩

/-- A quote, the characters that have an escape, and a backslash in front of the closing quote. -/
def awkward : String := "a \"\n\t\\"

/-- The same between quotes. -/
def awkwardInside : String := "a \\\"\\n\\t\\\\"

/-- It is a literal, the value of a variable, and what a cursor finds is a row of units. -/
theorem awkward_round_trip :
    quoted awkward = "\"" ++ awkwardInside ++ "\"" ∧
      Expression.parse (quoted awkward).toList = .ok (.literal awkward) ∧
      TaskFile.parse ("X" ++ " = " ++ quoted awkward)
        = .ok { vars := [⟨"X", .literal awkwardInside⟩] } ∧
      (∀ (host : Host Unit) (ctx : Context),
        (Value.literal awkwardInside).evaluate host ctx () = ⟨awkward, (), []⟩) ∧
      ((Cursor.new (quoted awkward).toList).quoted '"').1 = .ok awkwardInside.toList ∧
      ∃ units : List QuotedUnit, awkwardInside.toList = units.flatMap QuotedUnit.text ∧
        ∀ rest, unescape (awkwardInside.toList ++ rest)
          = units.flatMap QuotedUnit.meaning ++ unescape rest := by
  have hword : IsWord "X".toList := ⟨by decide, List.all_eq_true.mp (by decide)⟩
  have hplain : '$' ∉ awkward.toList := by decide
  have hfound : ((Cursor.new (quoted awkward).toList).quoted '"').1 = .ok awkwardInside.toList := by
    cbv
  obtain ⟨hliteral, hvariable, hspan⟩ := quoted_literals_round_trip
  obtain ⟨hparse, hvalue⟩ := hvariable "X" awkward hword
  obtain ⟨units, -, htext, hmeaning⟩ := hspan _ _ hfound
  exact ⟨by decide, hliteral awkward, hparse, fun host ctx => hvalue hplain Unit host ctx (),
    hfound, units, htext, hmeaning⟩

end TaskRunner
