import TaskRunner.Proofs.EchoWords

/-! # A built-in echo and the fields of a shell

    A shell cuts a command line into fields, and its `echo` prints the fields behind the first
    one with a space between two.  Blanks outside of quotes separate fields; a quoted part is
    one even if it is empty; a value outside of quotes is cut at its blanks, and its first and
    last piece join what stands next to it.  `lineFields` is this reading.

    A line without dollar signs of its own has nothing left to expand, so the built-in echo
    prints its fields.  It differs from a shell in two ways: **what runs on from the word `echo`
    is printed as if it were an argument, and empty arguments at the start are not printed**
    (`Command.echo_prints_fields`). -/

namespace TaskRunner

namespace Mark

/-- The characters that a mark stands for. -/
def text : Mark → Text
  | .blank | .opening => []
  | .bare c | .double c | .value c => [c]
  | .literal s => s

/-- The fields of a line. -/
def fields (marks : List Mark) : List Text := (words marks).map fun word => word.flatMap text

/-- The marks of a word are marks of the line. -/
theorem mem_of_mem_words {marks word : List Mark} (hword : word ∈ words marks) {m : Mark}
    (hm : m ∈ word) : m ∈ marks := by
  have hpiece := (List.mem_filter.mp hword).1
  clear hword
  induction marks generalizing word with
  | nil =>
      cases List.mem_singleton.mp hpiece
      exact hm
  | cons first marks ih =>
      rw [List.splitOnP_cons_eq_if_modifyHead] at hpiece
      split at hpiece
      · rcases List.mem_cons.mp hpiece with rfl | hpiece
        · cases hm
        · exact List.mem_cons_of_mem _ (ih hm hpiece)
      · obtain ⟨pieces, hsplit, -⟩ := splitOnP_eq marks
        rw [hsplit] at hpiece ih
        rcases List.mem_cons.mp hpiece with rfl | hpiece
        · rcases List.mem_cons.mp hm with rfl | hm
          · exact List.mem_cons_self
          · exact List.mem_cons_of_mem _ (ih hm List.mem_cons_self)
        · exact List.mem_cons_of_mem _ (ih hm (List.mem_cons_of_mem _ hpiece))

/-- No reference starts at the mark. -/
def startsNone (m : Mark) : Bool := m != .bare '$' && m != .double '$'

/-- A word without dollar signs is spoken as it is. -/
theorem spoken_of_startsNone {word : List Mark} (h : word.all startsNone = true)
    {waiting : Text} (hwaiting : '$' ∉ waiting) (lookup : Lookup) :
    spoken lookup waiting word = waiting ++ word.flatMap text := by
  induction word generalizing waiting with
  | nil => rw [List.flatMap_nil, List.append_nil]; exact Text.expand_of_plain hwaiting lookup
  | cons m word ih =>
      obtain ⟨hm, hword⟩ := Bool.and_eq_true_iff.mp h
      cases m with
      | blank | opening => exact ih hword hwaiting
      | bare c | double c =>
          have hc : c ≠ '$' := by rintro rfl; cases hm
          have hmore : '$' ∉ waiting ++ [c] := by simp [hwaiting, hc.symm]
          rw [spoken, ih hword hmore, List.append_assoc]
          rfl
      | value c | literal s =>
          rw [spoken, Text.expand_of_plain hwaiting, ih hword List.not_mem_nil]
          rfl

end Mark

/-- The fields that a shell makes of the elements of a line; `none` if a quote is left open. -/
def lineFields (lookup : Lookup) (es : List Element) : Option (List Text) :=
  match readElements lookup .bare es with
  | some (marks, .bare) => some (Mark.fields marks)
  | _ => none

/-! ## Lines without dollar signs -/

theorem readText_startsNone {quoting behind : Quoting} {s : Text} {marks : List Mark}
    (h : readText quoting s = some (marks, behind)) (hs : '$' ∉ s) :
    marks.all Mark.startsNone = true := by
  fun_induction readText quoting s generalizing marks with
  | case1 => cases h; rfl
  | case5 => cases h; rfl
  | case11 => cases h
  | case2 rest ih | case4 rest ih => exact ih h fun hmem => hs (List.mem_cons_of_mem _ hmem)
  | case7 d rest _ _ ih =>
      obtain ⟨more, hmore, rfl⟩ := MarkReading.after_eq_some_iff.mp h
      simp only [List.mem_cons, not_or] at hs
      rw [List.all_append, ih hmore hs.2.2]
      simp [Mark.startsNone, Ne.symm hs.2.1]
  | _ =>
      rename_i ih
      obtain ⟨more, hmore, rfl⟩ := MarkReading.after_eq_some_iff.mp h
      simp only [List.mem_cons, not_or] at hs
      rw [List.all_append, ih hmore (by simp only [hs, not_false_eq_true])]
      simp [Mark.startsNone, Ne.symm hs.1]

theorem readElements_startsNone {lookup : Lookup} {quoting behind : Quoting} {es : List Element}
    {marks : List Mark} (h : readElements lookup quoting es = some (marks, behind))
    (hes : ∀ s, .text s ∈ es → '$' ∉ s.toList) : marks.all Mark.startsNone = true := by
  induction es generalizing quoting marks with
  | nil => cases h; rfl
  | cons e es ih =>
      rw [readElements] at h
      obtain ⟨⟨first, within⟩, hfirst, hrest⟩ := Option.bind_eq_some_iff.mp h
      obtain ⟨more, hmore, rfl⟩ := MarkReading.after_eq_some_iff.mp hrest
      rw [List.all_append, ih hmore fun s hs => hes s (List.mem_cons_of_mem _ hs), Bool.and_true]
      have hvalue : ∀ v, (readValue quoting v).all Mark.startsNone = true := by
        intro v
        rw [readValue]
        split
        · refine List.all_map.trans (List.all_eq_true.mpr fun c _ => ?_)
          rw [Function.comp_apply, Mark.ofValue]
          split <;> rfl
        · rfl
      cases e with
      | text s => exact readText_startsNone hfirst (hes s List.mem_cons_self)
      | «variable» name =>
          rw [readElement] at hfirst
          split at hfirst <;> cases hfirst
          · rfl
          · exact hvalue _
      | backtick command => cases hfirst
      | expression e => cases hfirst; exact hvalue _

/-! ## What is printed -/

theorem length_joined_cons (text : Text) (texts : List Text) :
    (joined (text :: texts)).length
      = text.length + (if texts = [] then 0 else 1 + (joined texts).length) := by
  cases texts with
  | nil => simp [joined]
  | cons more texts =>
      rw [joined_cons_cons, List.length_append, List.length_cons, if_neg (List.cons_ne_nil _ _)]
      omega

theorem length_joined_dropWhile_le (texts : List Text) :
    (joined (texts.dropWhile List.isEmpty)).length ≤ (joined texts).length := by
  induction texts with
  | nil => exact Nat.le_refl _
  | cons text texts ih =>
      rw [List.dropWhile_cons]
      split
      · rw [length_joined_cons]
        by_cases htexts : texts = []
        · subst htexts
          exact Nat.zero_le _
        · rw [if_neg htexts]
          omega
      · exact Nat.le_refl _

/-- What is printed is what a shell prints, unless something runs on from the first field, or the
second one is empty and not the last. -/
theorem joined_dropWhile_eq_iff (ran : Text) (args : List Text) :
    joined ((ran :: args).dropWhile List.isEmpty) = joined args
      ↔ ran = [] ∧ (args.head? ≠ some [] ∨ args = [[]]) := by
  cases ran with
  | cons c ran =>
      refine ⟨fun h => ?_, fun h => nomatch h.1⟩
      have hlength := congrArg List.length h
      rw [List.dropWhile_cons_of_neg Bool.false_ne_true, length_joined_cons] at hlength
      by_cases hargs : args = []
      · subst hargs
        cases hlength
      · rw [if_neg hargs, List.length_cons] at hlength
        omega
  | nil =>
      rw [List.dropWhile_cons_of_pos rfl]
      rcases args with _ | ⟨_ | ⟨c, arg⟩, args⟩
      · exact ⟨fun _ => ⟨rfl, .inl nofun⟩, fun _ => rfl⟩
      · rw [List.dropWhile_cons_of_pos rfl]
        by_cases hargs : args = []
        · subst hargs
          exact ⟨fun _ => ⟨rfl, .inr rfl⟩, fun _ => rfl⟩
        · refine ⟨fun h => ?_, fun h => ?_⟩
          · have hlength := congrArg List.length h
            have hle := length_joined_dropWhile_le args
            rw [length_joined_cons, if_neg hargs] at hlength
            omega
          · obtain ⟨-, h | h⟩ := h
            · exact absurd rfl h
            · exact absurd (List.cons.inj h).2 hargs
      · refine ⟨fun _ => ⟨rfl, .inl fun h => by cases h⟩, fun _ => ?_⟩
        rw [List.dropWhile_cons_of_neg Bool.false_ne_true]

namespace Command

/-- **A LINE WITHOUT DOLLAR SIGNS IS PRINTED AS ITS FIELDS**, but for empty ones at the start, and
with what runs on from the word `echo` as a field of its own. So it is what a shell prints exactly
if nothing runs on and the first argument is not empty or the only one. -/
theorem echo_prints_fields {lookup : Lookup} {command : Command} {t : String}
    (hplain : ∀ s, .text s ∈ command.elements → '$' ∉ s.toList)
    (h : command.echo lookup = some t) :
    ∃ ran args, lineFields lookup command.elements = some (("echo".toList ++ ran) :: args)
      ∧ t.toList = joined ((ran :: args).dropWhile List.isEmpty)
      ∧ (t.toList = joined args ↔ ran = [] ∧ (args.head? ≠ some [] ∨ args = [[]])) := by
  obtain ⟨-, -, marks, hread, -, ran, args, hwords, rfl⟩ := echo_eq_some_iff.mp h
  have hstarts := readElements_startsNone hread hplain
  have hfields : Mark.fields marks = (Mark.words marks).map (Mark.spoken lookup []) := by
    refine List.map_congr_left fun word hword => ?_
    have hall : word.all Mark.startsNone = true := List.all_eq_true.mpr fun m hm =>
      List.all_eq_true.mp hstarts m (Mark.mem_of_mem_words hword hm)
    rw [Mark.spoken_of_startsNone hall List.not_mem_nil]
    rfl
  refine ⟨ran, args, ?_, ?_, ?_⟩
  · simp only [lineFields, hread, hfields, hwords]
  · exact String.toList_ofList
  · rw [String.toList_ofList, joined_dropWhile_eq_iff]

/-- What stands directly behind the word `echo` runs on from it, and is printed all the same. -/
example : (Command.echo (fun _ => some "world") ⟨[.text "echo", .variable "name"], true, false⟩)
    = some "world" := by
  decide +kernel

/-- A line with a quoted part, and a value that is cut at its blanks. -/
def greeting : Command :=
  ⟨[.text "echo 'a  b' ", .variable "name"], true, false⟩

theorem greeting_prints_fields :
    (greeting.echo fun _ => some "1  2") = some "a  b 1 2"
      ∧ ∃ ran args,
        lineFields (fun _ => some "1  2") greeting.elements = some (("echo".toList ++ ran) :: args)
          ∧ "a  b 1 2".toList = joined ((ran :: args).dropWhile List.isEmpty)
          ∧ ("a  b 1 2".toList = joined args
            ↔ ran = [] ∧ (args.head? ≠ some [] ∨ args = [[]])) := by
  have hecho : (greeting.echo fun _ => some "1  2") = some "a  b 1 2" := by decide +kernel
  exact ⟨hecho, echo_prints_fields (by simp [greeting]) hecho⟩

/-- A line whose first argument is empty. -/
def emptyFirst : Command := ⟨[.text "echo '' x"], true, false⟩

/-- Not every line is printed as a shell prints it: an empty first argument leaves no trace, where a
shell prints the space behind it. -/
theorem empty_arguments_are_lost :
    ¬ ∀ (lookup : Lookup) (command : Command) (t : String),
      (∀ s, .text s ∈ command.elements → '$' ∉ s.toList) → command.echo lookup = some t →
        ∃ args, lineFields lookup command.elements = some ("echo".toList :: args)
          ∧ t.toList = joined args := by
  intro hall
  have hecho : (emptyFirst.echo fun _ => none) = some "x" := by decide +kernel
  have hfields : lineFields (fun _ => none) emptyFirst.elements
      = some ["echo".toList, [], "x".toList] := by decide +kernel
  obtain ⟨args, hargs, hjoined⟩ := hall _ emptyFirst "x" (by simp [emptyFirst]) hecho
  rw [hfields] at hargs
  cases hargs
  exact absurd hjoined (by decide)

end Command

end TaskRunner
