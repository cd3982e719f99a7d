import Mathlib.Data.List.Basic
import TaskRunner.Options

/-! # Verbosity before the options are read

    Whether a command line asks to be verbose is looked up before its options are read, by a
    scan that knows less of them than the reader does.  Scan and reader go through the
    arguments side by side: behind each one, what the scan was told (`VerboseHint`) is what
    the reader did (**`Heeds`**), that the flag is set, that a value is waited for, or neither
    (`heeds_word`, `heeds_letters`).  A value that is waited for is skipped by the scan, and
    the reader accepts it only if it is no option itself.

    They come apart in two places.  Letters with a file among them that ends in an `f`
    (**`EndsInFile`**) have their value with them, but the scan skips an argument for it; and
    from the first task on the scan goes on, if that task looks like an option.  So
    **`verbosity_is_foreseen`**: without such letters the scan tells what the reader will
    set, or what the tasks seem to ask for; and nothing but the former, if the first task does
    not look like an option. -/

namespace TaskRunner

/-! ## The scan -/

/-- One step of the scan. -/
theorem asksVerbose_cons (argument : String) (rest : List String) :
    asksVerbose (argument :: rest) =
      match VerboseHint.ofArgument argument with
      | .wanted => true
      | .takesNext => asksVerbose rest.tail
      | .nothing => asksVerbose rest
      | .ends => false := by
  rw [asksVerbose.eq_def]
  dsimp only
  generalize VerboseHint.ofArgument argument = hint
  cases hint with
  | takesNext => cases rest <;> rfl
  | wanted | nothing | ends => rfl

namespace Options

variable {options options' : Options}

/-! ## What the options read so far keep -/

/-- Whether to be verbose and which tasks there are is as it was. -/
structure Keeps (options options' : Options) : Prop where
  verbose : options'.verbose = options.verbose
  tasks : options'.tasks = options.tasks

theorem Keeps.refl (options : Options) : options.Keeps options := ⟨rfl, rfl⟩

theorem Keeps.trans {options'' : Options} (h : options.Keeps options')
    (h' : options'.Keeps options'') : options.Keeps options'' :=
  ⟨h'.verbose.trans h.verbose, h'.tasks.trans h.tasks⟩

theorem keeps_withValue {value : String} {setting : Setting}
    (h : options.withValue value setting = .ok options') : options.Keeps options' := by
  cases setting with
  | file =>
      rw [withValue] at h
      split at h
      · cases h
      · cases h
        exact ⟨rfl, rfl⟩
  | dump =>
      rw [withValue] at h
      split at h
      · cases h
        exact ⟨rfl, rfl⟩
      · split at h
        · cases h
          exact ⟨rfl, rfl⟩
        · cases h
  | completions =>
      rw [withValue] at h
      split at h
      · cases h
        exact ⟨rfl, rfl⟩
      · cases h

theorem keeps_addValue {value : String} {setting : Setting}
    (h : options.addValue setting value = .ok options') : options.Keeps options' := by
  rw [addValue] at h
  split at h
  · cases h
  · exact keeps_withValue h

/-- A flag is added to those there are. -/
theorem of_addFlag {flag : Flag} (h : options.addFlag flag = .ok options') :
    options'.verbose = (options.verbose || flag == .verbose) ∧ options'.tasks = options.tasks := by
  rw [addFlag] at h
  split at h
  · cases h
  · cases h
    cases flag <;> simp [set]

/-! ## What the reader does with an option -/

namespace Reading

variable {r r' : Reading}

/-- A value is waited for. -/
def Waits (r : Reading) : Prop := ∃ setting, r.pending = some (setting, none)

theorem of_settle (h : r.settle = .ok options) : ¬ r.Waits ∧ r.options.Keeps options := by
  rw [settle] at h
  split at h
  · rename_i hpending
    cases h
    refine ⟨?_, .refl _⟩
    rintro ⟨setting, hwaits⟩
    cases hpending.symm.trans hwaits
  · cases h
  · rename_i hpending
    refine ⟨?_, keeps_addValue h⟩
    rintro ⟨setting, hwaits⟩
    cases hpending.symm.trans hwaits

theorem of_bind {α β : Type} {x : Except OptionError α} {f : α → Except OptionError β} {b : β}
    (h : x >>= f = .ok b) : ∃ a, x = .ok a ∧ f a = .ok b := by
  cases x with
  | error e => cases h
  | ok a => exact ⟨a, rfl, h⟩

/-- A flag is set, and nothing is waited for before or behind it. -/
theorem of_flag {flag : Flag} (h : r.flag flag = .ok r') :
    ¬ r.Waits ∧ ¬ r'.Waits ∧ r'.options.tasks = r.options.tasks ∧
      r'.options.verbose = (r.options.verbose || flag == .verbose) := by
  obtain ⟨settled, hsettle, h⟩ := of_bind h
  obtain ⟨added, hadd, h⟩ := of_bind h
  cases h
  obtain ⟨hready, hkeeps⟩ := of_settle hsettle
  obtain ⟨hverbose, htasks⟩ := of_addFlag hadd
  refine ⟨hready, nofun, htasks.trans hkeeps.tasks, ?_⟩
  rw [← hkeeps.verbose]
  exact hverbose

/-- A setting without its value is waited for. -/
theorem of_await {setting : Setting} (h : r.await setting = .ok r') :
    ¬ r.Waits ∧ r'.Waits ∧ r.options.Keeps r'.options := by
  obtain ⟨settled, hsettle, h⟩ := of_bind h
  cases h
  obtain ⟨hready, hkeeps⟩ := of_settle hsettle
  exact ⟨hready, ⟨setting, rfl⟩, hkeeps⟩

/-- A setting with its value is settled. -/
theorem of_setting {setting : Setting} {value : String} (h : r.setting setting value = .ok r') :
    ¬ r.Waits ∧ ¬ r'.Waits ∧ r.options.Keeps r'.options := by
  obtain ⟨settled, hsettle, h⟩ := of_bind h
  obtain ⟨added, hadd, h⟩ := of_bind h
  cases h
  obtain ⟨hready, hkeeps⟩ := of_settle hsettle
  exact ⟨hready, nofun, hkeeps.trans (keeps_addValue hadd)⟩

theorem stop_ne_ok {e : OptionError} : r.stop e ≠ .ok r' := by
  intro h
  obtain ⟨settled, -, h⟩ := of_bind h
  cases h

/-- What the scan is told about an option is what the reader does with it. -/
def Heeds (r : Reading) (hint : VerboseHint) (r' : Reading) : Prop :=
  r'.options.tasks = r.options.tasks ∧
    match hint with
    | .wanted => r'.options.verbose = true
    | .takesNext => r'.Waits ∧ r'.options.verbose = r.options.verbose
    | .nothing => ¬ r'.Waits ∧ r'.options.verbose = r.options.verbose
    | .ends => False

theorem Heeds.of_keeps {middle : Reading} {hint : VerboseHint} (h : middle.Heeds hint r')
    (htasks : middle.options.tasks = r.options.tasks)
    (hverbose : middle.options.verbose = r.options.verbose) : r.Heeds hint r' := by
  obtain ⟨htasks', hhint⟩ := h
  refine ⟨htasks'.trans htasks, ?_⟩
  cases hint with
  | wanted => exact hhint
  | takesNext | nothing => exact ⟨hhint.1, hhint.2.trans hverbose⟩
  | ends => exact hhint

theorem Heeds.verbose {hint : VerboseHint} (h : r.Heeds hint r')
    (hverbose : r.options.verbose = true) : r'.options.verbose = true := by
  obtain ⟨-, hhint⟩ := h
  cases hint with
  | wanted => exact hhint
  | takesNext | nothing => exact hhint.2.trans hverbose
  | ends => exact hhint.elim

/-! ## Words behind two hyphens -/

/-- What an option that is written as a word, with or without a value attached, says to the scan. -/
def hintOfWord : OptionName → Option String → VerboseHint
  | .flag .verbose, none => .wanted
  | .setting _, none => .takesNext
  | _, _ => .nothing

/-- No option is read while a value is waited for. -/
theorem ready_of_word {name : OptionName} {attached : Option String}
    (h : r.word attached name = .ok r') : ¬ r.Waits := by
  cases name with
  | setting setting =>
      cases attached with
      | none => exact (of_await h).1
      | some value => exact (of_setting h).1
  | flag flag =>
      cases attached with
      | none => exact (of_flag h).1
      | some value => cases h
  | help | version =>
      cases attached with
      | none => exact absurd h stop_ne_ok
      | some value => cases h

theorem heeds_hintOfWord {name : OptionName} {attached : Option String}
    (h : r.word attached name = .ok r') : r.Heeds (hintOfWord name attached) r' := by
  cases name with
  | setting setting =>
      cases attached with
      | none =>
          obtain ⟨-, hwaits, hkeeps⟩ := of_await h
          exact ⟨hkeeps.tasks, hwaits, hkeeps.verbose⟩
      | some value =>
          obtain ⟨-, hready, hkeeps⟩ := of_setting h
          exact ⟨hkeeps.tasks, hready, hkeeps.verbose⟩
  | flag flag =>
      cases attached with
      | some value => cases h
      | none =>
          obtain ⟨-, hready, htasks, hverbose⟩ := of_flag h
          cases flag with
          | verbose => exact ⟨htasks, hverbose.trans (Bool.or_true _)⟩
          | list | quiet | silent => exact ⟨htasks, hready, hverbose.trans (Bool.or_false _)⟩
  | help | version =>
      cases attached with
      | none => exact absurd h stop_ne_ok
      | some value => cases h

/-! ## Letters behind a hyphen -/

/-- Only one letter means a setting. -/
theorem ofLetter?_eq_setting_iff {c : Char} :
    (∃ setting, OptionName.ofLetter? c = some (.setting setting)) ↔ c = 'f' := by
  constructor
  · rintro ⟨setting, h⟩
    grind [OptionName.ofLetter?]
  · rintro rfl
    exact ⟨.file, rfl⟩

theorem ofLetter?_eq_verbose_iff {c : Char} :
    OptionName.ofLetter? c = some (.flag .verbose) ↔ c = 'v' := by
  grind [OptionName.ofLetter?]

/-- What a letter for a flag says to the scan. -/
theorem ofLetters_flag {c : Char} {flag : Flag} (h : OptionName.ofLetter? c = some (.flag flag))
    (last : Option Char) (letters : Text) :
    c ≠ 'f' ∧ (c = 'v' ↔ flag = .verbose) ∧ VerboseHint.ofLetters last (c :: letters) =
      if flag = .verbose then .wanted else VerboseHint.ofLetters last letters := by
  have hf : c ≠ 'f' := by
    intro hf
    obtain ⟨setting, hsetting⟩ := ofLetter?_eq_setting_iff.mpr hf
    cases h.symm.trans hsetting
  have hv : c = 'v' ↔ flag = .verbose := by
    rw [← ofLetter?_eq_verbose_iff, h, Option.some_inj, OptionName.flag.injEq]
  refine ⟨hf, hv, ?_⟩
  rw [VerboseHint.ofLetters, if_neg hf]
  simp only [hv]

/-- What a letter for a setting says to the scan. -/
theorem ofLetters_setting {c : Char} {setting : Setting}
    (h : OptionName.ofLetter? c = some (.setting setting)) (last : Option Char) (letters : Text) :
    c = 'f' ∧ VerboseHint.ofLetters last (c :: letters) =
      if last = some 'f' then .takesNext else .nothing := by
  have hf : c = 'f' := ofLetter?_eq_setting_iff.mp ⟨setting, h⟩
  refine ⟨hf, ?_⟩
  rw [VerboseHint.ofLetters, if_neg (by rw [hf]; decide), if_pos hf]

/-- Letters with a file among them that ends in an `f`: the file is what stands behind the first
`f`, and no `v` stands in front of it. -/
def EndsInFile (letters : Text) : Prop :=
  ∃ front file, letters = front ++ 'f' :: (file ++ ['f']) ∧ ∀ c ∈ front, c ≠ 'f' ∧ c ≠ 'v'

theorem endsInFile_cons_iff {c : Char} {letters : Text} :
    EndsInFile (c :: letters) ↔
      c = 'f' ∧ letters.getLast? = some 'f' ∨ c ≠ 'f' ∧ c ≠ 'v' ∧ EndsInFile letters := by
  constructor
  · rintro ⟨front, file, heq, hfront⟩
    cases front with
    | nil =>
        obtain ⟨rfl, rfl⟩ := List.cons.inj heq
        exact .inl ⟨rfl, List.getLast?_concat⟩
    | cons d front =>
        obtain ⟨rfl, rfl⟩ := List.cons.inj heq
        obtain ⟨⟨hf, hv⟩, hfront⟩ := List.forall_mem_cons.mp hfront
        exact .inr ⟨hf, hv, front, file, rfl, hfront⟩
  · rintro (⟨rfl, hlast⟩ | ⟨hf, hv, front, file, rfl, hfront⟩)
    · obtain ⟨file, rfl⟩ := List.getLast?_eq_some_iff.mp hlast
      exact ⟨[], file, rfl, List.forall_mem_nil _⟩
    · exact ⟨c :: front, file, rfl, List.forall_mem_cons.mpr ⟨⟨hf, hv⟩, hfront⟩⟩

instance decidableEndsInFile : DecidablePred EndsInFile
  | [] => isFalse fun ⟨_, _, h, _⟩ => by simp at h
  | c :: letters =>
    have := decidableEndsInFile letters
    decidable_of_iff _ endsInFile_cons_iff.symm

/-- Letters ask for no task, and do not take back being verbose. -/
theorem of_letters {letters : Text} (h : r.letters letters = .ok r') :
    r'.options.tasks = r.options.tasks ∧
      (r.options.verbose = true → r'.options.verbose = true) := by
  induction letters generalizing r with
  | nil =>
      cases h
      exact ⟨rfl, id⟩
  | cons c letters ih =>
      rw [Reading.letters] at h
      split at h
      · obtain ⟨middle, hflag, h⟩ := of_bind h
        obtain ⟨-, -, htasks, hmiddle⟩ := of_flag hflag
        obtain ⟨htasks', hverbose⟩ := ih h
        refine ⟨htasks'.trans htasks, fun hr => hverbose ?_⟩
        rw [hmiddle, hr, Bool.true_or]
      · split at h
        · obtain ⟨-, -, hkeeps⟩ := of_await h
          exact ⟨hkeeps.tasks, hkeeps.verbose.trans⟩
        · obtain ⟨-, -, hkeeps⟩ := of_setting h
          exact ⟨hkeeps.tasks, hkeeps.verbose.trans⟩
      · exact absurd h stop_ne_ok
      · exact absurd h stop_ne_ok
      · cases h
        exact ⟨rfl, id⟩

theorem ready_of_letters {c : Char} {letters : Text}
    (hc : (OptionName.ofLetter? c).isSome = true) (h : r.letters (c :: letters) = .ok r') :
    ¬ r.Waits := by
  rw [Reading.letters] at h
  split at h
  · obtain ⟨middle, hflag, -⟩ := of_bind h
    exact (of_flag hflag).1
  · split at h
    · exact (of_await h).1
    · exact (of_setting h).1
  · exact absurd h stop_ne_ok
  · exact absurd h stop_ne_ok
  · rename_i hnone
    rw [hnone] at hc
    cases hc

/-- **THE SCAN READS LETTERS LIKE THE READER**, unless a file among them ends in an `f`. -/
theorem heeds_letters {letters : Text} {last : Option Char}
    (hlast : letters ≠ [] → letters.getLast? = last) (hfile : ¬ EndsInFile letters)
    (hknown : ∀ c ∈ letters, (OptionName.ofLetter? c).isSome = true) (hready : ¬ r.Waits)
    (h : r.letters letters = .ok r') : r.Heeds (VerboseHint.ofLetters last letters) r' := by
  induction letters generalizing r with
  | nil =>
      cases h
      exact ⟨rfl, hready, rfl⟩
  | cons c letters ih =>
      obtain ⟨hc, hletters⟩ := List.forall_mem_cons.mp hknown
      rw [Reading.letters] at h
      split at h
      · rename_i flag hflag
        obtain ⟨hf, hv, hhint⟩ := ofLetters_flag hflag last letters
        obtain ⟨middle, hmiddle, hrest⟩ := of_bind h
        obtain ⟨-, hready', htasks, hverbose⟩ := of_flag hmiddle
        rw [hhint]
        split
        · rename_i hwanted
          obtain ⟨htasks', hkept⟩ := of_letters hrest
          rw [hwanted] at hverbose
          exact ⟨htasks'.trans htasks, hkept (hverbose.trans (Bool.or_true _))⟩
        · rename_i hother
          have hsame : middle.options.verbose = r.options.verbose := by
            rw [hverbose, beq_eq_false_iff_ne.mpr hother, Bool.or_false]
          have hlast' : letters ≠ [] → letters.getLast? = last := by
            intro hne
            rw [← hlast (List.cons_ne_nil _ _), List.getLast?_cons_of_ne_nil hne]
          have hfile' : ¬ EndsInFile letters := fun hends =>
            hfile (endsInFile_cons_iff.mpr (.inr ⟨hf, fun h => hother (hv.mp h), hends⟩))
          exact (ih hlast' hfile' hletters hready' hrest).of_keeps htasks hsame
      · rename_i setting hsetting
        obtain ⟨hf, hhint⟩ := ofLetters_setting hsetting last letters
        rw [hhint]
        split at h
        · rename_i hempty
          obtain rfl := List.isEmpty_iff.mp hempty
          obtain ⟨-, hwaits, hkeeps⟩ := of_await h
          rw [if_pos ((hlast (List.cons_ne_nil _ _)).symm.trans (congrArg some hf))]
          exact ⟨hkeeps.tasks, hwaits, hkeeps.verbose⟩
        · rename_i hvalue
          have hne : letters ≠ [] := fun hnil => hvalue (List.isEmpty_iff.mpr hnil)
          obtain ⟨-, hready', hkeeps⟩ := of_setting h
          have hclosed : last ≠ some 'f' := by
            intro hlastf
            rw [← hlast (List.cons_ne_nil _ _), List.getLast?_cons_of_ne_nil hne] at hlastf
            exact hfile (endsInFile_cons_iff.mpr (.inl ⟨hf, hlastf⟩))
          rw [if_neg hclosed]
          exact ⟨hkeeps.tasks, hready', hkeeps.verbose⟩
      · exact absurd h stop_ne_ok
      · exact absurd h stop_ne_ok
      · rename_i hnone
        rw [hnone] at hc
        cases hc

end Reading

/-! ## What an argument says to the scan -/

theorem hint_of_option {word : String} {name : OptionName}
    (h : OptionName.ofWord? word = some name) :
    VerboseHint.ofArgument ("--" ++ word) = Reading.hintOfWord name none := by
  rw [OptionName.ofWord?] at h
  repeat' split at h
  all_goals first
    | cases h; rename_i hword; rw [hword]; decide
    | cases h

/-- A word with a value attached is no word that the scan looks for. -/
theorem hint_of_attached {argument : String} {s : Text}
    (hdashes : argument.toList = '-' :: '-' :: s) (hattached : '=' ∈ s) :
    VerboseHint.ofArgument argument = .nothing := by
  have hne : ∀ word : String, '=' ∉ word.toList → argument ≠ word := by
    rintro word hword rfl
    rw [hdashes] at hword
    exact hword (List.mem_cons_of_mem _ (List.mem_cons_of_mem _ hattached))
  have hvalue : ¬ valueWords.contains argument = true := by
    intro hcontains
    have hmem := List.contains_iff_mem.mp hcontains
    have hall : ∀ word ∈ valueWords, '=' ∉ word.toList := by decide
    exact hne argument (hall argument hmem) rfl
  rw [VerboseHint.ofArgument, if_neg fun h => h.elim (hne _ (by decide)) (hne _ (by decide)),
    if_neg hvalue, if_neg (hne _ (by decide)), hdashes]
  rfl

/-- Only a text with an equals sign has a value attached. -/
theorem splitAttached_cases (s : Text) :
    splitAttached s = (String.ofList s, none) ∨
      '=' ∈ s ∧ ∃ word value, splitAttached s = (word, some value) := by
  rw [splitAttached]
  cases hrest : s.dropWhile (· != '=') with
  | nil =>
      have hsplit := List.takeWhile_append_dropWhile (p := (· != '=')) (l := s)
      rw [hrest, List.append_nil] at hsplit
      rw [hsplit]
      exact .inl rfl
  | cons c value =>
      have hhead := List.head?_dropWhile_not (· != '=') s
      rw [hrest] at hhead
      have hc : c = '=' := by simpa using hhead
      refine .inr ⟨(List.dropWhile_suffix (· != '=')).subset ?_, _, _, rfl⟩
      rw [hrest, hc]
      exact List.mem_cons_self

theorem hint_of_word {argument : String} {name : OptionName} {attached : Option String}
    (h : Argument.ofString argument = .word name attached) :
    VerboseHint.ofArgument argument = Reading.hintOfWord name attached := by
  rw [Argument.ofString] at h
  split at h
  · rename_i s hdashes
    split at h
    · rename_i hname
      cases h
      obtain hsplit | ⟨hequals, word, value, hsplit⟩ := splitAttached_cases s
      · rw [hsplit] at hname ⊢
        have hargument : argument = "--" ++ String.ofList s := by
          rw [← String.toList_inj, hdashes]
          simp
        rw [hargument]
        exact hint_of_option hname
      · rw [hsplit, hint_of_attached hdashes hequals]
        cases name with
        | flag flag => cases flag <;> rfl
        | setting | help | version => rfl
    · cases h
  · split at h <;> cases h
  · cases h

/-- Letters that are options, as they are written. -/
theorem of_letters_argument {argument : String} {letters : Text}
    (h : Argument.ofString argument = .letters letters) :
    argument.toList = '-' :: letters ∧ letters ≠ [] ∧ letters.head? ≠ some '-' ∧
      ∀ c ∈ letters, (OptionName.ofLetter? c).isSome = true := by
  rw [Argument.ofString] at h
  split at h
  · split at h <;> cases h
  · rename_i c s hdash hargument
    split at h
    · rename_i hall
      cases h
      refine ⟨hargument, List.cons_ne_nil _ _, ?_, List.all_eq_true.mp hall⟩
      intro hc
      cases hc
      exact hdash rfl
    · cases h
  · cases h

theorem hint_of_letters {argument : String} {letters : Text}
    (h : Argument.ofString argument = .letters letters) :
    VerboseHint.ofArgument argument = VerboseHint.ofLetters letters.getLast? letters := by
  obtain ⟨hargument, hne, hdash, -⟩ := of_letters_argument h
  obtain ⟨c, s, rfl⟩ := List.exists_cons_of_ne_nil hne
  have hlong : ∀ word : String, ['-', '-'] <+: word.toList → argument ≠ word := by
    rintro word ⟨rest, hword⟩ rfl
    obtain ⟨-, hrest⟩ := List.cons.inj (hword.trans hargument)
    exact hdash (congrArg some (List.cons.inj hrest).1.symm)
  by_cases hv : argument = "-v"
  · rw [hv] at hargument ⊢
    cases hargument
    rfl
  by_cases hf : argument = "-f"
  · rw [hf] at hargument ⊢
    cases hargument
    rfl
  have hvalue : ¬ valueWords.contains argument = true := by
    intro hcontains
    obtain rfl | hmem := List.mem_cons.mp (List.contains_iff_mem.mp hcontains)
    · exact hf rfl
    · have hall : ∀ word ∈ ["--file", "--dump-ast", "--completions"],
          ['-', '-'] <+: word.toList := by
        decide
      exact hlong argument (hall argument hmem) rfl
  rw [VerboseHint.ofArgument, if_neg fun h => h.elim hv (hlong _ (by decide)), if_neg hvalue,
    if_neg (hlong _ (by decide)), hargument]
  split
  · rename_i heq
    cases heq
    exact absurd rfl hdash
  · rename_i heq
    cases heq
    rfl
  · rename_i heq
    exact absurd rfl (heq c s)

/-! ## The reader and the scan side by side -/

/-- An argument of letters with a file among them that ends in an `f`. -/
def FileEndsInF (argument : String) : Prop :=
  ∃ letters, Argument.ofString argument = .letters letters ∧ Reading.EndsInFile letters

instance : DecidablePred FileEndsInF := fun argument =>
  match h : Argument.ofString argument with
  | .letters letters =>
    decidable_of_iff (Reading.EndsInFile letters)
      ⟨fun hends => ⟨letters, h, hends⟩,
        fun ⟨_, h', hends⟩ => Argument.letters.inj (h.symm.trans h') ▸ hends⟩
  | .word _ _ => isFalse fun ⟨_, h', _⟩ => nomatch h.symm.trans h'
  | .other => isFalse fun ⟨_, h', _⟩ => nomatch h.symm.trans h'

namespace Reading

/-- What the reader does with an argument that is an option, in terms of what the scan is told. -/
structure Took (r : Reading) (argument : String) (r' : Reading) : Prop where
  ready : ¬ r.Waits
  tasks : r'.options.tasks = r.options.tasks
  verbose : r.options.verbose = true → r'.options.verbose = true
  heeds : ¬ FileEndsInF argument → r.Heeds (VerboseHint.ofArgument argument) r'

theorem took_word {r r' : Reading} {argument : String} {name : OptionName}
    {attached : Option String} (hargument : Argument.ofString argument = .word name attached)
    (h : r.word attached name = .ok r') : r.Took argument r' := by
  have hheeds := heeds_hintOfWord h
  rw [← hint_of_word hargument] at hheeds
  exact ⟨ready_of_word h, hheeds.1, hheeds.verbose, fun _ => hheeds⟩

theorem took_letters {r r' : Reading} {argument : String} {letters : Text}
    (hargument : Argument.ofString argument = .letters letters)
    (h : r.letters letters = .ok r') : r.Took argument r' := by
  obtain ⟨-, hne, -, hknown⟩ := of_letters_argument hargument
  have hready : ¬ r.Waits := by
    obtain ⟨c, rest, rfl⟩ := List.exists_cons_of_ne_nil hne
    exact ready_of_letters (hknown c List.mem_cons_self) h
  obtain ⟨htasks, hverbose⟩ := of_letters h
  refine ⟨hready, htasks, hverbose, fun hfile => ?_⟩
  have hclosed : ¬ EndsInFile letters := fun hends => hfile ⟨letters, hargument, hends⟩
  rw [hint_of_letters hargument]
  exact heeds_letters (fun _ => rfl) hclosed hknown hready h

end Reading

/-- **THE READER TAKES AN ARGUMENT** for an option, for the value it waits for, or for the first
task. -/
theorem readFrom_cons_cases {r : Reading} {argument : String} {rest : List String}
    (h : readFrom r (argument :: rest) = .ok options) :
    (∃ r', r.Took argument r' ∧ readFrom r' rest = .ok options) ∨
    (∃ setting, r.pending = some (setting, none) ∧
      readFrom { r with pending := some (setting, some argument) } rest = .ok options) ∨
    (∃ settled, r.settle = .ok settled ∧
      options = { settled with tasks := some (argument :: rest) }) := by
  rw [readFrom] at h
  split at h
  · rename_i hargument
    obtain ⟨r', hword, hrest⟩ := Reading.of_bind h
    exact .inl ⟨r', Reading.took_word hargument hword, hrest⟩
  · rename_i hargument
    obtain ⟨r', hletters, hrest⟩ := Reading.of_bind h
    exact .inl ⟨r', Reading.took_letters hargument hletters, hrest⟩
  · split at h
    · rename_i setting hpending
      exact .inr (.inl ⟨setting, hpending, h⟩)
    · cases hsettle : r.settle with
      | error e =>
          rw [hsettle] at h
          cases h
      | ok settled =>
          rw [hsettle] at h
          cases h
          exact .inr (.inr ⟨settled, rfl, rfl⟩)

/-- Being verbose is not taken back. -/
theorem verbose_of_readFrom {r : Reading} {arguments : List String}
    (hverbose : r.options.verbose = true) (h : readFrom r arguments = .ok options) :
    options.verbose = true := by
  induction arguments generalizing r with
  | nil =>
      obtain ⟨-, hkeeps⟩ := Reading.of_settle h
      rw [hkeeps.verbose, hverbose]
  | cons argument rest ih =>
      obtain ⟨r', htook, hrest⟩ | ⟨setting, -, hrest⟩ | ⟨settled, hsettle, rfl⟩ :=
        readFrom_cons_cases h
      · exact ih (htook.verbose hverbose) hrest
      · refine ih ?_ hrest
        exact hverbose
      · exact (Reading.of_settle hsettle).2.verbose.trans hverbose

/-- What the scan finds in arguments and what stands behind them, where the value that is waited for
is skipped: what the reader sets, or what the tasks and what stands behind them seem to ask for. -/
theorem asksVerbose_of_readFrom {r : Reading} {arguments : List String}
    (htasks : r.options.tasks = none) (h : readFrom r arguments = .ok options) :
    ∃ before, arguments = before ++ options.tasks.getD [] ∧
      ((∀ argument ∈ before, ¬ FileEndsInF argument) → r.options.verbose = false →
        ∀ later, let found := options.verbose || asksVerbose (options.tasks.getD [] ++ later)
          (¬ r.Waits → asksVerbose (arguments ++ later) = found) ∧
          (r.Waits → arguments ≠ [] ∧ asksVerbose (arguments.tail ++ later) = found)) := by
  induction arguments generalizing r with
  | nil =>
      obtain ⟨hready, hkeeps⟩ := Reading.of_settle h
      refine ⟨[], ?_, fun _ hverbose later => ⟨fun _ => ?_, fun hwaits => absurd hwaits hready⟩⟩
      · rw [hkeeps.tasks, htasks]
        rfl
      · rw [hkeeps.tasks, htasks, hkeeps.verbose, hverbose]
        rfl
  | cons argument rest ih =>
      obtain ⟨r', htook, hrest⟩ | ⟨setting, hpending, hrest⟩ | ⟨settled, hsettle, rfl⟩ :=
        readFrom_cons_cases h
      · obtain ⟨before, rfl, hagree⟩ := ih (htook.tasks.trans htasks) hrest
        refine ⟨argument :: before, rfl, fun hfiles hverbose later =>
          ⟨fun _ => ?_, fun hwaits => absurd hwaits htook.ready⟩⟩
        obtain ⟨hfile, hfiles⟩ := List.forall_mem_cons.mp hfiles
        obtain ⟨-, hhint⟩ := htook.heeds hfile
        rw [List.cons_append, asksVerbose_cons]
        cases hint : VerboseHint.ofArgument argument with
        | wanted =>
            rw [hint] at hhint
            rw [verbose_of_readFrom hhint hrest, Bool.true_or]
        | takesNext =>
            rw [hint] at hhint
            obtain ⟨hne, hskip⟩ := (hagree hfiles (hhint.2.trans hverbose) later).2 hhint.1
            rw [← hskip, ← List.tail_append_of_ne_nil hne]
        | nothing =>
            rw [hint] at hhint
            exact (hagree hfiles (hhint.2.trans hverbose) later).1 hhint.1
        | ends =>
            rw [hint] at hhint
            exact hhint.elim
      · have hkept : { r with pending := some (setting, some argument) }.options.tasks = none :=
          htasks
        obtain ⟨before, rfl, hagree⟩ := ih hkept hrest
        refine ⟨argument :: before, rfl, fun hfiles hverbose later =>
          ⟨fun hready => absurd ⟨setting, hpending⟩ hready, fun _ => ⟨List.cons_ne_nil _ _, ?_⟩⟩⟩
        exact (hagree (List.forall_mem_cons.mp hfiles).2 hverbose later).1 nofun
      · obtain ⟨hready, hkeeps⟩ := Reading.of_settle hsettle
        refine ⟨[], rfl, fun _ hverbose later => ⟨fun _ => ?_, fun hwaits => absurd hwaits hready⟩⟩
        show _ = (settled.verbose || _)
        rw [hkeeps.verbose, hverbose]
        rfl

/-- The options that are given are those that are read, but for the file. -/
theorem of_parse {fallback : Option String} {arguments : List String}
    (h : parse fallback arguments = .ok options) :
    ∃ given, readFrom {} arguments = .ok given ∧ given.Keeps options := by
  obtain ⟨given, hgiven, h⟩ := Reading.of_bind h
  refine ⟨given, hgiven, ?_⟩
  split at h
  · exact keeps_withValue h
  · cases h
    exact .refl _

end Options

/-! ## Whole command lines -/

/-- What stands behind the first part of a command line begins with a separator. -/
theorem exists_splitGroups (arguments : List String) :
    ∃ later, arguments = (splitGroups arguments).1 ++ later ∧
      groupSeparator ∉ (splitGroups arguments).1 ∧
      (later = [] ∨ ∃ rest, later = groupSeparator :: rest) := by
  by_cases hmem : groupSeparator ∈ arguments
  · obtain ⟨head, rest, rfl, hhead⟩ := List.eq_append_cons_of_mem hmem
    have hsplit : (splitGroups (head ++ groupSeparator :: rest)).1 = head := by
      rw [splitGroups, List.splitOn_append_cons_self_of_not_mem hhead]
    rw [hsplit]
    exact ⟨groupSeparator :: rest, rfl, hhead, .inr ⟨rest, rfl⟩⟩
  · have hsplit : (splitGroups arguments).1 = arguments := by
      rw [splitGroups, List.splitOn_eq_singleton hmem]
    rw [hsplit]
    exact ⟨[], (List.append_nil _).symm, hmem, .inl rfl⟩

/-- An argument that looks like an option: something stands behind a hyphen. -/
def LooksLikeOption (argument : String) : Prop := ∃ c s, argument.toList = '-' :: c :: s

/-- A task that does not look like an option ends the scan. -/
theorem hint_of_task {task : String} (h : ¬ LooksLikeOption task) :
    VerboseHint.ofArgument task = .ends := by
  have hne : ∀ word : String, LooksLikeOption word → task ≠ word := by
    rintro word hword rfl
    exact h hword
  have hvalue : ¬ valueWords.contains task = true := by
    intro hcontains
    have hall : ∀ word ∈ valueWords, LooksLikeOption word := by
      simp [valueWords, LooksLikeOption]
    exact h (hall task (List.contains_iff_mem.mp hcontains))
  rw [VerboseHint.ofArgument,
    if_neg fun h => h.elim (hne _ ⟨'v', [], rfl⟩) (hne _ ⟨'-', _, rfl⟩), if_neg hvalue,
    if_neg (hne _ ⟨'-', [], rfl⟩)]
  split
  · rename_i s htask
    exact absurd ⟨'-', s, htask⟩ h
  · rename_i c s _ htask
    exact absurd ⟨c, s, htask⟩ h
  · rfl

/-- The scan does not get behind a first task that does not look like an option, nor behind a
separator. -/
theorem asksVerbose_of_task {tasks later : List String}
    (htask : ∀ task ∈ tasks.head?, ¬ LooksLikeOption task)
    (hlater : later = [] ∨ ∃ rest, later = groupSeparator :: rest) :
    asksVerbose (tasks ++ later) = false := by
  cases tasks with
  | nil =>
      obtain rfl | ⟨rest, rfl⟩ := hlater
      · rfl
      · rw [List.nil_append, asksVerbose_cons]
        rfl
  | cons task tasks => rw [List.cons_append, asksVerbose_cons, hint_of_task (htask task rfl)]

/-- **VERBOSITY IS FORESEEN**, up to two slips.  In front of the tasks of a command line stand the
arguments that its reader takes for options.  If none of these are letters with a file among them
that ends in an `f`, then the scan finds what the reader sets, or what the tasks and what stands
behind them seem to ask for; and if in addition the first task does not look like an option, it
finds just what the reader sets. -/
theorem verbosity_is_foreseen {fallback : Option String} {program : String}
    {arguments : List String} {options : Options} (hprogram : program ≠ groupSeparator)
    (h : Options.parse fallback ((splitGroups (program :: arguments)).1.drop 1) = .ok options) :
    ∃ before later, arguments = before ++ (options.tasks.getD [] ++ later) ∧
      groupSeparator ∉ before ++ options.tasks.getD [] ∧
      (later = [] ∨ ∃ rest, later = groupSeparator :: rest) ∧
      ((∀ argument ∈ before, ¬ Options.FileEndsInF argument) →
        verboseRequested (program :: arguments) =
          (options.verbose || asksVerbose (options.tasks.getD [] ++ later)) ∧
        ((∀ task ∈ (options.tasks.getD []).head?, ¬ LooksLikeOption task) →
          verboseRequested (program :: arguments) = options.verbose)) := by
  obtain ⟨later, hsplit, hseparator, hlater⟩ := exists_splitGroups (program :: arguments)
  cases hhead : (splitGroups (program :: arguments)).1 with
  | nil =>
      rw [hhead, List.nil_append] at hsplit
      obtain rfl | ⟨rest, rfl⟩ := hlater
      · cases hsplit
      · exact absurd (List.cons.inj hsplit).1 hprogram
  | cons first given =>
      rw [hhead] at h hsplit hseparator
      obtain ⟨rfl, rfl⟩ := List.cons.inj hsplit
      obtain ⟨read, hread, hkeeps⟩ := Options.of_parse h
      obtain ⟨before, hgiven, hagree⟩ := Options.asksVerbose_of_readFrom rfl hread
      rw [← hkeeps.verbose, ← hkeeps.tasks] at hagree
      rw [← hkeeps.tasks] at hgiven
      refine ⟨before, later, ?_, ?_, hlater, fun hfiles => ?_⟩
      · rw [← List.append_assoc, ← hgiven]
        rfl
      · rw [← hgiven]
        exact fun hmem => hseparator (List.mem_cons_of_mem _ hmem)
      · have hfound := (hagree hfiles rfl later).1 nofun
        refine ⟨hfound, fun htask => ?_⟩
        rw [asksVerbose_of_task htask hlater, Bool.or_false] at hfound
        exact hfound

/-- The file is `-x`, and the last argument is the task's. -/
theorem deploying_is_foreseen :
    let arguments := ["-qf", "-x", "-l", "deploy", "-v"]
    let options : Options :=
      { file := some "-x", list := true, quiet := true, tasks := some ["deploy", "-v"] }
    "quake" ≠ groupSeparator ∧
      Options.parse none ((splitGroups ("quake" :: arguments)).1.drop 1) = .ok options ∧
      verboseRequested ("quake" :: arguments) = options.verbose := by
  intro arguments options
  have hprogram : "quake" ≠ groupSeparator := by decide
  have hparse :
      Options.parse none ((splitGroups ("quake" :: arguments)).1.drop 1) = .ok options := by
    decide +kernel
  refine ⟨hprogram, hparse, ?_⟩
  obtain ⟨before, later, harguments, -, hlater, hagree⟩ := verbosity_is_foreseen hprogram hparse
  obtain rfl | ⟨rest, rfl⟩ := hlater
  · obtain rfl : ["-qf", "-x", "-l"] = before := by
      rw [List.append_nil] at harguments
      exact List.append_cancel_right harguments
    refine (hagree (by decide +kernel)).2 ?_
    rintro task htask ⟨c, s, hlooks⟩
    obtain rfl : "deploy" = task := Option.some.inj htask
    simp at hlooks
  · have hno : groupSeparator ∉ arguments := by decide
    refine absurd ?_ hno
    rw [harguments]
    simp

/-- The file of `-ff` is `f`, but the scan takes what stands behind it for the file. -/
theorem verbosity_not_always_foreseen :
    ¬ ∀ (fallback : Option String) (program : String) (arguments : List String)
        (options : Options), program ≠ groupSeparator →
        Options.parse fallback ((splitGroups (program :: arguments)).1.drop 1) = .ok options →
        (verboseRequested (program :: arguments) = true ↔ options.verbose = true) := by
  intro hall
  have hparse : Options.parse none ((splitGroups ["quake", "-ff", "-v"]).1.drop 1)
      = .ok { file := some "f", verbose := true } := by
    decide +kernel
  have hmissed : verboseRequested ["quake", "-ff", "-v"] = false := by decide +kernel
  have hfound := (hall none "quake" ["-ff", "-v"] _ (by decide) hparse).mpr rfl
  exact Bool.false_ne_true (hmissed.symm.trans hfound)

end TaskRunner
