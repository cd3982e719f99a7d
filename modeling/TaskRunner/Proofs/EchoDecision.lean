import TaskRunner.Command.Parser
import TaskRunner.Proofs.EchoWords

/-! # What is left to the shell

    A silent `echo` is printed without a shell unless the line needs one.  What decides
    this are the characters outside of quotes: **a line is printed exactly if its quotes are
    closed and none of its marks is one for the shell** (`Command.echo_decision`).

    A dollar sign is no such mark.  Outside of quotes the character behind it may be one: a
    parenthesis, a question mark, a star or a number sign there is never printed.  A brace is
    none, and inside double quotes no character is.  So a command substitution in double quotes
    is printed as it stands (`Command.substitutions_are_printed`), and so is a reference with a
    default.  References are looked for in neighbouring characters, whatever quotes they are
    in. -/

namespace TaskRunner

/-- A dollar sign and a character behind it that a shell reads together: both outside of quotes, or
both inside double ones. -/
def Mark.HasDollar (c : Char) (marks : List Mark) : Prop :=
  [.bare '$', .bare c] <:+: marks ∨ [.double '$', .double c] <:+: marks

namespace Command

/-- **A LINE IS LEFT TO THE SHELL** unless it is a silent `echo` without options whose quotes are
closed and that has no mark for a shell. So no shell character stands outside of quotes in a line
that is printed, behind a dollar sign or elsewhere. The words are printed with the references in
them expanded once their quotes are gone. -/
theorem echo_decision (lookup : Lookup) (command : Command) :
    ((command.echo lookup).isSome = true ↔
      command.silent = true ∧ command.startsWithEcho = true
        ∧ ∃ marks, readElements lookup .bare command.elements = some (marks, .bare)
          ∧ ∀ m ∈ marks, m.forShell = false)
    ∧ ∀ t marks, command.echo lookup = some t →
      readElements lookup .bare command.elements = some (marks, .bare) →
        (∀ c, [.bare '$', .bare c] <:+: marks → c ∉ EchoLine.shellCharacters)
        ∧ ∃ ran args, (Mark.words marks).map (Mark.spoken lookup [])
              = ("echo".toList ++ ran) :: args
          ∧ t = String.ofList (joined ((ran :: args).dropWhile List.isEmpty)) := by
  have hnone : ∀ {marks : List Mark},
      marks.any Mark.forShell = false ↔ ∀ m ∈ marks, m.forShell = false := by
    simp only [List.any_eq_false, Bool.not_eq_true, implies_true]
  refine ⟨⟨fun h => ?_, ?_⟩, fun t marks h hread => ?_⟩
  · obtain ⟨t, ht⟩ := Option.isSome_iff_exists.mp h
    obtain ⟨hsilent, hstart, marks, hread, hshell, -⟩ := echo_eq_some_iff.mp ht
    exact ⟨hsilent, hstart, marks, hread, hnone.mp hshell⟩
  · rintro ⟨hsilent, hstart, marks, hread, hshell⟩
    obtain ⟨ran, args, hwords⟩ := words_of_startsWithEcho hstart hread
    exact Option.isSome_iff_exists.mpr ⟨_, echo_eq_some_iff.mpr
      ⟨hsilent, hstart, marks, hread, hnone.mpr hshell, ran, args, hwords, rfl⟩⟩
  · obtain ⟨-, -, marks', hread', hshell, hprinted⟩ := echo_eq_some_iff.mp h
    cases hread.symm.trans hread'
    refine ⟨fun c hc hmem => ?_, hprinted⟩
    have hbare : Mark.bare c ∈ marks :=
      hc.subset (List.mem_cons_of_mem _ List.mem_cons_self)
    have hfor : (Mark.bare c).forShell = true := List.contains_iff_mem.mpr hmem
    rw [hnone.mp hshell _ hbare] at hfor
    cases hfor

/-- A default value is printed as it stands, and a name is put together across a quote. -/
example : (Command.echo (fun name => if name = "name" then some "world" else none)
    ⟨[.text "echo ${name:-x} \"pre$\"name"], true, false⟩) = some "${name:-x} preworld" := by
  decide +kernel

/-- A line with a dollar sign that is no reference, between quotes of both kinds. -/
def priced : Command := ⟨[.text "echo 'it is' \"$ 5\""], true, false⟩

theorem priced_is_printed :
    (priced.echo fun _ => none) = some "it is $ 5"
      ∧ ∃ marks, readElements (fun _ => none) .bare priced.elements = some (marks, .bare)
        ∧ (∀ m ∈ marks, m.forShell = false)
        ∧ ∀ c, [.bare '$', .bare c] <:+: marks → c ∉ EchoLine.shellCharacters := by
  have hecho : (priced.echo fun _ => none) = some "it is $ 5" := by decide +kernel
  obtain ⟨hiff, hprinted⟩ := echo_decision (fun _ => none) priced
  obtain ⟨-, -, marks, hread, hshell⟩ := hiff.mp (by rw [hecho]; rfl)
  exact ⟨hecho, marks, hread, hshell, (hprinted _ marks hecho hread).1⟩

/-- A line with a command substitution inside double quotes. -/
def substituted : Command := ⟨[.text "echo \"$(pwd)\""], true, false⟩

/-- Not every command substitution is left to the shell: inside double quotes it is printed as it
stands. -/
theorem substitutions_are_printed :
    ¬ ∀ (lookup : Lookup) (body : Text) (command : Command) (t : String),
      command ∈ parseBody body → command.silent = true → command.echo lookup = some t →
        ∀ marks quoting, readElements lookup .bare command.elements = some (marks, quoting) →
          ∀ c ∈ ['(', '$', '?', '@', '*', '!', '-', '#'], ¬ Mark.HasDollar c marks := by
  intro hall
  have hparse : substituted ∈ parseBody "@echo \"$(pwd)\"".toList := by
    rw [show parseBody "@echo \"$(pwd)\"".toList = [substituted] by decide +kernel]
    exact List.mem_singleton_self _
  have hecho : (substituted.echo fun _ => none) = some "$(pwd)" := by decide +kernel
  have hread : readElements (fun _ => none) .bare substituted.elements
      = some (echoMarks ++ [.blank, .opening, .double '$', .double '(', .double 'p', .double 'w',
          .double 'd', .double ')'], .bare) := by decide +kernel
  refine hall _ _ _ _ hparse rfl hecho _ _ hread '(' (by decide) (.inr ?_)
  exact ⟨echoMarks ++ [.blank, .opening],
    [.double 'p', .double 'w', .double 'd', .double ')'], rfl⟩

end Command

end TaskRunner
