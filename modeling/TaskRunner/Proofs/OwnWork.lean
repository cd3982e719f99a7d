import TaskRunner.Run.Invocation

/-! # What can go wrong with a task's own work

    The commands of a task and its one external call are where a run meets the outside.
    `OwnError` lists what can come of it, cause by cause: a command that may not fail has
    failed, nobody is there to run the task, the program that runs it has failed, or the
    callable that runs it says so.  **`ownError_of_runOwn`** is the inversion that all
    statements about errors of a run go through; each function on the way has one of
    its own. -/

namespace TaskRunner

variable {σ : Type}

/-- An error of two parts is an error of the first, or of the second after the first. -/
theorem Outcome.error_of_andThen {o : Outcome σ} {next : Context → σ → Outcome σ}
    {e : ExecutionError} (h : (o.andThen next).result = .error e) :
    o.result = .error e ∨ o.result = .ok () ∧ (next o.context o.world).result = .error e := by
  cases hfirst : o.result with
  | error e' =>
      rw [andThen_of_error hfirst, hfirst] at h
      exact Or.inl h
  | ok =>
      rw [andThen_of_ok hfirst] at h
      exact Or.inr ⟨rfl, h⟩

/-! ## Commands -/

theorem error_of_runProgram {host : Host σ} {ctx : Context} {launch : Launch}
    {startFailure : StartError → ExecutionError} {exitFailure : Exit → ExecutionError}
    {world : σ} {e : ExecutionError}
    (h : (runProgram host ctx launch startFailure exitFailure world).result = .error e) :
    (∃ cause, e = startFailure cause) ∨ ∃ exit, e = exitFailure exit := by
  rw [runProgram] at h
  split at h
  · rename_i cause after hstart
    exact Or.inl ⟨cause, (Except.error.inj h).symm⟩
  · rename_i completion after hstart
    by_cases hexit : completion.exit.isSuccess = true
    · rw [if_pos hexit] at h
      cases h
    · rw [if_neg hexit] at h
      exact Or.inr ⟨completion.exit, (Except.error.inj h).symm⟩

theorem error_of_runShell {host : Host σ} {ctx : Context} {line : String} {world : σ}
    {e : ExecutionError} (h : (runShell host ctx line world).result = .error e) :
    ∃ code, e = .commandFailed line code := by
  rw [runShell] at h
  split at h
  · exact ⟨none, (Except.error.inj h).symm⟩
  · rcases error_of_runProgram h with ⟨cause, rfl⟩ | ⟨exit, rfl⟩
    · exact ⟨none, rfl⟩
    · exact ⟨exit.code?, rfl⟩

/-- A command that fails says so with its line as the shell got it. -/
theorem error_of_runCommand {host : Host σ} {ctx : Context} {command : Command} {last : Bool}
    {world : σ} {e : ExecutionError}
    (h : (runCommand host ctx command last world).result = .error e) :
    ∃ code, e = .commandFailed (command.render ctx.lookup) code := by
  rw [runCommand] at h
  split at h
  · cases h
  · exact error_of_runShell h

/-- Only the failure of a command that may not fail is an error. -/
theorem error_of_tolerate {ctx : Context} {command : Command} {o : Outcome σ}
    {e : ExecutionError} (h : (tolerate ctx command o).result = .error e) :
    command.mayFail = false ∧ o.result = .error e := by
  cases hmay : command.mayFail with
  | true =>
      rw [result_tolerate hmay] at h
      exact absurd h (by simp)
  | false =>
      rw [tolerate_of_strict hmay] at h
      exact ⟨rfl, h⟩

theorem error_of_runCommands {host : Host σ} {ctx : Context} {name : String}
    {commands : List Command} {world : σ} {e : ExecutionError}
    (h : (runCommands host ctx name commands world).result = .error e) :
    ∃ command ∈ commands, command.mayFail = false ∧
      ∃ code, e = .commandFailed (command.render ctx.lookup) code := by
  induction commands generalizing world with
  | nil => cases h
  | cons command rest ih =>
      rcases Outcome.error_of_andThen h with hfirst | ⟨-, hrest⟩
      · obtain ⟨hmay, hcommand⟩ := error_of_tolerate hfirst
        exact ⟨command, List.mem_cons_self, hmay, error_of_runCommand hcommand⟩
      · rw [context_tolerate] at hrest
        rw [show (Outcome.ofStep ctx _ (runCommand host ctx command _ world)).context = ctx from
          context_runCommand ..] at hrest
        obtain ⟨other, hmem, hother⟩ := ih hrest
        exact ⟨other, List.mem_cons_of_mem _ hmem, hother⟩

/-! ## All of a task's own work -/

/-- What can come of a task's own work, when the task is called with the arguments `given`. -/
inductive OwnError (externals : Externals σ) (ctx : Context) (found : ResolvedTask)
    (given : List String) : ExecutionError → Prop
  | command (command : Command) (code : Option Nat) (own : found.task.dispatch = none)
      (mem : command ∈ found.task.commands) (strict : command.mayFail = false) :
      OwnError externals ctx found given (.commandFailed (command.render ctx.lookup) code)
  | unavailable (dispatch : Dispatch) (others : found.task.dispatch = some dispatch)
      (nobody : externals.get? found.qualified = none) :
      OwnError externals ctx found given (.externalUnavailable found.qualified)
  | program (name : String) (leading : List String) (message : String) (dispatch : Dispatch)
      (others : found.task.dispatch = some dispatch)
      (handler : externals.get? found.qualified = some (.program name leading)) :
      OwnError externals ctx found given (.external found.qualified message)
  | callable (run : Callable σ) (world : σ) (e : ExecutionError) (dispatch : Dispatch)
      (others : found.task.dispatch = some dispatch)
      (handler : externals.get? found.qualified = some (.callable run))
      (refusal : (run given ctx world).1 = .error e) :
      OwnError externals ctx found given e

/-- **WHAT CAN GO WRONG** with a task's own work is on the list. -/
theorem ownError_of_runOwn {host : Host σ} {externals : Externals σ} {ctx : Context}
    {found : ResolvedTask} {given : List String} {world : σ} {e : ExecutionError}
    (h : (runOwn host externals ctx found given world).result = .error e) :
    OwnError externals ctx found given e := by
  rw [runOwn] at h
  cases hdispatch : found.task.dispatch with
  | some dispatch =>
      simp only [hdispatch] at h
      cases hhandler : externals.get? found.qualified with
      | none =>
          simp only [hhandler] at h
          obtain rfl := Except.error.inj h
          exact .unavailable dispatch hdispatch hhandler
      | some handler =>
          simp only [hhandler] at h
          cases handler with
          | program name leading =>
              rcases error_of_runProgram h with ⟨cause, rfl⟩ | ⟨exit, rfl⟩
              · exact .program name leading _ dispatch hdispatch hhandler
              · exact .program name leading _ dispatch hdispatch hhandler
          | callable run => exact .callable run world e dispatch hdispatch hhandler h
  | none =>
      simp only [hdispatch] at h
      rcases Outcome.error_of_andThen h with hcommands | ⟨-, hdone⟩
      · obtain ⟨command, hmem, hmay, code, rfl⟩ := error_of_runCommands hcommands
        exact .command command code hdispatch hmem hmay
      · cases hdone

/-- A task fails because a dependency fails, or after all of them because of its own work. -/
theorem Outcome.error_of_ofTask {host : Host σ} {externals : Externals σ} {ctx : Context}
    {found : ResolvedTask} {given : List String} {bound : Bound σ} {dependencies : Outcome σ}
    {e : ExecutionError}
    (h : (ofTask host externals ctx found given bound dependencies).result = .error e) :
    dependencies.result = .error e ∨
      OwnError externals dependencies.context found given e := by
  rcases error_of_andThen h with hdependencies | ⟨-, hown⟩
  · exact Or.inl hdependencies
  · exact Or.inr (ownError_of_runOwn hown)

end TaskRunner
