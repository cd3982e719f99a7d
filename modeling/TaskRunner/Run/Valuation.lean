import TaskRunner.Expression.Value
import TaskRunner.Run.Shell
import TaskRunner.TaskFile.Resolution
import TaskRunner.Text.Escape

/-!
# The values of variables

A variable has its value from what is bound before it. Quoted strings and blocks of
lines have their references expanded, the first after its escapes are read; a command
is captured, and one that fails leaves an empty value.

A task is entered with the variables of the namespaces around it, outermost first, and
then with its arguments (`bindFrame`). All that is saved on the way is handed back, in
order, so that the bindings can be undone.
-/

namespace TaskRunner

variable {σ : Type}

/-- What the valuation of a variable leaves. -/
structure Valued (σ : Type) where
  value : String
  world : σ
  events : List Event

/-- The value of the right-hand side of a variable. -/
def Value.evaluate (host : Host σ) (ctx : Context) (world : σ) : Value → Valued σ
  | .literal value =>
    ⟨expanded ctx.lookup (String.ofList (Text.unescape value.toList)), world, []⟩
  | .multiline value => ⟨expanded ctx.lookup value, world, []⟩
  | .expression e => ⟨e.value ctx.lookup, world, []⟩
  | .substitution command =>
    let captured := capture host ctx command world
    match captured.result with
    | .ok output => ⟨output, captured.world, captured.events⟩
    | .error e =>
      ⟨"", captured.world, captured.events ++ [ctx.event (.substitutionFailed command e)]⟩

/-- What binding names leaves: the bindings, and what the names held before. -/
structure Bound (σ : Type) where
  vars : Bindings
  saved : List Bindings.Saved
  world : σ
  events : List Event

/-- Binds variables one after the other, each to its value among those before. -/
def bindVariables (host : Host σ) (ctx : Context) (world : σ) : List Variable → Bound σ
  | [] => ⟨ctx.vars, [], world, []⟩
  | v :: rest =>
    let valued := v.value.evaluate host ctx world
    let bound := ctx.vars.bind v.name valued.value
    let more := bindVariables host { ctx with vars := bound.1 } valued.world rest
    ⟨more.vars, bound.2 :: more.saved, more.world, valued.events ++ more.events⟩

/-- The arguments of a task with the values given for them; missing ones are empty, and what is
given beyond them is dropped. -/
def argumentEntries : List String → List String → List Entry
  | [], _ => []
  | name :: names, given => (name, given.head?.getD "") :: argumentEntries names given.tail

/-- Binds what a task is entered with. -/
def bindFrame (host : Host σ) (ctx : Context) (found : ResolvedTask) (given : List String)
    (world : σ) : Bound σ :=
  let bound := bindVariables host ctx world (found.scopes.flatMap (·.vars))
  let withArguments := bound.vars.bindAll (argumentEntries found.task.arguments given)
  ⟨withArguments.1, bound.saved ++ withArguments.2, bound.world, bound.events⟩

/-- Undoing what binding variables saved gives the variables before it. -/
theorem restore_bindVariables (host : Host σ) (ctx : Context) (world : σ)
    (vars : List Variable) :
    (bindVariables host ctx world vars).vars.restore
      (bindVariables host ctx world vars).saved = ctx.vars := by
  induction vars generalizing ctx world with
  | nil => rfl
  | cons v rest ih =>
    simp only [bindVariables]
    rw [Bindings.restore_cons, ih, Bindings.undo_bind]

/-- Undoing what entering a task saved gives the variables before it. -/
theorem restore_bindFrame (host : Host σ) (ctx : Context) (found : ResolvedTask)
    (given : List String) (world : σ) :
    (bindFrame host ctx found given world).vars.restore
      (bindFrame host ctx found given world).saved = ctx.vars := by
  simp only [bindFrame]
  rw [Bindings.restore_append, Bindings.restore_bindAll, restore_bindVariables]

end TaskRunner
