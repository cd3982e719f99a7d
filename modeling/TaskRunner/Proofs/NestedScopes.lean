import TaskRunner.Proofs.DynamicScope

/-! # Scopes within scopes

    While a scope is open it binds names, perhaps one of them more than once; names that it does
    not bind are set for good; and inner scopes are opened, go through `Action`s of their own
    and are closed.  What the scope binds it writes down, and when it is closed it undoes that,
    the latest first.

    The first binding of a name is undone last, so what the name held before it is what counts
    in the end; everything between was undone before it.  A binding therefore costs nothing
    (`afterScope_bind`, `undo_extend_bind`), and neither does an inner scope: **a scope leaves
    just what was set for good** (`afterScope_eq_extend`).  Each name that the scope binds is
    back at what it held, and each other one holds what it was last set to
    (`scope_undoes_its_own`). -/

namespace TaskRunner

namespace Bindings

/-! ## Actions -/

/-- What happens while a scope is open: the scope binds a name, a name is set for good, or an inner
scope is opened, goes through its actions and is closed. -/
inductive Action
  | bind (name value : String)
  | set (name value : String)
  | scope (actions : List Action)

mutual

/-- The bindings after an action in an open scope, and what the scope has to undo for it. -/
def act (b : Bindings) : Action → Bindings × List Saved
  | .bind name value => ((b.bind name value).1, [(b.bind name value).2])
  | .set name value => (b.insert name value, [])
  | .scope actions =>
    let inner := b.actAll actions
    (inner.1.restore inner.2, [])

/-- The bindings after actions in an open scope, and what the scope has to undo for them, in the
order in which it was bound. -/
def actAll (b : Bindings) : List Action → Bindings × List Saved
  | [] => (b, [])
  | action :: rest =>
    let first := b.act action
    let more := first.1.actAll rest
    (more.1, first.2 ++ more.2)

end

/-- The bindings after a scope that has gone through actions and is closed. -/
def afterScope (b : Bindings) (actions : List Action) : Bindings :=
  (b.actAll actions).1.restore (b.actAll actions).2

/-- The names that the scope itself binds. -/
def boundNames : List Action → List String
  | [] => []
  | .bind name _ :: rest => name :: boundNames rest
  | .set _ _ :: rest => boundNames rest
  | .scope _ :: rest => boundNames rest

mutual

/-- What an action sets for good. -/
def Action.settings : Action → List Entry
  | .bind _ _ => []
  | .set name value => [(name, value)]
  | .scope actions => settings actions

/-- What actions set for good, in order, those of inner scopes included. -/
def settings : List Action → List Entry
  | [] => []
  | action :: rest => action.settings ++ settings rest

end

/-- No name is set for good while a scope is open that binds it. -/
inductive SetsApart : List Action → Prop
  | intro {actions : List Action}
      (sets : ∀ entry ∈ settings actions, entry.1 ∉ boundNames actions)
      (inner : ∀ nested, Action.scope nested ∈ actions → SetsApart nested) :
      SetsApart actions

/-! ## One action more -/

/-- A binding is undone when all that comes after it has been. -/
theorem afterScope_bind (b : Bindings) (name value : String) (rest : List Action) :
    b.afterScope (.bind name value :: rest)
      = ((b.bind name value).1.afterScope rest).undo (b.bind name value).2 := rfl

theorem afterScope_set (b : Bindings) (name value : String) (rest : List Action) :
    b.afterScope (.set name value :: rest) = (b.insert name value).afterScope rest := rfl

/-- An inner scope has been closed before the outer one goes on. -/
theorem afterScope_scope (b : Bindings) (nested rest : List Action) :
    b.afterScope (.scope nested :: rest) = (b.afterScope nested).afterScope rest := rfl

/-- A scope writes down the names that it binds, and no others. -/
theorem names_actAll (b : Bindings) (actions : List Action) :
    (b.actAll actions).2.map (·.name) = boundNames actions := by
  induction actions generalizing b with
  | nil => rfl
  | cons action rest ih =>
      cases action with
      | bind name value => exact congrArg (name :: ·) (ih _)
      | set name value => exact ih _
      | scope nested => exact ih _

/-! ## Names apart -/

variable {b : Bindings} {name : String} {entries : List Entry}

theorem get?_extend_of_forall_ne (h : ∀ entry ∈ entries, entry.1 ≠ name) :
    (b.extend entries).get? name = b.get? name := by
  have hnone : entries.findRev? (·.1 = name) = none := by
    rw [List.findRev?_eq_find?_reverse, List.find?_eq_none]
    simpa using h
  rw [get?_extend, hnone]
  rfl

/-- A binding and settings of other names may change places. -/
theorem extend_insert (value : String) (h : ∀ entry ∈ entries, entry.1 ≠ name) :
    (b.insert name value).extend entries = (b.extend entries).insert name value := by
  apply ext_get?
  intro other
  rw [get?_insert]
  by_cases hother : name = other
  · subst hother
    rw [get?_extend_of_forall_ne h, get?_insert, if_pos rfl, if_pos rfl]
  · rw [get?_extend, get?_extend, get?_insert, if_neg hother, if_neg hother]

/-- A binding that is undone behind settings of other names leaves just these. -/
theorem undo_extend_bind (value : String) (h : ∀ entry ∈ entries, entry.1 ≠ name) :
    ((b.bind name value).1.extend entries).undo (b.bind name value).2 = b.extend entries := by
  have hsaved : (b.bind name value).2 = ((b.extend entries).bind name value).2 := by
    rw [bind, bind, get?_extend_of_forall_ne h]
  have hbound : (b.bind name value).1.extend entries
      = ((b.extend entries).bind name value).1 := extend_insert value h
  rw [hsaved, hbound, undo_bind]

theorem get?_undo_of_ne {saved : Saved} (h : saved.name ≠ name) :
    (b.undo saved).get? name = b.get? name := by
  rw [undo]
  split
  · rw [get?_insert, if_neg h]
  · rw [get?_erase, if_neg h]

/-- A name that was not written down is left alone. -/
theorem get?_restore_of_notMem {saved : List Saved} (h : name ∉ saved.map (·.name)) :
    (b.restore saved).get? name = b.get? name := by
  induction saved with
  | nil => rfl
  | cons first rest ih =>
      have hfirst : name ≠ first.name := List.ne_of_not_mem_cons h
      have hrest : name ∉ rest.map (·.name) := List.not_mem_of_not_mem_cons h
      rw [restore_cons, get?_undo_of_ne hfirst.symm, ih hrest]

/-! ## Whole scopes -/

/-- A scope whose inner scopes leave what was set in them for good leaves what was set for good. -/
theorem afterScope_of_inner {actions : List Action}
    (sets : ∀ entry ∈ settings actions, entry.1 ∉ boundNames actions)
    (inner : ∀ nested, Action.scope nested ∈ actions →
      ∀ b : Bindings, b.afterScope nested = b.extend (settings nested)) (b : Bindings) :
    b.afterScope actions = b.extend (settings actions) := by
  induction actions generalizing b with
  | nil => rfl
  | cons action rest ih =>
      have hinner : ∀ nested, Action.scope nested ∈ rest →
          ∀ b : Bindings, b.afterScope nested = b.extend (settings nested) :=
        fun nested hmem => inner nested (List.mem_cons_of_mem _ hmem)
      cases action with
      | bind name value =>
          have hapart : ∀ entry ∈ settings rest, entry.1 ∉ name :: boundNames rest := sets
          have hrest := ih (fun entry hmem hbound =>
            hapart entry hmem (List.mem_cons_of_mem _ hbound)) hinner
          rw [afterScope_bind, hrest]
          exact undo_extend_bind value fun entry hmem heq =>
            hapart entry hmem (heq ▸ List.mem_cons_self)
      | set name value =>
          have hrest := ih (fun entry hmem => sets entry (List.mem_cons_of_mem _ hmem)) hinner
          rw [afterScope_set, hrest]
          rfl
      | scope nested =>
          have hrest := ih (fun entry hmem =>
            sets entry (List.mem_append_right _ hmem)) hinner
          rw [afterScope_scope, hrest, inner nested List.mem_cons_self, ← extend_append]
          rfl

/-- **A SCOPE LEAVES WHAT WAS SET FOR GOOD**, by induction on the scopes within it. -/
theorem afterScope_eq_extend {actions : List Action} (h : SetsApart actions) (b : Bindings) :
    b.afterScope actions = b.extend (settings actions) := by
  induction h generalizing b with
  | intro sets inner ih => exact afterScope_of_inner sets ih b

/-- **A SCOPE UNDOES ITS OWN**: where no name is set for good while a scope is open that binds it,
closing a scope gives each name that it has bound, however often, what the name held before
the scope, or takes it out if it held nothing.  Each other name is left as it is: at what it
was last set to, or else at what it held before. -/
theorem scope_undoes_its_own (b : Bindings) {actions : List Action} (h : SetsApart actions) :
    (∀ name ∈ boundNames actions, (b.afterScope actions).get? name = b.get? name) ∧
    ∀ name ∉ boundNames actions,
      (b.afterScope actions).get? name = (b.actAll actions).1.get? name ∧
      (b.afterScope actions).get? name
        = (((settings actions).findRev? (·.1 = name)).map (·.2)).or (b.get? name) := by
  refine ⟨?_, ?_⟩
  · intro name hbound
    rw [afterScope_eq_extend h]
    obtain ⟨sets, -⟩ := h
    exact get?_extend_of_forall_ne fun entry hmem heq => sets entry hmem (heq ▸ hbound)
  · intro name hother
    refine ⟨?_, ?_⟩
    · refine get?_restore_of_notMem ?_
      rwa [names_actAll]
    · rw [afterScope_eq_extend h, get?_extend]

/-- A scope that binds `x` twice, and in between a scope that binds it twice more. -/
def rebinding : List Action :=
  [.bind "x" "1", .scope [.bind "x" "2", .set "w" "3", .bind "y" "4", .bind "x" "5"],
    .set "z" "6", .bind "x" "7", .bind "v" "8"]

theorem setsApart_rebinding : SetsApart rebinding := by
  refine .intro (by decide) fun nested hmem => ?_
  obtain rfl : nested = [.bind "x" "2", .set "w" "3", .bind "y" "4", .bind "x" "5"] := by
    simpa [rebinding] using hmem
  exact .intro (by decide) fun nested hmem => by simp at hmem

/-- Afterwards `x` is what it was, `v` is gone again, and what was set has stayed. -/
theorem rebinding_undoes_its_own :
    let before := ofList [("x", "0"), ("z", "0")]
    SetsApart rebinding ∧ (before.afterScope rebinding).get? "x" = some "0" ∧
      (before.afterScope rebinding).get? "v" = none ∧
      (before.afterScope rebinding).get? "w" = some "3" ∧
      (before.afterScope rebinding).get? "z" = some "6" := by
  intro before
  obtain ⟨hbound, hother⟩ := scope_undoes_its_own before setsApart_rebinding
  refine ⟨setsApart_rebinding, ?_, ?_, ?_, ?_⟩
  · rw [hbound "x" (by decide)]
    rfl
  · rw [hbound "v" (by decide)]
    rfl
  · rw [(hother "w" (by decide)).2]
    rfl
  · rw [(hother "z" (by decide)).2]
    rfl

end Bindings

end TaskRunner
