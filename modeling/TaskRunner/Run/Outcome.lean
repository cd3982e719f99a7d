import TaskRunner.Run.Event

/-!
# Outcomes

An outcome is what a part of a run leaves: its result, the context and the world as
they are then, and the events it went through. Parts are put one behind the other with
`andThen`, which stops at the first error and keeps the order of the events.

The lemmas beside each operation say what it does to the four parts of an outcome.
-/

namespace TaskRunner

/-- What a part of a run leaves. -/
structure Outcome (σ : Type) where
  result : Except ExecutionError Unit
  context : Context
  world : σ
  events : List Event

namespace Outcome

variable {σ : Type}

/-- Nothing happens and nothing goes wrong. -/
def done (ctx : Context) (world : σ) : Outcome σ := ⟨.ok (), ctx, world, []⟩

/-- Nothing happens, but something is wrong. -/
def fail (e : ExecutionError) (ctx : Context) (world : σ) : Outcome σ := ⟨.error e, ctx, world, []⟩

/-- The outcome with events before its own. -/
def after (events : List Event) (o : Outcome σ) : Outcome σ := { o with events := events ++ o.events }

/-- The outcome with its error, if it has one, in another form. -/
def mapError (f : ExecutionError → ExecutionError) (o : Outcome σ) : Outcome σ :=
  { o with result := o.result.mapError f }

/-- The outcome as a task leaves it that ran last: it is not running any more, and its bindings are
undone. -/
def leave (saved : List Bindings.Saved) (o : Outcome σ) : Outcome σ :=
  { o with context := o.context.pop.2.restore saved }

/-- Goes on where nothing went wrong. -/
def andThen (o : Outcome σ) (next : Context → σ → Outcome σ) : Outcome σ :=
  match o.result with
  | .error _ => o
  | .ok () => (next o.context o.world).after o.events

/-- Behind an error nothing more happens. -/
theorem andThen_of_error {o : Outcome σ} {e : ExecutionError} (h : o.result = .error e)
    (next : Context → σ → Outcome σ) : o.andThen next = o := by
  simp [andThen, h]

/-- Otherwise the next part goes on in the context and the world that the first one left. -/
theorem andThen_of_ok {o : Outcome σ} (h : o.result = .ok ()) (next : Context → σ → Outcome σ) :
    o.andThen next = (next o.context o.world).after o.events := by
  simp [andThen, h]

/-- Events that came first change nothing about how it ends. -/
@[simp] theorem result_after (events : List Event) (o : Outcome σ) :
    (o.after events).result = o.result := rfl

@[simp] theorem context_after (events : List Event) (o : Outcome σ) :
    (o.after events).context = o.context := rfl

@[simp] theorem world_after (events : List Event) (o : Outcome σ) :
    (o.after events).world = o.world := rfl

/-- They come first. -/
@[simp] theorem events_after (events : List Event) (o : Outcome σ) :
    (o.after events).events = events ++ o.events := rfl

/-- Only an error has another form. -/
@[simp] theorem result_mapError (f : ExecutionError → ExecutionError) (o : Outcome σ) :
    (o.mapError f).result = o.result.mapError f := rfl

@[simp] theorem context_mapError (f : ExecutionError → ExecutionError) (o : Outcome σ) :
    (o.mapError f).context = o.context := rfl

@[simp] theorem events_mapError (f : ExecutionError → ExecutionError) (o : Outcome σ) :
    (o.mapError f).events = o.events := rfl

@[simp] theorem world_mapError (f : ExecutionError → ExecutionError) (o : Outcome σ) :
    (o.mapError f).world = o.world := rfl

/-- Leaving a task does not change how it ended. -/
@[simp] theorem result_leave (saved : List Bindings.Saved) (o : Outcome σ) :
    (o.leave saved).result = o.result := rfl

/-- The task comes off the stack before its bindings are undone. -/
@[simp] theorem context_leave (saved : List Bindings.Saved) (o : Outcome σ) :
    (o.leave saved).context = o.context.pop.2.restore saved := rfl

@[simp] theorem events_leave (saved : List Bindings.Saved) (o : Outcome σ) :
    (o.leave saved).events = o.events := rfl

@[simp] theorem world_leave (saved : List Bindings.Saved) (o : Outcome σ) :
    (o.leave saved).world = o.world := rfl

/-- What both parts keep of the context, the whole keeps. -/
theorem context_andThen {α : Type} (view : Context → α) (o : Outcome σ)
    (next : Context → σ → Outcome σ)
    (hnext : ∀ ctx world, view (next ctx world).context = view ctx) :
    view (o.andThen next).context = view o.context := by
  cases h : o.result with
  | error e => rw [andThen_of_error h]
  | ok => rw [andThen_of_ok h, context_after, hnext]

end Outcome

end TaskRunner
