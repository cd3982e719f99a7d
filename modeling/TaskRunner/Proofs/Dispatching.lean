import Mathlib.Data.List.Nodup
import Mathlib.Logic.Relation
import TaskRunner.Proofs.CycleSearch
import TaskRunner.Proofs.DynamicScope
import TaskRunner.Proofs.Independence

/-! # Who is asked to run a task

    The registry of handlers is written by name, from the list of all tasks and the
    callables that somebody registers, and of two entries with one name the later counts.
    It is read under the name of a task that was found by the namespaces, by an alias or
    from inside another task.  In a file that passes the check both speak of the same
    task: what is found is listed under the name it is known by, and no other task has
    that name (`get?_ofTaskFile`).

    What a call does itself is told apart from what its dependencies do by the stack: an
    event is a call's own **`work`** if just the tasks of its context and its own are
    running and a program or a callable does something for it.  Behind dependencies that
    succeed, that is the work of `runOwn` and nothing else (`Call.outcome_of_ready`), and
    who does it is what the registry says (**`dispatch_is_exact`**). -/

namespace TaskRunner

open Relation

variable {σ : Type}

/-! ## The registry -/

/-- Where no two tasks have one name, the registry has for each task just the program that its own
dispatcher names. -/
theorem Externals.get?_ofTaskFile {file : TaskFile} (hnodup : file.names.Nodup) {name : String}
    {task : Task} (hmem : (name, task) ∈ file.qualifiedTasks) :
    (ofTaskFile file : Externals σ).get? name
      = (task.dispatch.bind programOf?).map fun program => .program program.1 program.2 := by
  have hname : ∀ entry : String × Task, ∀ handler : String × Handler σ,
      handlerOf? entry = some handler → handler.1 = entry.1 := by
    intro entry handler h
    obtain ⟨program, -, rfl⟩ := Option.map_eq_some_iff.mp h
    rfl
  have hgiven : (handlerOf? (name, task)).map (·.2)
      = (task.dispatch.bind programOf?).map fun program =>
          (Handler.program program.1 program.2 : Handler σ) := by
    rw [handlerOf?, Option.map_map]
    rfl
  rw [get?, ofTaskFile, ← hgiven]
  cases hfind : (file.qualifiedTasks.filterMap handlerOf?).reverse.find?
      fun entry : String × Handler σ => entry.1 == name with
  | some handler =>
      obtain ⟨entry, hentry, hhandler⟩ := List.mem_filterMap.mp
        (List.mem_reverse.mp (List.mem_of_find?_eq_some hfind))
      have hsame : entry.1 = name :=
        (hname entry handler hhandler).symm.trans (by simpa using List.find?_some hfind)
      obtain rfl : entry = (name, task) := List.inj_on_of_nodup_map hnodup hentry hmem hsame
      rw [hhandler]
  | none =>
      -- an entry for the task would have been found
      cases hhandler : (handlerOf? (name, task) : Option (String × Handler σ)) with
      | none => rfl
      | some handler =>
          have hlisted := List.mem_reverse.mpr (List.mem_filterMap.mpr ⟨_, hmem, hhandler⟩)
          have hmissed := List.find?_eq_none.mp hfind handler hlisted
          rw [hname _ _ hhandler] at hmissed
          exact absurd (beq_self_eq_true name) hmissed

/-! ## Work -/

/-- A program is started that writes to the streams of the run, or a callable is called. -/
def Event.isWork (event : Event) : Bool := event.exported?.isSome

/-- Where nothing is exported, no work is done. -/
theorem Within.no_work {stack : List String} {events : List Event}
    (h : Within stack (fun _ => False) events) : events.filter Event.isWork = [] := by
  refine List.filter_eq_nil_iff.mpr fun event hmem hwork => ?_
  obtain ⟨vars, hvars⟩ := Option.isSome_iff_exists.mp hwork
  exact h.exported event hmem vars hvars

/-- Starting a program is one attempt. -/
theorem work_runProgram (host : Host σ) (ctx : Context) (program : String)
    (arguments : List String) (startFailure : StartError → ExecutionError)
    (exitFailure : Exit → ExecutionError) (world : σ) :
    ∃ started, (runProgram host ctx (ctx.launch program arguments) startFailure exitFailure
        world).events.filter Event.isWork
      = [ctx.event (.launched (ctx.launch program arguments) started)] := by
  rw [runProgram]
  split
  · exact ⟨false, rfl⟩
  · rename_i completion after hstart
    refine ⟨true, ?_⟩
    have hpieces := Within.no_work
      ((within_piece ctx _ .out completion.out).append (within_piece ctx _ .err completion.err))
    have hend : ∀ o : Outcome σ, o.events = [] →
        (o.after (ctx.event (.launched (ctx.launch program arguments) true)
            :: (ctx.piece .out completion.out ++ ctx.piece .err completion.err))).events.filter
            Event.isWork
          = [ctx.event (.launched (ctx.launch program arguments) true)] := by
      intro o ho
      rw [Outcome.events_after, ho, List.append_nil, List.filter_cons_of_pos rfl, hpieces]
    dsimp only
    split
    · exact hend _ rfl
    · exact hend _ rfl

/-! ## Calls -/

namespace Call

/-- The context in which the task does its own work, and before it its dependencies. -/
def entered (host : Host σ) (call : Call σ) : Context :=
  call.context.entered call.found (call.bound host)

/-- What happens until the task is entered. -/
def entry (host : Host σ) (call : Call σ) : List Event :=
  call.context.debug ("Running task: " ++ call.found.qualified) ++ (call.bound host).events
    ++ [(call.entered host).event .entered]

/-- The events in which a program or a callable works for the task itself. -/
def work (call : Call σ) (events : List Event) : List Event :=
  (events.filter Event.isWork).filter fun event =>
    decide (event.stack = call.context.stack ++ [call.found.qualified])

theorem work_append (call : Call σ) (events more : List Event) :
    call.work (events ++ more) = call.work events ++ call.work more := by
  rw [work, List.filter_append, List.filter_append]
  rfl

section

variable (file : TaskFile) (host : Host σ) (externals : Externals σ)

/-- What the call leaves. -/
def outcome (call : Call σ) (listed : call.found.qualified ∈ file.names) : Outcome σ :=
  invoke file host externals call.context call.found listed call.given call.world

/-- What the dependencies of the task leave, if it is entered. -/
def dependencies (call : Call σ) : Outcome σ :=
  invokeAll file host externals (call.entered host) call.found call.found.task.dependencies
    (call.bound host).world

/-- What the task's own work leaves, behind its dependencies. -/
def own (call : Call σ) : Outcome σ :=
  runOwn host externals (call.entered host) call.found call.given
    (call.dependencies file host externals).world

variable {file host externals}

/-- On the way in, programs are only captured. -/
theorem work_entry (call : Call σ) : call.work (call.entry host) = [] := by
  have hnone : (call.context.debug ("Running task: " ++ call.found.qualified)
      ++ (call.bound host).events).filter Event.isWork = [] :=
    Within.no_work ((within_debug ..).append (within_bindFrame ..))
  rw [work, entry, List.filter_append, hnone]
  rfl

/-- What dependencies do, they do with further tasks running. -/
theorem work_dependencies (call : Call σ) :
    call.work (call.dependencies file host externals).events = [] := by
  refine List.filter_eq_nil_iff.mpr fun event hwork hstack => ?_
  obtain ⟨hmem, hexported⟩ := List.mem_filter.mp hwork
  obtain ⟨vars, hvars⟩ := Option.isSome_iff_exists.mp hexported
  obtain ⟨other, hother, rest, -, -, hreached, -⟩ :=
    (reaches_of_event file host externals).2 _ _ _ _ event hmem vars hvars
  rw [of_decide_eq_true hstack, hother.context_eq.1] at hreached
  have hlength := congrArg List.length hreached
  simp [entered] at hlength

/-- All that is worked where the task does its own work is its own work. -/
theorem work_own (call : Call σ) :
    call.work (call.own file host externals).events
      = (call.own file host externals).events.filter Event.isWork := by
  refine List.filter_eq_self.mpr fun event hwork => decide_eq_true ?_
  exact (within_runOwn host externals (call.entered host) call.found call.given
    (call.dependencies file host externals).world).stack_eq event (List.mem_filter.mp hwork).1

/-- **BEHIND DEPENDENCIES THAT SUCCEED** a call ends as the task's own work does, and this is all
    that anyone works for the task itself. -/
theorem outcome_of_ready {call : Call σ} (hnew : call.found.qualified ∉ call.context.stack)
    (hready : (call.dependencies file host externals).result = .ok ())
    (listed : call.found.qualified ∈ file.names) :
    (call.outcome file host externals listed).result = (call.own file host externals).result ∧
      call.work (call.outcome file host externals listed).events
        = (call.own file host externals).events.filter Event.isWork := by
  have hinvoked : call.outcome file host externals listed
      = .ofTask host externals call.context call.found call.given (call.bound host)
          (call.dependencies file host externals) := invoke_of_new file host externals hnew ..
  have hcontext : (call.dependencies file host externals).context = call.entered host :=
    context_invokeAll ..
  rw [hinvoked, Outcome.ofTask, Outcome.andThen_of_ok hready, hcontext]
  refine ⟨rfl, ?_⟩
  show call.work (call.entry host ++ ((call.dependencies file host externals).events
    ++ (call.own file host externals).events)) = _
  rw [work_append, work_append, work_entry, work_dependencies, work_own]
  rfl

end

/-! ### The work of an external task -/

section

variable (file : TaskFile) (host : Host σ) (externals : Externals σ) {call : Call σ}
  {dispatch : Dispatch} (hdispatch : call.found.task.dispatch = some dispatch)

include hdispatch

/-- A task that others run does what its handler does, and fails if there is none. -/
theorem own_of_dispatch :
    let answer := match externals.get? call.found.qualified with
      | none => Outcome.fail (.externalUnavailable call.found.qualified) (call.entered host)
          (call.dependencies file host externals).world
      | some handler => handler.run host (call.entered host) call.found.qualified call.given
          (call.dependencies file host externals).world
    (call.own file host externals).result = answer.result ∧
      (call.own file host externals).events.filter Event.isWork
        = answer.events.filter Event.isWork := by
  intro answer
  have hheader := Within.no_work (within_info (call.entered host) (fun _ => False)
    (Display.taskHeader (call.entered host).colour call.found.qualified call.given))
  rw [own, runOwn, hdispatch]
  refine ⟨rfl, ?_⟩
  rw [Outcome.events_after, List.filter_append, hheader]
  rfl

theorem own_of_nobody (h : externals.get? call.found.qualified = none) :
    (call.own file host externals).result = .error (.externalUnavailable call.found.qualified) ∧
      (call.own file host externals).events.filter Event.isWork = [] := by
  have hown := own_of_dispatch file host externals hdispatch
  rw [h] at hown
  exact hown

theorem own_of_callable {run : Callable σ}
    (h : externals.get? call.found.qualified = some (.callable run)) :
    (call.own file host externals).result
        = (run call.given (call.entered host) (call.dependencies file host externals).world).1 ∧
      (call.own file host externals).events.filter Event.isWork
        = [(call.entered host).event
            (.called call.found.qualified call.given (call.entered host).vars)] := by
  have hown := own_of_dispatch file host externals hdispatch
  rw [h] at hown
  exact hown

theorem own_of_program {program : String} {leading : List String}
    (h : externals.get? call.found.qualified = some (.program program leading)) :
    ((call.own file host externals).result = .ok () ∨
        ∃ message, (call.own file host externals).result
          = .error (.external call.found.qualified message)) ∧
      ∃ started, (call.own file host externals).events.filter Event.isWork
        = [(call.entered host).event (.launched ((call.entered host).launch program
            (leading ++ [lastSegment call.found.qualified] ++ call.given)) started)] := by
  obtain ⟨hresult, hwork⟩ := own_of_dispatch file host externals hdispatch
  rw [h] at hresult hwork
  obtain ⟨started, hstarted⟩ := work_runProgram host (call.entered host) program
    (leading ++ [lastSegment call.found.qualified] ++ call.given)
    (fun e => .external call.found.qualified
      ("failed to start '" ++ program ++ "': " ++ e.message))
    (fun exit => .external call.found.qualified exit.failureText)
    (call.dependencies file host externals).world
  refine ⟨?_, started, hwork.trans hstarted⟩
  cases hend : (call.own file host externals).result with
  | ok => exact .inl rfl
  | error e =>
      rcases error_of_runProgram (hresult.symm.trans hend) with ⟨cause, rfl⟩ | ⟨exit, rfl⟩
      · exact .inr ⟨_, rfl⟩
      · exact .inr ⟨_, rfl⟩

end

end Call

/-! ## Calls of a request -/

/-- What happens in the first part happens in the whole. -/
theorem Outcome.prefix_andThen (o : Outcome σ) (next : Context → σ → Outcome σ) :
    o.events <+: (o.andThen next).events := by
  cases hresult : o.result with
  | error e =>
      refine ⟨[], ?_⟩
      rw [andThen_of_error hresult, List.append_nil]
  | ok =>
      rw [andThen_of_ok hresult]
      exact List.prefix_append _ _

section

variable {file : TaskFile} {host : Host σ} {externals : Externals σ}

/-- A call for a dependency is for what one of them means, and what happens in it happens while the
dependencies are invoked. -/
theorem DependencyCall.part {source : ResolvedTask} {ctx : Context} {dependencies : List String}
    {world : σ} {call : Call σ}
    (h : DependencyCall file host externals source ctx dependencies world call) :
    ∃ dependency ∈ dependencies, file.resolveFrom source dependency = some call.found ∧
      ∀ listed, (call.outcome file host externals listed).events
        <:+: (invokeAll file host externals ctx source dependencies world).events := by
  induction h with
  | @here dependency rest world target htarget =>
      refine ⟨dependency, List.mem_cons_self, htarget, fun listed => ?_⟩
      cases hfirst : (invoke file host externals ctx target
          (TaskFile.qualified_mem_names_of_resolveFrom htarget) [] world).result with
      | error e =>
          rw [invokeAll_of_failed file host externals htarget hfirst]
          exact List.infix_rfl
      | ok =>
          rw [invokeAll_of_ok file host externals htarget hfirst]
          exact (List.prefix_append _ _).isInfix
  | later htarget hok _ ih =>
      obtain ⟨dependency, hmem, hmeans, hpart⟩ := ih
      refine ⟨dependency, List.mem_cons_of_mem _ hmem, hmeans, fun listed => ?_⟩
      rw [invokeAll_of_ok file host externals htarget hok, context_invoke]
      exact (hpart listed).trans (List.suffix_append _ _).isInfix

/-- What happens in a call happens in the call that makes it. -/
theorem Call.Makes.infix_events {caller call : Call σ}
    (h : caller.Makes file host externals call) (listed : call.found.qualified ∈ file.names)
    (listed' : caller.found.qualified ∈ file.names) :
    (call.outcome file host externals listed).events
      <:+: (caller.outcome file host externals listed').events := by
  obtain ⟨-, -, -, hpart⟩ := h.2.part
  have hcaller : caller.outcome file host externals listed'
      = .ofTask host externals caller.context caller.found caller.given (caller.bound host)
          (caller.dependencies file host externals) := invoke_of_new file host externals h.1 ..
  rw [hcaller, Outcome.ofTask, Outcome.events_after, Outcome.events_leave]
  exact ((hpart listed).trans (Outcome.prefix_andThen _ _).isInfix).trans
    (List.suffix_append _ _).isInfix

/-- A call that is reached from a known task is for a known task, and what happens in it happens in
the first one. -/
theorem Call.known_of_reached {first call : Call σ}
    (h : ReflTransGen (Call.Makes file host externals) first call)
    (hknown : file.resolve first.found.qualified = some first.found) :
    file.resolve call.found.qualified = some call.found ∧
      ∀ listed listed', (call.outcome file host externals listed).events
        <:+: (first.outcome file host externals listed').events := by
  induction h with
  | refl => exact ⟨hknown, fun _ _ => List.infix_rfl⟩
  | tail _ hmakes ih =>
      obtain ⟨hcaller, hpart⟩ := ih
      obtain ⟨dependency, -, hmeans, -⟩ := hmakes.2.part
      refine ⟨TaskFile.resolve_qualified_of_resolveFrom hmeans, fun listed listed' => ?_⟩
      have hlisted := TaskFile.qualified_mem_names hcaller
      exact (hmakes.infix_events listed hlisted).trans (hpart hlisted listed')

/-- The running tasks lead to every call that is reached. -/
theorem Call.leadTo_of_reached {first call : Call σ}
    (h : ReflTransGen (Call.Makes file host externals) first call)
    (hknown : file.resolve first.found.qualified = some first.found)
    (hlead : file.LeadTo first.context.stack first.found.qualified) :
    file.LeadTo call.context.stack call.found.qualified := by
  induction h with
  | refl => exact hlead
  | tail hbefore hmakes ih =>
      obtain ⟨dependency, hmem, hmeans, -⟩ := hmakes.2.part
      rw [hmakes.2.context_eq.1]
      exact ih.concat (Call.known_of_reached hbefore hknown).1 hmem hmeans

end

/-! ## Who is asked -/

/-- A callable was registered for a name, and none for that name after it. -/
def LastRegistered (callables : List (String × Callable σ)) (name : String)
    (run : Callable σ) : Prop :=
  ∃ front back, callables = front ++ (name, run) :: back ∧ ∀ entry ∈ back, entry.1 ≠ name

/-- No callable was registered for a name. -/
def Unregistered (callables : List (String × Callable σ)) (name : String) : Prop :=
  ∀ entry ∈ callables, entry.1 ≠ name

theorem findRev?_eq_none_iff {callables : List (String × Callable σ)} {name : String} :
    callables.findRev? (·.1 = name) = none ↔ Unregistered callables name := by
  rw [List.findRev?_eq_find?_reverse, List.find?_eq_none]
  simp [Unregistered]

theorem findRev?_eq_some_iff {callables : List (String × Callable σ)} {name : String}
    {run : Callable σ} :
    callables.findRev? (·.1 = name) = some (name, run) ↔ LastRegistered callables name run := by
  rw [List.findRev?_eq_find?_reverse, List.find?_eq_some_iff_append]
  constructor
  · rintro ⟨-, back, front, hreverse, hback⟩
    refine ⟨front.reverse, back.reverse, ?_, ?_⟩
    · rw [← List.reverse_reverse callables, hreverse]
      simp
    · intro entry hmem
      simpa using hback entry (List.mem_reverse.mp hmem)
  · rintro ⟨front, back, rfl, hback⟩
    refine ⟨by simp, back.reverse, front.reverse, by simp, ?_⟩
    intro entry hmem
    simpa using hback entry (List.mem_reverse.mp hmem)

theorem LastRegistered.not_unregistered {callables : List (String × Callable σ)} {name : String}
    {run : Callable σ} (h : LastRegistered callables name run) : ¬ Unregistered callables name := by
  obtain ⟨front, back, rfl, -⟩ := h
  exact fun hnone => hnone (name, run) (by simp) rfl

theorem LastRegistered.unique {callables : List (String × Callable σ)} {name : String}
    {run other : Callable σ} (h : LastRegistered callables name run)
    (hother : LastRegistered callables name other) : run = other := by
  have hsame := (findRev?_eq_some_iff.mpr h).symm.trans (findRev?_eq_some_iff.mpr hother)
  exact congrArg Prod.snd (Option.some.inj hsame)

/-- Either no callable was registered for a name, or one was the last. -/
theorem unregistered_or (callables : List (String × Callable σ)) (name : String) :
    Unregistered callables name ∨ ∃ run, LastRegistered callables name run := by
  cases hlast : callables.findRev? (·.1 = name) with
  | none => exact .inl (findRev?_eq_none_iff.mp hlast)
  | some entry =>
      have hname : entry.1 = name := by
        rw [List.findRev?_eq_find?_reverse] at hlast
        simpa using List.find?_some hlast
      obtain ⟨_, run⟩ := entry
      obtain rfl := hname
      exact .inr ⟨run, findRev?_eq_some_iff.mp hlast⟩

/-- What is asked to run a task that names the dispatcher `dispatch`, and what becomes of it, when the
    callables were registered one after the other and the dependencies have succeeded in the
    world that `world` is then.

    - Without a callable it is the task's own dispatcher, in one attempt: its first word is the
      program, which gets the other words, the directory, if there is one, what follows the last
      colon of the task's name, and the arguments as they were given.
    - The callable that was registered last takes its place, in one call, and its answer is the
      result.
    - Without a callable and with a blank dispatcher, nobody is asked.
    - The task is unavailable just then, or because its callable itself says so. -/
structure Call.Dispatched (callables : List (String × Callable σ)) (host : Host σ)
    (dispatch : Dispatch) (call : Call σ) (world : σ) (o : Outcome σ) : Prop where
  program : Unregistered callables call.found.qualified → ∀ program words,
    Text.words dispatch.dispatcher.toList = program :: words →
      (∃ started, call.work o.events = [(call.entered host).event (.launched
        ((call.entered host).launch (String.ofList program)
          (words.map String.ofList ++ dispatch.sourceDir.toList
            ++ [lastSegment call.found.qualified] ++ call.given)) started)]) ∧
      (o.result = .ok () ∨ ∃ message, o.result = .error (.external call.found.qualified message))
  callable : ∀ run, LastRegistered callables call.found.qualified run →
    call.work o.events = [(call.entered host).event
      (.called call.found.qualified call.given (call.entered host).vars)] ∧
    o.result = (run call.given (call.entered host) world).1
  nobody : Unregistered callables call.found.qualified →
    Text.words dispatch.dispatcher.toList = [] → call.work o.events = []
  unavailable : o.result = .error (.externalUnavailable call.found.qualified) ↔
    (Unregistered callables call.found.qualified ∧ Text.words dispatch.dispatcher.toList = []) ∨
      ∃ run, LastRegistered callables call.found.qualified run ∧
        (run call.given (call.entered host) world).1
          = .error (.externalUnavailable call.found.qualified)

namespace Runner

variable {file : TaskFile} {callables : List (String × Callable σ)}

/-- Without a callable, a task is run by the program that its own dispatcher names. -/
theorem get?_of_unregistered (host : Host σ) (ctx : Context) (world : σ)
    (hnodup : file.names.Nodup) {name : String} {task : Task}
    (hlisted : (name, task) ∈ file.qualifiedTasks) {dispatch : Dispatch}
    (hdispatch : task.dispatch = some dispatch) (h : Unregistered callables name) :
    (registered host file ctx callables world).1.externals.get? name
      = (Externals.programOf? dispatch).map fun program => .program program.1 program.2 := by
  rw [get?_registered, findRev?_eq_none_iff.mpr h, Externals.get?_ofTaskFile hnodup hlisted,
    hdispatch]
  rfl

/-- A callable takes the place of whatever was there before. -/
theorem get?_of_lastRegistered (host : Host σ) (file : TaskFile) (ctx : Context) (world : σ)
    {name : String} {run : Callable σ}
    (h : LastRegistered callables name run) :
    (registered host file ctx callables world).1.externals.get? name = some (.callable run) := by
  rw [get?_registered, findRev?_eq_some_iff.mpr h]
  rfl

/-- **A CALL IS DISPATCHED** by what was registered and by the task's own dispatcher, once its
    dependencies have succeeded. -/
theorem dispatched_of_ready {host : Host σ} {ctx : Context} {world : σ}
    (hnodup : file.names.Nodup) {call : Call σ}
    (hlisted : (call.found.qualified, call.found.task) ∈ file.qualifiedTasks)
    (hnew : call.found.qualified ∉ call.context.stack)
    (hready : (call.dependencies file host
      (registered host file ctx callables world).1.externals).result = .ok ())
    {dispatch : Dispatch} (hdispatch : call.found.task.dispatch = some dispatch)
    (listed : call.found.qualified ∈ file.names) :
    call.Dispatched callables host dispatch
      (call.dependencies file host (registered host file ctx callables world).1.externals).world
      (call.outcome file host (registered host file ctx callables world).1.externals listed) := by
  obtain ⟨hresult, hwork⟩ := Call.outcome_of_ready hnew hready listed
  have hprogram (hnone : Unregistered callables call.found.qualified) :=
    get?_of_unregistered host ctx world hnodup hlisted hdispatch hnone
  rw [Externals.programOf?] at hprogram
  constructor
  case program =>
      intro hnone program words hwords
      rw [hwords] at hprogram
      rw [hresult, hwork]
      exact (Call.own_of_program file host _ hdispatch (hprogram hnone)).symm
  case callable =>
      intro run hlast
      rw [hresult, hwork]
      exact (Call.own_of_callable file host _ hdispatch
        (get?_of_lastRegistered host file ctx world hlast)).symm
  case nobody =>
      intro hnone hblank
      rw [hblank] at hprogram
      rw [hwork]
      exact (Call.own_of_nobody file host _ hdispatch (hprogram hnone)).2
  case unavailable =>
      rw [hresult]
      rcases unregistered_or callables call.found.qualified with hnone | ⟨run, hlast⟩
      · cases hwords : Text.words dispatch.dispatcher.toList with
        | nil =>
            rw [hwords] at hprogram
            exact iff_of_true (Call.own_of_nobody file host _ hdispatch (hprogram hnone)).1
              (.inl ⟨hnone, rfl⟩)
        | cons program words =>
            rw [hwords] at hprogram
            refine iff_of_false ?_ ?_
            · intro hunavailable
              rcases (Call.own_of_program file host _ hdispatch (hprogram hnone)).1 with
                hok | ⟨message, hfailed⟩
              · cases hunavailable.symm.trans hok
              · cases hunavailable.symm.trans hfailed
            · rintro (⟨-, hblank⟩ | ⟨run, hlast, -⟩)
              · cases hblank
              · exact hlast.not_unregistered hnone
      · rw [(Call.own_of_callable file host _ hdispatch
          (get?_of_lastRegistered host file ctx world hlast)).1]
        constructor
        · exact fun hanswer => .inr ⟨run, hlast, hanswer⟩
        · rintro (⟨hnone, -⟩ | ⟨other, hother, hanswer⟩)
          · exact absurd hnone hlast.not_unregistered
          · rwa [hlast.unique hother]

theorem stack_setVariables (host : Host σ) (ctx : Context) (world : σ) (vars : List Variable) :
    (setVariables host ctx world vars).1.stack = ctx.stack := by
  induction vars generalizing ctx world with
  | nil => rfl
  | cons v rest ih => exact ih ..

/-- Registering callables changes neither the file nor the running tasks. -/
theorem file_registered (host : Host σ) (file : TaskFile) (ctx : Context)
    (callables : List (String × Callable σ)) (world : σ) :
    (registered host file ctx callables world).1.file = file ∧
      (registered host file ctx callables world).1.context.stack = ctx.stack := by
  have hall : ∀ runner : Runner σ,
      let made := callables.foldl (fun runner entry => runner.register entry.1 entry.2) runner
      made.file = runner.file ∧ made.context.stack = runner.context.stack := by
    induction callables with
    | nil => exact fun _ => ⟨rfl, rfl⟩
    | cons entry rest ih => exact fun runner => ih (runner.register entry.1 entry.2)
  obtain ⟨hfile, hstack⟩ := hall (Runner.new host file ctx world).1
  exact ⟨hfile, hstack.trans (stack_setVariables ..)⟩

/-- A request for a task is a call of that task. -/
theorem outcome_eq_call (host : Host σ) {runner : Runner σ} {file : TaskFile}
    (hfile : runner.file = file) {name : String} {found : ResolvedTask}
    (hfound : file.resolve (requestedTask name) = some found) (given : List String) (world : σ)
    (listed : found.qualified ∈ file.names) :
    runner.outcome host name given world
      = Call.outcome file host runner.externals ⟨runner.context, found, given, world⟩ listed := by
  subst hfile
  exact outcome_of_some hfound ..

/-- **DISPATCH IS EXACT**: take a file that passes the check, and callables that were registered.
    When a request means a task, by its own name, an alias or a path of namespaces, that task
    is called with the arguments of the request, and all calls that follow from it are made
    without arguments.  Every call of an external task that is not running, and that is
    always so where no task was running before the request, is dispatched just as the
    task itself says, as soon as its dependencies have succeeded. -/
theorem dispatch_is_exact (host : Host σ) {file : TaskFile} (hvalid : file.validate = .ok ())
    (ctx : Context) (callables : List (String × Callable σ)) (world : σ)
    (name : String) (given : List String) (now : σ) :
    let runner := (registered host file ctx callables world).1
    ∀ found, file.resolve (requestedTask name) = some found →
      ∀ call, ReflTransGen (Call.Makes file host runner.externals)
          ⟨runner.context, found, given, now⟩ call →
        ∃ listed,
          let o := call.outcome file host runner.externals listed
          let dependencies := call.dependencies file host runner.externals
          (call = ⟨runner.context, found, given, now⟩ ∧
            o = runner.outcome host name given now ∨ call.given = []) ∧
          o.events <:+: (runner.outcome host name given now).events ∧
          (ctx.stack = [] → call.found.qualified ∉ call.context.stack) ∧
          ∀ dispatch, call.found.task.dispatch = some dispatch →
            call.found.qualified ∉ call.context.stack → dependencies.result = .ok () →
              call.Dispatched callables host dispatch dependencies.world o := by
  intro runner found hfound call hreached
  obtain ⟨hfile, hstack⟩ := file_registered host file ctx callables world
  obtain ⟨hknown, hpart⟩ := Call.known_of_reached hreached (TaskFile.resolve_qualified hfound)
  have hrequest := outcome_eq_call host hfile hfound given now
    (TaskFile.qualified_mem_names hfound)
  refine ⟨TaskFile.qualified_mem_names hknown, ?_, ?_, ?_, ?_⟩
  · rcases ReflTransGen.cases_tail hreached with rfl | ⟨caller, -, hmakes⟩
    · exact .inl ⟨rfl, hrequest.symm⟩
    · exact .inr hmakes.2.context_eq.2
  · rw [hrequest]
    exact hpart _ _
  · intro hidle
    have hlead : file.LeadTo runner.context.stack found.qualified := by
      rw [hstack, hidle]
      exact TaskFile.leadTo_nil _ _
    exact (Call.leadTo_of_reached hreached (TaskFile.resolve_qualified hfound) hlead).not_mem
      (TaskFile.acyclic_of_validate hvalid)
  · intro dispatch hdispatch hnew hready
    exact dispatched_of_ready (TaskFile.clear_of_validate hvalid).1
      (TaskFile.mem_qualifiedTasks_of_resolve hknown) hnew hready hdispatch _

/-- A file with a task that a script runs behind another task, and one that is told under an alias. -/
def scripted : TaskFile where
  fileNamespace := some "app"
  tasks := [
    { name := "prep", commands := [⟨[.text "make prep"], false, false⟩] },
    { name := "gen:docs", arguments := ["target"], dependencies := ["prep"]
      dispatch := some ⟨"sh  ./dispatch.sh", some "./tasks"⟩ }]

/-- Called by its alias with one argument more than it has, the task starts its own script once. -/
theorem scripted_is_dispatched :
    scripted.validate = .ok () ∧
      let runner := (registered obliging scripted default [] ()).1
      ∃ found, scripted.resolve "app:gen:docs" = some found ∧
        let call : Call Unit := ⟨runner.context, found, ["a", "b"], ()⟩
        ∃ started, call.work (runner.outcome obliging "app:gen:docs" ["a", "b"] ()).events
          = [(call.entered obliging).event (.launched ((call.entered obliging).launch "sh"
              ["./dispatch.sh", "./tasks", "docs", "a", "b"]) started)] := by
  have hvalid : scripted.validate = .ok () := by cbv
  refine ⟨hvalid, ?_⟩
  intro runner
  refine ⟨_, rfl, ?_⟩
  intro call
  obtain ⟨listed, hcall, -, hnew, hdispatched⟩ :=
    dispatch_is_exact obliging hvalid default [] () "app:gen:docs" ["a", "b"] () _ rfl call .refl
  have hready : (call.dependencies scripted obliging runner.externals).result = .ok () := by
    show (invokeAll _ _ _ _ _ ["prep"] _).result = _
    rw [invokeAll_of_ok _ _ _ rfl (by rw [invoke_of_leaf _ _ _ (by decide) rfl]; rfl),
      invokeAll_nil]
    rfl
  have hwords : Text.words "sh  ./dispatch.sh".toList
      = ["sh".toList, "./dispatch.sh".toList] := by decide
  obtain ⟨started, hstarted⟩ := ((hdispatched _ rfl (hnew rfl) hready).program
    (fun _ hmem => absurd hmem List.not_mem_nil) _ _ hwords).1
  have harguments : ["./dispatch.sh".toList].map String.ofList ++ (some "./tasks").toList
      ++ [lastSegment "gen:docs"] ++ ["a", "b"]
        = ["./dispatch.sh", "./tasks", "docs", "a", "b"] := by decide +kernel
  rcases hcall with ⟨-, hrequest⟩ | hnone
  · rw [hrequest, String.ofList_toList] at hstarted
    refine ⟨started, hstarted.trans ?_⟩
    exact congrArg (fun arguments => [(call.entered obliging).event
      (.launched ((call.entered obliging).launch "sh" arguments) started)]) harguments
  · cases hnone

end Runner

end TaskRunner
