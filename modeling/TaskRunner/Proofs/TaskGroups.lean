import TaskRunner.CommandLine
import TaskRunner.Proofs.DynamicScope
import TaskRunner.Proofs.EarlyVerbosity
import TaskRunner.Proofs.Fragments

/-! # Groups of tasks on a command line

    A command line is cut at its separators, and the cut loses no argument: what stands in
    front of the first separator and the groups behind it are the arguments without the
    separators (`append_flatten_splitGroups`).

    Groups are then requests on one runner.  The run is compared with the outcomes that the
    same requests have one after the other (`Runner.outcomes`), whether those before succeed
    or not: **`Serves`** says that some requests are made and others are not, that all that
    happens is what happens in those that are made, and that the last of these is the first
    one that fails, if any does.

    Hence **`groups_are_run`**: each group is one request, its first word the task and the
    others the arguments, in the order of the command line, and there is a request for the
    default task just where there is no group. -/

namespace TaskRunner

/-! ## Cutting -/

/-- The pieces between separators are what is left without the separators. -/
theorem flatten_splitOn {α : Type} [DecidableEq α] (separator : α) (l : List α) :
    (l.splitOn separator).flatten = l.filter (· ≠ separator) := by
  induction l with
  | nil => rfl
  | cons a l ih =>
      rw [List.splitOn, List.splitOnP_cons_eq_if_modifyHead, ← List.splitOn]
      by_cases ha : a = separator
      · rw [if_pos (by simpa using ha), List.flatten_cons, List.nil_append, ih,
          List.filter_cons_of_neg (by simpa using ha)]
      · rw [if_neg (by simpa using ha), List.filter_cons_of_pos (by simpa using ha), ← ih]
        obtain ⟨piece, pieces, hpieces⟩ :=
          List.exists_cons_of_ne_nil (List.splitOn_ne_nil separator l)
        rw [hpieces]
        rfl

theorem head_splitGroups (arguments : List String) :
    (splitGroups arguments).1 = arguments.takeWhile (· ≠ groupSeparator) := by
  obtain ⟨later, hsplit, hhead, hlater⟩ := exists_splitGroups arguments
  have hall : ∀ argument ∈ (splitGroups arguments).1, argument ≠ groupSeparator :=
    fun argument hmem heq => hhead (heq ▸ hmem)
  conv => rhs; rw [hsplit]
  rw [List.takeWhile_append_of_pos (by simpa using hall)]
  obtain rfl | ⟨rest, rfl⟩ := hlater
  · rw [List.takeWhile_nil, List.append_nil]
  · rw [List.takeWhile_cons_of_neg (by simp), List.append_nil]

/-- **NO ARGUMENT IS LOST**: the first part and the groups are the arguments without separators. -/
theorem append_flatten_splitGroups (arguments : List String) :
    (splitGroups arguments).1 ++ (splitGroups arguments).2.flatten
      = arguments.filter (· ≠ groupSeparator) := by
  rw [← flatten_splitOn, splitGroups]
  cases h : arguments.splitOn groupSeparator with
  | nil => rfl
  | cons head groups =>
      dsimp only
      rw [List.flatten_filter_not_isEmpty, List.flatten_cons]

theorem of_mem_splitGroups {arguments group : List String}
    (h : group ∈ (splitGroups arguments).2) : group ≠ [] ∧ groupSeparator ∉ group := by
  have hwords : ∀ argument ∈ (splitGroups arguments).2.flatten, argument ≠ groupSeparator := by
    intro argument hmem
    have hkept : argument ∈ arguments.filter (· ≠ groupSeparator) := by
      rw [← append_flatten_splitGroups]
      exact List.mem_append_right _ hmem
    simpa using (List.mem_filter.mp hkept).2
  refine ⟨?_, fun hmem => hwords _ (List.mem_flatten.mpr ⟨group, h, hmem⟩) rfl⟩
  rw [splitGroups] at h
  split at h
  · cases h
  · simpa using (List.mem_filter.mp h).2

/-! ## The tasks among the options -/

namespace Options

/-- Tasks begin with one. -/
theorem tasks_ne_nil_of_readFrom {r : Reading} {arguments : List String} {options : Options}
    (hnone : r.options.tasks = none) (h : readFrom r arguments = .ok options) :
    ∀ tasks ∈ options.tasks, tasks ≠ [] := by
  induction arguments generalizing r with
  | nil =>
      rw [readFrom] at h
      obtain ⟨-, hkeeps⟩ := Reading.of_settle h
      rw [hkeeps.tasks, hnone]
      intro tasks htasks
      cases htasks
  | cons argument rest ih =>
      obtain ⟨r', htook, hrest⟩ | ⟨setting, -, hrest⟩ | ⟨settled, -, rfl⟩ :=
        readFrom_cons_cases h
      · exact ih (htook.tasks.trans hnone) hrest
      · have hkept : { r with pending := some (setting, some argument) }.options.tasks = none :=
          hnone
        exact ih hkept hrest
      · intro tasks htasks
        rw [← Option.some.inj htasks]
        exact List.cons_ne_nil _ _

theorem tasks_ne_nil_of_parse {fallback : Option String} {arguments : List String}
    {options : Options} (h : parse fallback arguments = .ok options) :
    ∀ tasks ∈ options.tasks, tasks ≠ [] := by
  obtain ⟨given, hread, hkeeps⟩ := of_parse h
  rw [hkeeps.tasks]
  exact tasks_ne_nil_of_readFrom rfl hread

end Options

/-! ## Requests -/

namespace CommandLine

open Runner

variable {σ : Type}

/-- Groups ask for requests: each for one, of its first word with the others for arguments; and no
group at all asks for the default task. -/
def Asks (groups : List (List String)) (requests : List Request) : Prop :=
  groups = [] ∧ requests = [⟨defaultTask, []⟩] ∨
    groups ≠ [] ∧ groups = requests.map fun request => request.name :: request.given

/-- Requests are made on a runner, and the others are not: what is left is the result, the events
and the world of those that are made, of which the last is the first one that fails, if any
does. -/
structure Serves (host : Host σ) (runner : Runner σ) (world : σ) (made unmade : List Request)
    (served : Except ExecutionError Unit × List Event × σ) : Prop where
  result : (unmade = [] ∧ served.1 = .ok () ∧
      ∀ o ∈ runner.outcomes host world made, o.result = .ok ()) ∨
    ∃ earlier last e, runner.outcomes host world made = earlier ++ [last] ∧
      (∀ o ∈ earlier, o.result = .ok ()) ∧ last.result = .error e ∧ served.1 = .error e
  events : served.2.1 = (runner.outcomes host world made).flatMap (·.events)
  world : served.2.2 = ((runner.outcomes host world made).getLast?.map (·.world)).getD world

/-- **GROUPS ARE SERVED** one after the other, up to the first that fails. -/
theorem exists_serves (host : Host σ) (runner : Runner σ) (requests : List Request) (world : σ) :
    ∃ made unmade, requests = made ++ unmade ∧ Serves host runner world made unmade
      (runGroups host runner world
        (requests.map fun request => request.name :: request.given)) := by
  induction requests generalizing world with
  | nil => exact ⟨[], [], rfl, .inl ⟨rfl, rfl, List.forall_mem_nil _⟩, rfl, rfl⟩
  | cons request rest ih =>
      let first := runner.outcome host request.name request.given world
      have hnext : (runner.run host request.name request.given world) = (first, runner) :=
        Prod.ext rfl (runner_of_run ..)
      rw [List.map_cons, runGroups, hnext]
      dsimp only
      cases hfirst : first.result with
      | error e =>
          have hone : runner.outcomes host world [request] = [first] := outcomes_cons ..
          refine ⟨[request], rest, rfl, ?_⟩
          constructor
          · exact .inr ⟨[], first, e, hone, List.forall_mem_nil _, hfirst, rfl⟩
          · rw [hone, List.flatMap_singleton]
          · rw [hone]
            rfl
      | ok _ =>
          obtain ⟨made, unmade, rfl, hserves⟩ := ih first.world
          have hmore : runner.outcomes host world (request :: made)
              = first :: runner.outcomes host first.world made := outcomes_cons ..
          refine ⟨request :: made, unmade, rfl, ?_⟩
          constructor
          · rcases hserves.result with ⟨hall, hresult, hdone⟩ | ⟨earlier, last, e, hmade, hrest⟩
            · refine .inl ⟨hall, hresult, ?_⟩
              rw [hmore]
              exact List.forall_mem_cons.mpr ⟨hfirst, hdone⟩
            · refine .inr ⟨first :: earlier, last, e, ?_, ?_, hrest.2⟩
              · rw [hmore, hmade, List.cons_append]
              · exact List.forall_mem_cons.mpr ⟨hfirst, hrest.1⟩
          · rw [hmore, List.flatMap_cons, ← hserves.events]
          · rw [hmore]
            refine hserves.world.trans ?_
            cases runner.outcomes host first.world made with
            | nil => rfl
            | cons o outcomes => rw [List.getLast?_cons_cons]; rfl

/-! ## Whole command lines -/

/-- A command line that runs tasks: its options are accepted and ask for nothing else, and its task
file is found and loaded. -/
structure RunsTasks (files : Files) (environment : Environment) (arguments : List String)
    (options : Options) (path : Path) (file : TaskFile) (warnings : List LoadWarning) : Prop where
  accepted : Options.parse (environment.values.get? fileVariable)
    ((splitGroups arguments).1.drop 1) = .ok options
  completions : options.completions = none
  dump : options.dump = none
  list : options.list = false
  located : locate files options = .ok path
  loaded : loadTaskFile files path = (.ok file, warnings)

/-- The groups that are run are those on the command line, or the default task. -/
theorem exists_asks {options : Options} {later : List (List String)}
    (htasks : ∀ tasks ∈ options.tasks, tasks ≠ []) (hlater : ∀ group ∈ later, group ≠ []) :
    ∃ requests, Asks (options.tasks.toList ++ later) requests ∧
      groupsOf options later = requests.map fun request => request.name :: request.given := by
  have hgroups : ∀ group ∈ options.tasks.toList ++ later, group ≠ [] := by
    intro group hmem
    rcases List.mem_append.mp hmem with htask | hgroup
    · exact htasks group (Option.mem_toList.mp htask)
    · exact hlater group hgroup
  rw [groupsOf]
  split
  · rename_i hnone
    exact ⟨[⟨defaultTask, []⟩], .inl ⟨hnone, rfl⟩, rfl⟩
  · rename_i hsome
    have hwords : ∀ groups : List (List String), (∀ group ∈ groups, group ≠ []) →
        ∃ requests : List Request,
          groups = requests.map fun request => request.name :: request.given := by
      intro groups hall
      induction groups with
      | nil => exact ⟨[], rfl⟩
      | cons group groups ih =>
          obtain ⟨hgroup, hrest⟩ := List.forall_mem_cons.mp hall
          obtain ⟨task, given, rfl⟩ := List.exists_cons_of_ne_nil hgroup
          obtain ⟨requests, rfl⟩ := ih hrest
          exact ⟨⟨task, given⟩ :: requests, rfl⟩
    obtain ⟨requests, hrequests⟩ := hwords _ hgroups
    exact ⟨requests, .inr ⟨hsome, hrequests⟩, hrequests⟩

/-- **GROUPS ARE RUN**: the first part of a command line is all that stands in front of the first
separator; no group behind it is empty or holds a separator; and together they are the
arguments in their order, without the separators.  A command line that runs tasks makes one
runner of its file, and requests of the tasks among the options, if there are any, and then of
each group, or of the default task if there is neither; and it serves these in order up to
the first that fails, whose error is the result. -/
theorem groups_are_run (arguments : List String) :
    ((splitGroups arguments).1 = arguments.takeWhile (· ≠ groupSeparator) ∧
      (∀ group ∈ (splitGroups arguments).2, group ≠ [] ∧ groupSeparator ∉ group) ∧
      (splitGroups arguments).1 ++ (splitGroups arguments).2.flatten
        = arguments.filter (· ≠ groupSeparator)) ∧
    ∀ (host : Host σ) (files : Files) (environment : Environment) (world : σ) (options : Options)
        (path : Path) (file : TaskFile) (warnings : List LoadWarning),
      RunsTasks files environment arguments options path file warnings →
      let ctx : Context :=
        { workingDir := files.herePath, environment, verbosity := options.verbosity }
      let (runner, now, before) := Runner.new host file (ctx.atTaskFile path) world
      ∃ made unmade served,
        Asks (options.tasks.toList ++ (splitGroups arguments).2) (made ++ unmade) ∧
        Serves host runner now made unmade served ∧
        run host files environment arguments world
          = .ok ⟨served.1.mapError .execution, warnings, before ++ served.2.1, served.2.2⟩ := by
  refine ⟨⟨head_splitGroups arguments, fun group => of_mem_splitGroups,
    append_flatten_splitGroups arguments⟩, ?_⟩
  intro host files environment world options path file warnings hruns ctx
  obtain ⟨requests, hasks, hgroups⟩ := exists_asks (Options.tasks_ne_nil_of_parse hruns.accepted)
    (fun group hmem => (of_mem_splitGroups hmem).1)
  obtain ⟨made, unmade, rfl, hserves⟩ := exists_serves host
    (Runner.new host file (ctx.atTaskFile path) world).1 requests
    (Runner.new host file (ctx.atTaskFile path) world).2.1
  refine ⟨made, unmade, _, hasks, hserves, ?_⟩
  have hperform : run host files environment arguments world
      = .ok (perform host files environment options (splitGroups arguments).2 world) := by
    have haccepted := congrArg (Except.map fun options =>
      perform host files environment options (splitGroups arguments).2 world) hruns.accepted
    exact haccepted
  rw [hperform, perform, hruns.completions]
  simp only [hruns.located, hruns.loaded, hruns.dump, hruns.list, hgroups]
  rfl

/-- A task file and nothing else. -/
def lone : Files where
  root := .directory [("Quakefile", .file (Utf8.encode "task a".toList))]
  workingDir := []

/-- A command line with three groups, the second of a task that is not there. -/
def threeGroups : List String :=
  ["quake", "-f", "/Quakefile", "a", "x", "--", "--", "missing", "--", "a"]

/-- What is loaded from the file. -/
def loadedLone : TaskFile := { tasks := [{ name := "a", source := some "/Quakefile" }] }

/-- The runner of it. -/
def loneRunner : Runner Unit :=
  (Runner.new barren loadedLone
    (Context.atTaskFile { workingDir := .ofString "/" } (.ofString "/Quakefile")) ()).1

theorem loadTaskFile_lone :
    loadTaskFile lone (.ofString "/Quakefile") = (.ok loadedLone, []) := by
  have hread : lone.readText (.ofString "/Quakefile") = .ok "task a" := by cbv
  have hfound : findFragments lone (.ofString "/Quakefile") = ([], []) := by cbv
  have hvalid : loadedLone.validate = .ok () :=
    TaskFile.validate_of_no_dependencies (by decide) (by decide)
  rw [loadTaskFile_of_parse hread parse_word_a, hfound]
  show (loadedLone.validate.map fun _ => loadedLone, _) = _
  rw [hvalid]
  rfl

/-- The run ends with the second group, and the third is not requested. -/
theorem missing_group_stops :
    RunsTasks lone {} threeGroups { file := some "/Quakefile", tasks := some ["a", "x"] }
        (.ofString "/Quakefile") loadedLone [] ∧
      ∃ served,
        Serves barren loneRunner () [⟨"a", ["x"]⟩, ⟨"missing", []⟩] [⟨"a", []⟩] served ∧
        run barren lone {} threeGroups ()
          = .ok ⟨.error (.execution (.taskNotFound "missing")), [], served.2.1, served.2.2⟩ := by
  have hruns : RunsTasks lone {} threeGroups
      { file := some "/Quakefile", tasks := some ["a", "x"] } (.ofString "/Quakefile")
      loadedLone [] :=
    ⟨by decide +kernel, rfl, rfl, rfl, by cbv, loadTaskFile_lone⟩
  refine ⟨hruns, ?_⟩
  obtain ⟨-, hall⟩ := groups_are_run threeGroups
  obtain ⟨made, unmade, served, hasks, hserves, hrun⟩ := hall barren lone {} () _ _ _ _ hruns
  have hrequests : made ++ unmade = [⟨"a", ["x"]⟩, ⟨"missing", []⟩, ⟨"a", []⟩] := by
    obtain ⟨hnone, -⟩ | ⟨-, hgroups⟩ := hasks
    · cases hnone
    · have hwords : Function.Injective fun request : Request => request.name :: request.given := by
        rintro ⟨name, given⟩ ⟨name', given'⟩ h
        obtain ⟨hname, hgiven⟩ := List.cons.inj h
        exact congrArg₂ Request.mk hname hgiven
      exact List.map_injective_iff.mpr hwords (hgroups.symm.trans (by decide))
  have hfirst : (Runner.outcome barren loneRunner "a" ["x"] ()).result = .ok () := by
    rw [outcome_of_some rfl, invoke_of_leaf _ _ _ (by decide) rfl]
    rfl
  have hsecond : ∀ world, (Runner.outcome barren loneRunner "missing" [] world).result
      = .error (.taskNotFound "missing") := by
    intro world
    rw [outcome_of_none rfl]
    rfl
  -- the first request succeeds and the second fails, so that these two are made
  rcases made with _ | ⟨first, _ | ⟨second, rest⟩⟩
  · rcases hserves.result with ⟨rfl, -⟩ | ⟨earlier, last, e, hmade, -⟩
    · cases hrequests
    · cases earlier <;> cases hmade
  · obtain ⟨rfl, rfl⟩ := List.cons.inj hrequests
    rcases hserves.result with ⟨hnone, -⟩ | ⟨earlier, last, e, hmade, -, hlast, -⟩
    · cases hnone
    · rw [outcomes_cons] at hmade
      obtain ⟨-, hlast'⟩ := List.append_inj' ((List.nil_append _).trans hmade) rfl
      obtain ⟨rfl, -⟩ := List.cons.inj hlast'
      cases hfirst.symm.trans hlast
  · obtain ⟨rfl, hrest⟩ := List.cons.inj hrequests
    obtain ⟨rfl, hunmade⟩ := List.cons.inj hrest
    rcases hserves.result with ⟨-, -, hdone⟩ | ⟨earlier, last, e, hmade, hearlier, hlast, hresult⟩
    · rw [outcomes_cons, outcomes_cons] at hdone
      have hok := hdone _ (List.mem_cons_of_mem _ List.mem_cons_self)
      cases (hsecond _).symm.trans hok
    · rw [outcomes_cons, outcomes_cons] at hmade
      rcases earlier with _ | ⟨o, _ | ⟨o', earlier⟩⟩
      · cases (List.cons.inj hmade).2
      · obtain ⟨-, hmade⟩ := List.cons.inj hmade
        obtain ⟨rfl, hnone⟩ := List.cons.inj hmade
        obtain rfl : e = .taskNotFound "missing" :=
          Except.error.inj (hlast.symm.trans (hsecond _))
        obtain rfl : rest = [] := by
          cases rest with
          | nil => rfl
          | cons third rest =>
              rw [outcomes_cons] at hnone
              cases hnone
        obtain rfl : unmade = [⟨"a", []⟩] := hunmade
        refine ⟨served, hserves, hrun.trans ?_⟩
        rw [hresult]
        rfl
      · obtain ⟨-, hmade⟩ := List.cons.inj hmade
        obtain ⟨rfl, -⟩ := List.cons.inj hmade
        have hok := hearlier _ (List.mem_cons_of_mem _ List.mem_cons_self)
        cases (hsecond _).symm.trans hok

end CommandLine

end TaskRunner
