import TreeCheck.Command.Response
import TreeCheck.Proofs.Schedule.Progress

/-!
# What the exit status tells

A run of tasks that is over is reported like one that checked one module after the other.  The exit status is
compared with what was checked, published and found, in every interleaving.

* `Plan.error_of_run`, `Plan.crashes_of_run` — the run that checks one module after the other ends without an
  error, or it comes to a module whose check meets a fault;
* `Plan.checkable_of_run` — in the first case every check of every interleaving finds its outcome;
* `Crashes.not_ended` — in the second no interleaving ends, unless it is interrupted;
* `Task.status_conclude_iff` — the exit status is 0 if and only if no job has an error or failed, and the run
  stopped with no error that no job tells of;
* `Task.ExitsTruthfully` — interleavings end, with 0 if and only if every module was checked and published
  without an error, and otherwise with 1;
* `Task.exitsTruthfully_iff` — this is so for exactly those tasks whose run meets no fault;
* `Task.status_eq_run`, `Task.status_respond` — and then the command answers with the status of every
  interleaving.
-/

namespace TreeCheck

/-- An entry after a setting is the new one or was there. -/
theorem Assoc.mem_set {β : Type} {a : Assoc β} {k : String} {v : β} {e : String × β}
    (h : e ∈ a.set k v) : e = (k, v) ∨ e ∈ a := by
  induction a with
  | nil => exact Or.inl (List.mem_singleton.1 h)
  | cons f es ih =>
      rw [Assoc.set] at h
      split at h
      · exact (List.mem_cons.1 h).imp_right (List.mem_cons_of_mem _)
      · rcases List.mem_cons.1 h with rfl | h
        · exact Or.inr List.mem_cons_self
        · exact (ih h).imp_right (List.mem_cons_of_mem _)

/-! ### One module after the other -/

/-- The job of a loaded module whose name is new does not fail. -/
theorem Job.failure_of_process {m : LoadedModule} {options : Options} {source : ImportSource} {s s' : Store}
    {j : Job} (h : (ofModule m options).process source s = .ok (j, s'))
    (hnew : s.registry.isPublished m.id = false) : j.failure = none := by
  cases ho : m.program.check options (some source) with
  | error e =>
      rw [process, check_eq (isFor_ofModule m options) rfl, ho] at h
      cases h
  | ok o =>
      have hname : o.exports.module = m.id := Program.exports_module ho
      rw [process_eq (check_ofModule ho)] at h
      cases hr : s.registry.publish o.exports with
      | ok r =>
          rw [publish_of_ok rfl rfl hr] at h
          cases h
          rfl
      | error e =>
          rw [Registry.publish, hname, hnew, if_neg Bool.false_ne_true] at hr
          cases hr

namespace Plan

variable {p : Plan}

/-- A task ends without an error if its module was loaded and is published, and its job was not stopped. -/
theorem taskError_eq_none_iff (id : String) (job : Job) (r : Registry) :
    p.taskError id job r = none ↔
      (p.project.find? id).isSome = true ∧ job.isStopped = false ∧ r.isPublished id = true := by
  rw [taskError, Job.isStopped]
  cases p.project.find? id <;> cases job.cancelled <;> cases job.failure.isSome <;>
    cases r.isPublished id <;> simp

theorem error_eq_none_iff (r : Run) :
    p.error r = none ↔ ∀ e ∈ r.jobs, p.taskError e.1 e.2 r.store.registry = none :=
  List.findSome?_eq_none_iff

/-- A run without an error has no failed job. -/
theorem failed_of_error {r : Run} (h : p.error r = none) : r.failed = false := by
  rw [Run.failed, Assoc.values, List.any_map, List.any_eq_false]
  intro e he
  obtain ⟨-, hrun, -⟩ := (taskError_eq_none_iff _ _ _).1 ((error_eq_none_iff r).1 h e he)
  rw [Job.isStopped, Bool.or_eq_false_iff] at hrun
  rw [Function.comp_apply, hrun.1]
  exact Bool.false_ne_true

/-- The check of one more module leaves no error. -/
theorem Follows.error_checkOne {r r' : Run} {s : Tasks Shared} {id : String} (h : p.Follows r s)
    (hlimit : 1 ≤ p.limit) (hid : id ∈ p.order) (hnot : id ∉ r.started)
    (hdeps : ∀ d ∈ p.graph.dependencies id, d ∈ r.started) (hok : p.error r = none)
    (hrun : p.checkOne r id = .ok r') : p.error r' = none := by
  obtain ⟨m, hm⟩ := (p.mem_order id).1 hid
  obtain ⟨job, store, hprocess, rfl⟩ :=
    checkOne_of_mayStart (h.mayStart hlimit hid hnot hdeps (failed_of_error hok)) hm hrun
  have hnew : r.store.registry.isPublished m.id = false := by
    have hpublished := (sound_of_reachable h.reachable).published id m hm
    rw [h.new id hnot, newJob, hm, Shared.registry, h.store] at hpublished
    rw [(Project.id_of_find? hm).2, ← Bool.not_eq_true, ← hpublished]
    exact Bool.false_ne_true
  have hjob := Job.failure_of_process hprocess hnew
  obtain ⟨-, hrunning, hpub⟩ := Job.published_of_process hprocess hjob
  obtain ⟨o, registry, -, hregistry, -, hstore⟩ := Job.of_process hprocess hjob
  have hkept : ∀ d, r.store.registry.isPublished d = true → store.registry.isPublished d = true := by
    intro d hd
    rw [hstore]
    exact Registry.isPublished_of_publish hregistry hd
  refine (error_eq_none_iff _).2 fun e he => (taskError_eq_none_iff _ _ _).2 ?_
  rcases Assoc.mem_set he with rfl | hold
  · exact ⟨Option.isSome_iff_exists.2 ⟨m, hm⟩, hrunning, (Project.id_of_find? hm).2 ▸ hpub⟩
  · obtain ⟨hloaded, hrunning', hpub'⟩ :=
      (taskError_eq_none_iff _ _ _).1 ((error_eq_none_iff r).1 hok e hold)
    exact ⟨hloaded, hrunning', hkept _ hpub'⟩

variable (p) in
/-- With all that stands before it finished, the check of a module meets a fault. -/
inductive Crashes : Prop
  | intro {pre post : List String} {id : String} {m : LoadedModule} {s : Tasks Shared} {f : Fault} :
      p.order = pre ++ id :: post → p.project.find? id = some m → p.schedule.Reachable s →
      (∀ d ∈ pre, s.phase d = .finished) →
      m.program.check p.options (some (s.world.registry.source p.graph id)) = .error f → Crashes

/-- A check meets a fault only in the check of the program. -/
theorem check_of_checkOne {r : Run} {id : String} {m : LoadedModule} {f : Fault}
    (hmay : p.mayStart r id = true) (hm : p.project.find? id = some m)
    (hrun : p.checkOne r id = .error f) :
    m.program.check p.options (some (r.store.registry.source p.graph id)) = .error f := by
  have hstore : (start r id).store = r.store := rfl
  rw [checkOne, if_pos hmay, finish, finishWith, hm] at hrun
  simp only [hstore] at hrun
  cases ho : m.program.check p.options (some (r.store.registry.source p.graph id)) with
  | ok o =>
      rw [Job.process_eq (Job.check_ofModule ho)] at hrun
      cases hrun
  | error e =>
      rw [Job.process, Job.check_eq (Job.isFor_ofModule m p.options) rfl, ho] at hrun
      cases hrun
      rfl

/-- The checks of the rest of the modules leave no error, or one of them meets a fault. -/
theorem Follows.foldlM_cases (hlimit : 1 ≤ p.limit) {l pre : List String} (hsplit : p.order = pre ++ l)
    {r : Run} {s : Tasks Shared} (h : p.Follows r s) (hstarted : r.started = pre) (hok : p.error r = none) :
    (∃ r', l.foldlM p.checkOne r = .ok r' ∧ p.error r' = none) ∨
      (∃ f, l.foldlM p.checkOne r = .error f) ∧ p.Crashes := by
  induction l generalizing pre r s with
  | nil => exact Or.inl ⟨r, rfl, hok⟩
  | cons id l ih =>
      have hnot : id ∉ r.started := hstarted ▸ not_mem_of_split hsplit
      have hid : id ∈ p.order := by
        rw [hsplit]
        exact List.mem_append_right _ List.mem_cons_self
      have hdeps : ∀ d ∈ p.graph.dependencies id, d ∈ r.started :=
        fun d hd => hstarted ▸ dependency_mem_of_split hsplit hd
      rw [List.foldlM_cons]
      cases hone : p.checkOne r id with
      | error f =>
          obtain ⟨m, hm⟩ := (p.mem_order id).1 hid
          have hcheck := check_of_checkOne (h.mayStart hlimit hid hnot hdeps (failed_of_error hok)) hm hone
          refine Or.inr ⟨⟨f, rfl⟩, .intro hsplit hm h.reachable (fun d hd => ?_) (f := f) ?_⟩
          · exact h.finished d (hstarted.symm ▸ hd)
          · rw [Shared.registry, h.store]
            exact hcheck
      | ok r₁ =>
          have hok₁ := h.error_checkOne hlimit hid hnot hdeps hok hone
          obtain ⟨s₁, h₁, hstarted₁⟩ := h.checkOne hlimit hid hnot hdeps hone (failed_of_error hok₁)
          have hsplit₁ : p.order = (pre ++ [id]) ++ l := by
            rw [hsplit, List.append_assoc, List.singleton_append]
          exact ih hsplit₁ h₁ (by rw [hstarted₁, hstarted]) hok₁

theorem run_cases (hlimit : 1 ≤ p.limit) :
    (∃ r, p.run = .ok r ∧ p.error r = none) ∨ (∃ f, p.run = .error f) ∧ p.Crashes :=
  Follows.foldlM_cases hlimit (List.nil_append _).symm (follows_begin p) rfl rfl

/-- A run that meets no fault ends without an error. -/
theorem error_of_run {r : Run} (hlimit : 1 ≤ p.limit) (hrun : p.run = .ok r) : p.error r = none := by
  rcases run_cases hlimit with ⟨r', hrun', hok⟩ | ⟨⟨f, hrun'⟩, -⟩
  · rw [hrun] at hrun'
    cases hrun'
    exact hok
  · rw [hrun] at hrun'
    cases hrun'

theorem crashes_of_run {f : Fault} (hlimit : 1 ≤ p.limit) (hrun : p.run = .error f) : p.Crashes := by
  rcases run_cases hlimit with ⟨r, hrun', -⟩ | ⟨-, hcrashes⟩
  · rw [hrun] at hrun'
    cases hrun'
  · exact hcrashes

/-! ### From one run to all -/

/-- What is finished depends on what is finished. -/
theorem finished_of_dependency {s : Tasks Shared} (h : p.schedule.Reachable s) {id d : String}
    (hid : s.phase id = .finished) (hd : d ∈ p.graph.dependencies id) : s.phase d = .finished := by
  have hbehind := h.inv.tasks id
  rw [hid] at hbehind
  exact h.finished_of_closed (hbehind.1 d hd)

/-- If there is a run in which all modules finish, a check finds its outcome in every run in which all that
its module depends on is finished. -/
theorem exists_outcome_of_finished {s t : Tasks Shared} (hs : p.schedule.Reachable s)
    (ht : p.schedule.Reachable t) (hfin : ∀ d ∈ p.order, s.phase d = .finished) {id : String}
    {m : LoadedModule} (hm : p.project.find? id = some m)
    (hdeps : ∀ d ∈ p.graph.dependencies id, t.phase d = .finished) :
    ∃ o, m.program.check p.options (some (t.world.registry.source p.graph id)) = .ok o := by
  have hconsistent := consistent_of_reachable hs
  obtain ⟨o, ho, -⟩ := hconsistent.exists_outcome hm
    (isPublished_of_finished hs (hfin id ((p.mem_order id).2 ⟨m, hm⟩)))
  refine ⟨o, ?_⟩
  rw [hconsistent.check_eq (consistent_of_reachable ht) (S := fun d => d ∈ p.order ∧ t.phase d = .finished)
    (fun y hy d hd => ⟨p.graph.dependency_mem_order hd, finished_of_dependency ht hy.2 hd⟩)
    (fun y hy => isPublished_of_finished hs (hfin y hy.1))
    (fun y hy => isPublished_of_finished ht hy.2) hm
    fun d hd => ⟨p.graph.dependency_mem_order hd, hdeps d hd⟩]
  exact (hconsistent.outcomes id m o hm ho).2

/-- **No fault in one run, none in any.**  If the run that checks one module after the other meets no fault,
every check of every interleaving finds its outcome. -/
theorem checkable_of_run {r : Run} (hlimit : 1 ≤ p.limit) (hrun : p.run = .ok r) {x : Progress}
    (hx : p.Runs x) : p.Checkable x := by
  intro id m hm hp hall
  obtain ⟨s, hs, hfin, -, -⟩ := run_interleaves hlimit hrun (failed_of_error (error_of_run hlimit hrun))
  have hreach := hx.inv.reachable
  have hdeps : ∀ d ∈ p.graph.dependencies id, x.tasks.phase d = .finished := by
    intro d hd
    refine hreach.finished_of_closed ((hreach.inv.tasks id).ready ?_ d hd)
    rw [hp]
    rfl
  obtain ⟨o, ho⟩ := exists_outcome_of_finished hs hreach hfin hm hdeps
  -- the answers that the check got are those that the registry gives
  have hsource := Program.check_congr (p := m.program) p.options fun i hi =>
    ((consistent_of_reachable hreach).source_eq hm hall hi).1
  exact ⟨o, hsource.trans ho⟩

/-- If the check of a module meets a fault, no interleaving ends, unless it is interrupted. -/
theorem Crashes.not_ended (h : p.Crashes) {x : Progress} (hx : p.Runs x) (hquiet : x.interrupted = false) :
    ¬ p.Ended x := by
  intro hended
  cases h with
  | intro hsplit hm hs hpre hfault =>
      have hinv := hx.inv
      obtain ⟨o, ho⟩ := exists_outcome_of_finished hinv.reachable hs
        (fun d hd => hinv.finished hended (hinv.quiet hquiet).2.1 hd) hm
        fun d hd => hpre d (dependency_mem_of_split hsplit hd)
      rw [hfault] at ho
      cases ho

end Plan

/-! ### What the report counts -/

/-- Whether a job found an error or failed. -/
def Job.isBad (j : Job) : Bool := j.diagnostics.any Diagnostic.isError || j.failure.isSome

theorem Job.isBad_eq_false_iff (j : Job) :
    j.isBad = false ↔ (∀ d ∈ j.diagnostics, d.isError = false) ∧ j.failure = none := by
  rw [isBad, Bool.or_eq_false_iff, List.any_eq_false, Option.isSome_eq_false_iff, Option.isNone_iff_eq_none]
  simp only [Bool.not_eq_true]

namespace Summary

/-- The counts with those of one more job. -/
def addJob (s : Summary) (e : String × Job) : Summary :=
  let s := s.count e.2.diagnostics
  if e.2.failure.isSome then { s with failures := s.failures + 1 } else s

/-- Nothing that counts as a failure was counted. -/
structure Clean (s : Summary) : Prop where
  errors : s.errors = 0
  failures : s.failures = 0

theorem failed_eq_false_iff {s : Summary} (h : 0 ≤ s.failures) : s.failed = false ↔ s.Clean := by
  rw [failed, decide_eq_false_iff_not]
  constructor
  · intro hnot
    exact ⟨by omega, by omega⟩
  · rintro ⟨herrors, hfailures⟩
    omega

theorem failures_addJob (s : Summary) (e : String × Job) : s.failures ≤ (s.addJob e).failures := by
  rw [addJob]
  split
  · exact Int.le_add_one le_rfl
  · exact le_rfl

/-- A summary stays clean if the job added to it is not bad. -/
theorem clean_addJob {s : Summary} (h : 0 ≤ s.failures) (e : String × Job) :
    (s.addJob e).Clean ↔ s.Clean ∧ e.2.isBad = false := by
  have hcount : e.2.diagnostics.countP Diagnostic.isError = 0 ↔
      ∀ d ∈ e.2.diagnostics, d.isError = false := by
    simp only [List.countP_eq_zero, Bool.not_eq_true]
  rw [Job.isBad_eq_false_iff, ← hcount, addJob]
  cases hfailure : e.2.failure with
  | none =>
      simp only [Option.isSome_none, Bool.false_eq_true, if_false, and_true]
      constructor
      · intro hc
        have hsum : s.errors + e.2.diagnostics.countP Diagnostic.isError = 0 := hc.errors
        exact ⟨⟨by omega, hc.failures⟩, by omega⟩
      · rintro ⟨hc, hzero⟩
        exact ⟨by simp [count, hc.errors, hzero], hc.failures⟩
  | some f =>
      refine ⟨fun hc => ?_, fun hc => absurd hc.2.2 nofun⟩
      have hzero : s.failures + 1 = 0 := hc.failures
      omega

/-- A summary of many jobs is clean if none is bad. -/
theorem clean_foldl (l : List (String × Job)) {s : Summary} (h : 0 ≤ s.failures) :
    0 ≤ (l.foldl addJob s).failures ∧
      ((l.foldl addJob s).Clean ↔ s.Clean ∧ ∀ e ∈ l, e.2.isBad = false) := by
  induction l generalizing s with
  | nil => exact ⟨h, by simp⟩
  | cons e l ih =>
      obtain ⟨hle, hclean⟩ := ih (h.trans (s.failures_addJob e))
      refine ⟨hle, ?_⟩
      rw [List.foldl_cons, hclean, clean_addJob h, List.forall_mem_cons, and_assoc]

/-- A run that stops stays clean if it has no untold error. -/
theorem clean_stopped {s : Summary} (h : 0 ≤ s.failures) (error : Option RunError) :
    0 ≤ (s.stopped error).failures ∧ ((s.stopped error).Clean ↔ s.Clean ∧ untold error = none) := by
  rw [stopped]
  cases untold error with
  | none => simpa using h
  | some e =>
      simp only [Option.isSome_some, if_true]
      refine ⟨by omega, fun hc => ?_, fun hc => absurd hc.2 nofun⟩
      have hzero : s.failures + 1 = 0 := hc.failures
      omega

end Summary

namespace Task

variable (t : Task) (r : Run) (error : Option RunError) (elapsed : Nat)

theorem mem_jobs (e : String × Job) :
    e ∈ t.jobs r ↔ ∃ m ∈ t.plan.project.modules, r.jobs.get? m.id = some e.2 ∧ m.id = e.1 := by
  simp only [jobs, List.mem_filterMap, Option.map_eq_some_iff, Prod.ext_iff]
  constructor
  · rintro ⟨m, hm, j, hj, hid, rfl⟩
    exact ⟨m, hm, hj, hid⟩
  · rintro ⟨m, hm, hj, hid⟩
    exact ⟨m, hm, _, hj, hid, rfl⟩

/-- The exit status of a run is 0 or 1. -/
theorem status_conclude :
    (t.conclude r error elapsed).status = 0 ∨ (t.conclude r error elapsed).status = 1 := by
  show (if _ then 1 else 0) = 0 ∨ (if _ then 1 else 0) = 1
  split
  · exact Or.inr rfl
  · exact Or.inl rfl

/-- **The exit status** is 0 if and only if no job of a loaded module found an error or failed, and the run
stopped with no error that no job tells of. -/
theorem status_conclude_iff :
    (t.conclude r error elapsed).status = 0 ↔
      (∀ m ∈ t.plan.project.modules, ∀ j, r.jobs.get? m.id = some j → j.isBad = false) ∧
        untold error = none := by
  have hstatus : (t.conclude r error elapsed).status = 0 ↔
      ((t.summary r elapsed).stopped error).failed = false := by
    show (if _ then 1 else 0) = 0 ↔ _
    split
    · next h => simp [h]
    · next h => simpa using h
  obtain ⟨hle, hclean⟩ := Summary.clean_foldl (t.jobs r) (s := {
    modules := t.plan.project.modules.length, elapsed }) le_rfl
  obtain ⟨hle', hclean'⟩ := Summary.clean_stopped hle error
  rw [hstatus, show t.summary r elapsed = (t.jobs r).foldl Summary.addJob _ from rfl,
    Summary.failed_eq_false_iff hle', hclean', hclean]
  have hjobs : (∀ e ∈ t.jobs r, e.2.isBad = false) ↔
      ∀ m ∈ t.plan.project.modules, ∀ j, r.jobs.get? m.id = some j → j.isBad = false := by
    simp only [mem_jobs]
    exact ⟨fun h m hm j hj => h (m.id, j) ⟨m, hm, hj, rfl⟩, fun h e ⟨m, hm, hj, _⟩ => h m hm _ hj⟩
  rw [hjobs, and_iff_right (⟨rfl, rfl⟩ : Summary.Clean _)]

end Task

/-! ### Runs of tasks -/

/-- What a run of tasks that is over leaves to be reported. -/
def Progress.run (x : Progress) : Run where
  store := x.tasks.world.store
  started := x.tasks.started
  jobs := x.tasks.started.map fun id => (id, x.tasks.world.jobs id)

/-- The result holds the jobs of exactly the modules that were started. -/
theorem Progress.get?_jobs_run (x : Progress) (id : String) :
    x.run.jobs.get? id = if id ∈ x.tasks.started then some (x.tasks.world.jobs id) else none := by
  show Assoc.get? (x.tasks.started.map fun id => (id, x.tasks.world.jobs id)) id = _
  induction x.tasks.started with
  | nil => rfl
  | cons y ys ih =>
      rw [List.map_cons, Assoc.get?, ih]
      by_cases hy : y = id
      · simp [hy]
      · simp [hy, Ne.symm hy]

/-- Every module was checked and published, and no error was found. -/
def Plan.AllGood (p : Plan) (x : Progress) : Prop :=
  ∀ m ∈ p.project.modules, x.tasks.world.registry.isPublished m.id = true ∧
    ∃ o, (x.tasks.world.jobs m.id).outcome = some o ∧ ∀ d ∈ o.diagnostics, d.isError = false

namespace Plan

variable {p : Plan}

/-- In a sound world a published module was checked, and its job is bad only when an error was found. -/
theorem Sound.exists_outcome {w : Shared} (h : p.Sound w) {m : LoadedModule} (hm : m ∈ p.project.modules)
    (hpub : w.registry.isPublished m.id = true) :
    ∃ o, (w.jobs m.id).outcome = some o ∧
      ((w.jobs m.id).isBad = false ↔ ∀ d ∈ o.diagnostics, d.isError = false) := by
  have hfind := Project.find?_of_mem hm
  obtain ⟨o, ho, -⟩ := h.consistent.exists_outcome hfind hpub
  refine ⟨o, ho, ?_⟩
  rw [Job.isBad_eq_false_iff, h.failure _ m hfind, and_iff_left rfl, Job.diagnostics, ho]
  rfl

/-- A run is good if and only if no job is bad, for jobs of its modules with its outcomes. -/
theorem allGood_iff_of_jobs {x : Progress} {jobs : Assoc Job}
    (h : ∀ m ∈ p.project.modules, x.tasks.world.registry.isPublished m.id = true ∧
      ∃ o j, (x.tasks.world.jobs m.id).outcome = some o ∧ jobs.get? m.id = some j ∧
        (j.isBad = false ↔ ∀ d ∈ o.diagnostics, d.isError = false)) :
    p.AllGood x ↔ ∀ m ∈ p.project.modules, ∀ j, jobs.get? m.id = some j → j.isBad = false := by
  refine forall₂_congr fun m hm => ?_
  obtain ⟨hpub, o, j, ho, hj, hbad⟩ := h m hm
  rw [ho, hj]
  constructor
  · rintro ⟨-, _, ho', herrors⟩ _ hj'
    cases ho'
    cases hj'
    exact hbad.2 herrors
  · intro hgood
    exact ⟨hpub, o, rfl, hbad.1 (hgood j rfl)⟩

/-- A run in which all modules are finished is good if and only if no job that it reports is bad. -/
theorem allGood_iff {x : Progress} (h : p.schedule.Reachable x.tasks)
    (hfin : ∀ id ∈ p.order, x.tasks.phase id = .finished) :
    p.AllGood x ↔ ∀ m ∈ p.project.modules, ∀ j, x.run.jobs.get? m.id = some j → j.isBad = false := by
  refine allGood_iff_of_jobs fun m hm => ?_
  have hphase := hfin m.id ((p.mem_order m.id).2 ⟨m, Project.find?_of_mem hm⟩)
  have hpub := isPublished_of_finished h hphase
  have hstarted : m.id ∈ x.tasks.started := by
    rw [h.inv.started_iff, hphase]
    rfl
  obtain ⟨o, ho, hbad⟩ := (sound_of_reachable h).exists_outcome hm hpub
  exact ⟨hpub, o, _, ho, by rw [x.get?_jobs_run, if_pos hstarted], hbad⟩

/-- It is good if and only if no job is bad in the run that checks one module after the other. -/
theorem allGood_iff_run {r : Run} (hlimit : 1 ≤ p.limit) (hrun : p.run = .ok r) {x : Progress}
    (h : p.schedule.Reachable x.tasks) (hfin : ∀ id ∈ p.order, x.tasks.phase id = .finished) :
    p.AllGood x ↔ ∀ m ∈ p.project.modules, ∀ j, r.jobs.get? m.id = some j → j.isBad = false := by
  obtain ⟨s, hs, hsfin, -, hjobs⟩ := run_interleaves hlimit hrun (failed_of_error (error_of_run hlimit hrun))
  have hspub : ∀ id ∈ p.order, s.world.registry.isPublished id = true :=
    fun id hid => isPublished_of_finished hs (hsfin id hid)
  have hpub : ∀ id ∈ p.order, x.tasks.world.registry.isPublished id = true :=
    fun id hid => isPublished_of_finished h (hfin id hid)
  refine allGood_iff_of_jobs fun m hm => ?_
  have hid : m.id ∈ p.order := (p.mem_order m.id).2 ⟨m, Project.find?_of_mem hm⟩
  obtain ⟨o, ho, ho', -, -⟩ :=
    (consistent_of_reachable hs).agree (consistent_of_reachable h) rfl rfl hspub hpub m hm
  obtain ⟨_, hsome, hbad⟩ := (sound_of_reachable hs).exists_outcome hm (hspub m.id hid)
  cases ho.symm.trans hsome
  exact ⟨hpub m.id hid, o, _, ho', hjobs m.id hid, hbad⟩

/-- The first error of a run that no job tells of: there is none if and only if there is no error. -/
theorem Inv.untold_eq_none_iff {x : Progress} (h : p.Inv x) : untold x.first = none ↔ x.first = none := by
  cases hfirst : x.first with
  | none => exact Iff.rfl
  | some e => simp [untold, h.told e hfirst]

end Plan

namespace Task

/-- **The exit status tells the truth** about the interleavings of a task. -/
structure ExitsTruthfully (t : Task) : Prop where
  /-- A run that was not interrupted can always be brought to its end. -/
  ends : ∀ x, t.plan.Runs x → x.interrupted = false →
    ∃ y, Relation.ReflTransGen t.plan.Moves x y ∧ y.interrupted = false ∧ t.plan.Ended y
  /-- At the end, interrupted or not, the status is 0 or 1. -/
  zeroOrOne : ∀ x, t.plan.Runs x → t.plan.Ended x → ∀ elapsed,
    (t.conclude x.run x.first elapsed).status = 0 ∨ (t.conclude x.run x.first elapsed).status = 1
  /-- If it is 0, every module was checked and published without an error. -/
  sound : ∀ x, t.plan.Runs x → t.plan.Ended x → ∀ elapsed,
    (t.conclude x.run x.first elapsed).status = 0 → t.plan.AllGood x
  /-- Without an interruption the converse holds, too. -/
  complete : ∀ x, t.plan.Runs x → t.plan.Ended x → x.interrupted = false → ∀ elapsed,
    t.plan.AllGood x → (t.conclude x.run x.first elapsed).status = 0

variable {t : Task}

/-- **No failure is lost.**  If the status is 0, every module was checked and published without an error,
whether the run was interrupted or not. -/
theorem allGood_of_status {x : Progress} (hx : t.plan.Runs x) (hended : t.plan.Ended x) {elapsed : Nat}
    (h : (t.conclude x.run x.first elapsed).status = 0) : t.plan.AllGood x := by
  obtain ⟨hjobs, huntold⟩ := (t.status_conclude_iff x.run x.first elapsed).1 h
  have hfirst := hx.inv.untold_eq_none_iff.1 huntold
  exact (Plan.allGood_iff hx.inv.reachable fun id hid => hx.inv.finished hended hfirst hid).2 hjobs

/-- No failure is made up: without an interruption a good run has status 0. -/
theorem status_of_allGood {x : Progress} (hx : t.plan.Runs x) (hended : t.plan.Ended x)
    (hquiet : x.interrupted = false) (elapsed : Nat) (h : t.plan.AllGood x) :
    (t.conclude x.run x.first elapsed).status = 0 := by
  have hfirst := (hx.inv.quiet hquiet).2.1
  refine (t.status_conclude_iff x.run x.first elapsed).2 ⟨?_, hx.inv.untold_eq_none_iff.2 hfirst⟩
  exact (Plan.allGood_iff hx.inv.reachable fun id hid => hx.inv.finished hended hfirst hid).1 h

/-- A task with a check that meets a fault has a run that never ends. -/
theorem not_exitsTruthfully_of_crashes (h : t.plan.Crashes) : ¬ t.ExitsTruthfully := by
  intro htruthful
  obtain ⟨y, hruns, hquiet, hended⟩ := htruthful.ends _ .refl rfl
  exact h.not_ended hruns hquiet hended

/-- **The exit status tells the truth for exactly those tasks whose run meets no fault.**  The run is the one
that checks one module after the other, imports first; the truth is told in every interleaving. -/
theorem exitsTruthfully_iff (t : Task) (hlimit : 1 ≤ t.plan.limit) :
    t.ExitsTruthfully ↔ ∃ r, t.plan.run = .ok r := by
  constructor
  · intro htruthful
    cases hrun : t.plan.run with
    | ok r => exact ⟨r, rfl⟩
    | error f => exact absurd htruthful (not_exitsTruthfully_of_crashes (Plan.crashes_of_run hlimit hrun))
  · rintro ⟨r, hrun⟩
    exact {
      ends := fun x hx hquiet =>
        hx.exists_end hlimit (fun y hy => Plan.checkable_of_run hlimit hrun hy) hquiet
      zeroOrOne := fun x _ _ elapsed => t.status_conclude x.run x.first elapsed
      sound := fun x hx hended _ => allGood_of_status hx hended
      complete := fun x hx hended hquiet elapsed => status_of_allGood hx hended hquiet elapsed }

/-- **The command's own run.**  The status of the run that checks one module after the other is that of every
interleaving that is not interrupted, whatever time they take. -/
theorem status_eq_run {r : Run} (hlimit : 1 ≤ t.plan.limit) (hrun : t.plan.run = .ok r) {x : Progress}
    (hx : t.plan.Runs x) (hended : t.plan.Ended x) (hquiet : x.interrupted = false) (elapsed elapsed' : Nat) :
    (t.conclude r (t.plan.error r) elapsed).status = (t.conclude x.run x.first elapsed').status := by
  have hfirst := (hx.inv.quiet hquiet).2.1
  have hfin : ∀ id ∈ t.plan.order, x.tasks.phase id = .finished :=
    fun id hid => hx.inv.finished hended hfirst hid
  have hzero : (t.conclude r (t.plan.error r) elapsed).status = 0 ↔
      (t.conclude x.run x.first elapsed').status = 0 := by
    rw [status_conclude_iff, status_conclude_iff, Plan.error_of_run hlimit hrun, hfirst,
      ← Plan.allGood_iff_run hlimit hrun hx.inv.reachable hfin, ← Plan.allGood_iff hx.inv.reachable hfin]
  rcases t.status_conclude r (t.plan.error r) elapsed with h | h
  · rw [h, hzero.1 h]
  · rcases t.status_conclude x.run x.first elapsed' with h' | h'
    · rw [hzero.2 h'] at h
      cases h
    · rw [h, h']

theorem exists_of_bind_eq_ok {ε α β : Type} {e : Except ε α} {f : α → Except ε β} {b : β}
    (h : (e >>= f) = .ok b) : ∃ a, e = .ok a ∧ f a = .ok b := by
  cases e with
  | error err => cases h
  | ok a => exact ⟨a, rfl, h⟩

/-- The arguments ask for tasks that leave room for a check. -/
theorem one_le_limit_of_task {a : Arguments} {fs : Files} {printer : Printer}
    (h : a.task fs printer = .ok t) : 1 ≤ t.plan.limit := by
  obtain ⟨options, -, h⟩ := exists_of_bind_eq_ok h
  obtain ⟨paths, -, h⟩ := exists_of_bind_eq_ok h
  obtain ⟨project, -, h⟩ := exists_of_bind_eq_ok h
  cases h
  show 1 ≤ if a.jobs ≤ 0 then 1 else a.jobs.toNat
  split <;> omega

/-- Command lines ask for tasks that leave room for a check, so what holds of these holds of all. -/
theorem one_le_limit_of_prepare {words : List String} {fs : Files} {printer : Printer}
    (h : prepare words fs printer = .ok t) : 1 ≤ t.plan.limit := by
  rw [prepare] at h
  split at h
  · cases h
  · next a _ =>
      cases htask : a.task fs (a.printer printer) with
      | error e =>
          simp only [htask] at h
          cases h
      | ok t' =>
          simp only [htask] at h
          cases h
          exact one_le_limit_of_task htask

/-- The command answers with the status of every interleaving of its task that is not interrupted. -/
theorem status_respond {words : List String} {fs : Files} {printer : Printer} {r : Run}
    (h : prepare words fs printer = .ok t) (hrun : t.plan.run = .ok r) {x : Progress} (hx : t.plan.Runs x)
    (hended : t.plan.Ended x) (hquiet : x.interrupted = false) (elapsed : Nat) :
    (respond words fs printer).status = (t.conclude x.run x.first elapsed).status := by
  rw [respond, h]
  simp only [hrun]
  exact status_eq_run (one_le_limit_of_prepare h) hrun hx hended hquiet 0 elapsed

/-- Modules that import themselves and each other, with two slots. -/
def selfImportTask : Task where
  plan := { project := Plan.selfImport, limit := 2 }

/-- Both modules have errors, and the status says so in every interleaving. -/
theorem exitsTruthfully_selfImport : 1 ≤ selfImportTask.plan.limit ∧ selfImportTask.ExitsTruthfully := by
  have hrun : (selfImportTask.plan.run.toOption.map (·.failed)) = some false := by cbv
  obtain ⟨r, hr, -⟩ := Plan.exists_run_of_map hrun
  exact ⟨by decide, (exitsTruthfully_iff selfImportTask (by decide)).2 ⟨r, hr⟩⟩

/-! ### A check that meets a fault -/

/-- A named type as it is written. -/
def written (name : String) (args : List TypeExpr) : TypeExpr := ⟨{}, .named name args⟩

/-- `type Cell<T> = { next: Cell<T>?, value: T }` and an export `type Head = { cell: Cell<number> }`. -/
def cellsProgram : Program where
  module := "cells"
  stmts := [
    ⟨{}, .typeAlias "Cell" [⟨{}, "T", none, none⟩] (some ⟨{}, .object [
      ⟨{}, "next", some ⟨{}, .nullable (written "Cell" [written "T" []])⟩, false, false, false⟩,
      ⟨{}, "value", some (written "T" []), false, false, false⟩] none⟩)⟩,
    ⟨{}, .exported (some ⟨{}, .typeAlias "Head" [] (some ⟨{}, .object [
      ⟨{}, "cell", some (written "Cell" [written "number" []]), false, false, false⟩] none⟩)⟩) []⟩]

/-- It imports `Head`, has a type `Cell<T = string, U> = { value: U }` of its own, and exports `Head`. -/
def relayProgram : Program where
  module := "relay"
  stmts := [
    ⟨{}, .importing { module := "cells", names := [⟨{}, "Head", none⟩] }⟩,
    ⟨{}, .typeAlias "Cell" [⟨{}, "T", none, some (written "string" [])⟩, ⟨{}, "U", none, none⟩]
      (some ⟨{}, .object [⟨{}, "value", some (written "U" []), false, false, false⟩] none⟩)⟩,
    ⟨{}, .exported none [⟨{}, "Head", none⟩]⟩]

/-- The check of both, one after the other. -/
def relayTask : Task where
  plan := { project := {
    modules := [⟨"cells.yaml", cellsProgram⟩, ⟨"relay.yaml", relayProgram⟩]
    nodup := by decide
    notBuiltin := by decide } }

/-- The table of `cells` leaves `Cell<number>` to those who import it, and in `relay` this name means a type
with a parameter that gets no argument and has no default.  The check ends there, and with it the command. -/
theorem not_exitsTruthfully_relay : 1 ≤ relayTask.plan.limit ∧ ¬ relayTask.ExitsTruthfully := by
  have hfault : (match relayTask.plan.run with
      | .ok _ => none
      | .error f => some f) = some .missingDefault := by cbv
  have hlimit : 1 ≤ relayTask.plan.limit := by decide
  cases hrun : relayTask.plan.run with
  | ok r =>
      rw [hrun] at hfault
      cases hfault
  | error f => exact ⟨hlimit, not_exitsTruthfully_of_crashes (Plan.crashes_of_run hlimit hrun)⟩

end Task

end TreeCheck
