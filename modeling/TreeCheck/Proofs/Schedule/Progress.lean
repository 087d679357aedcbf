import TreeCheck.Proofs.Schedule.Agreement

/-!
# Runs with their first error

The first error of a task is the error of the whole run.  Runs move on by steps of tasks in which checks
keep to their order: a check is cancelled only when the run is, and a check that meets a fault does not
return, for a fault is the end of the program.

* `Progress`, `Plan.Moves`, `Plan.Runs` — how far a run came, one move, and the states that moves lead to;
* `Plan.Sound` — no job fails, and a job published its module if and only if the registry has it;
* `Plan.Inv` — what holds of all runs, by `Inv.step` for one step and `Runs.inv` for runs: the first error is
  none that a job tells of, a task that ended badly left one, and a run that was not interrupted has none;
* `Plan.measure` — what is left to be done; `Runs.exists_less` finds a move that lessens it;
* `Runs.exists_end` — so a run that is not interrupted can be brought to its end, if every check that
  is under way finds its outcome.
-/

namespace TreeCheck

def Phase.isOver : Phase → Bool
  | .finished => true
  | .failed => true
  | .dropped => true
  | _ => false

/-- What is left to a task in a phase. -/
def Phase.left : Phase → Nat
  | .waiting rest => rest.length + 5
  | .checking => 4
  | .returned _ => 3
  | .released _ => 2
  | _ => 0

namespace Schedule

variable {σ : Schedule} {s s' : Tasks σ.checks.World} {id : String}

variable (σ) in
/-- What the step that led a task to a phase found. -/
def Before (s : Tasks σ.checks.World) (id : String) : Phase → Prop
  | .returned ok => s.phase id = .checking ∧ σ.checks.returns id s.world ok
  | .released ok => s.phase id = .returned ok
  | .failed => ∃ ok, s.phase id = .released ok ∧ (ok = false ∨ ¬ σ.Published s id)
  | .dropped => s.cancelled = true
  | _ => True

/-- A step of a task is taken from the phase before it. -/
theorem Step.before (h : σ.Step id s s') : σ.Before s id (s'.phase id) := by
  have hself : ∀ phase, Function.update s.phase id phase id = phase := fun _ => Function.update_self ..
  cases h with
  | act hp _ =>
      show σ.Before s id (s.phase id)
      rw [hp]
      trivial
  | see hp _ | start hp _ | announce hp _ =>
      show σ.Before s id (Function.update s.phase id _ id)
      rw [hself]
      trivial
  | ret hp hreturns =>
      show σ.Before s id (Function.update s.phase id _ id)
      rw [hself]
      exact ⟨hp, hreturns⟩
  | release hp =>
      show σ.Before s id (Function.update s.phase id _ id)
      rw [hself]
      exact hp
  | fail hp hbad =>
      show σ.Before s id (Function.update s.phase id _ id)
      rw [hself]
      exact ⟨_, hp, hbad⟩
  | drop _ hcancelled =>
      show σ.Before s id (Function.update s.phase id _ id)
      rw [hself]
      exact hcancelled

/-- A step changes the world by an action of its check, or not at all. -/
theorem Step.world (h : σ.Step id s s') :
    s'.world = s.world ∨ σ.checks.act id s.world s'.world ∧ s'.phase = s.phase := by
  cases h with
  | act hp hact => exact Or.inr ⟨hact, rfl⟩
  | see _ _ | start _ _ | ret _ _ | release _ | announce _ _ | fail _ _ | drop _ _ => exact Or.inl rfl

theorem Step.world_eq (h : σ.Step id s s') (hp : s'.phase id ≠ s.phase id) : s'.world = s.world :=
  h.world.resolve_right fun hact => hp (congrFun hact.2 id)

/-- Only a failure cancels a run. -/
theorem Step.cancelled (h : σ.Step id s s') (hcancelled : s'.cancelled = true) :
    s.cancelled = true ∨ s'.phase id = .failed := by
  cases h with
  | fail _ _ => exact Or.inr (Function.update_self ..)
  | see _ _ | start _ _ | act _ _ | ret _ _ | release _ | announce _ _ | drop _ _ =>
      exact Or.inl hcancelled

end Schedule

/-- How far a run came, with its first error. -/
structure Progress where
  tasks : Tasks Shared
  /-- The first error of a task. -/
  first : Option RunError := none
  /-- Whether the run was cancelled from outside. -/
  interrupted : Bool := false

namespace Plan

variable (p : Plan)

def errorOf (id : String) (s : Tasks Shared) : Option RunError :=
  match s.phase id with
  | .failed => p.taskError id (s.world.jobs id) s.world.registry
  | .dropped => some (.cancelled none)
  | _ => none

/-- A step in which the check keeps to its order. -/
structure Orderly (id : String) (s s' : Tasks Shared) : Prop where
  /-- A check is cancelled only when the run is. -/
  cancels : (s'.world.jobs id).cancelled = true →
    (s.world.jobs id).cancelled = true ∨ s.cancelled = true
  /-- A check that was not stopped does not return before its end. -/
  returns : s'.phase id = .returned false →
    s.phase id = .returned false ∨ (s.world.jobs id).isStopped = true

/-- One move of a run: a step of a task, or an interruption. -/
inductive Moves (x : Progress) : Progress → Prop
  | step {id : String} {s : Tasks Shared} :
      id ∈ p.order → p.schedule.Step id x.tasks s → Orderly id x.tasks s →
      Moves x { x with tasks := s, first := x.first.or (p.errorOf id s) }
  | interrupt : Moves x { x with tasks := { x.tasks with cancelled := true }, interrupted := true }

/-- What moves lead to from the start. -/
def Runs (x : Progress) : Prop := Relation.ReflTransGen p.Moves { tasks := p.schedule.begin } x

/-- All tasks of a run are over. -/
def Ended (x : Progress) : Prop := ∀ id ∈ p.order, (x.tasks.phase id).isOver = true

/-! ### Sound worlds -/

/-- No job fails, and a job published its module if and only if the registry has it. -/
structure Sound (w : Shared) : Prop where
  consistent : p.Consistent w
  failure : ∀ id m, p.project.find? id = some m → (w.jobs id).failure = none
  published : ∀ id m, p.project.find? id = some m →
    ((w.jobs id).published = true ↔ w.registry.isPublished id = true)

end Plan

namespace Job

theorem publish_of_stopped {j : Job} (h : j.isStopped = true) (r : Registry) : j.publish r = (j, r) := by
  rw [publish]
  cases j.outcome with
  | none => rfl
  | some o => simp only [h, if_true]

end Job

namespace Plan

variable {p : Plan} {w w' : Shared} {id x : String} {m : LoadedModule}

theorem sound_share (p : Plan) : p.Sound p.share where
  consistent := consistent_share p
  failure := by
    intro id m hm
    show (p.newJob id).failure = none
    rw [newJob, hm]
    rfl
  published := by
    intro id m hm
    have hnot : p.share.registry.isPublished id = false := not_isPublished_begin hm
    have hnew : (p.share.jobs id).published = false := by
      show (p.newJob id).published = false
      rw [newJob, hm]
      rfl
    rw [hnot, hnew]

/-- An action publishes no other module. -/
theorem Consistent.isPublished_of_ne (h : p.Consistent w) (hact : p.Acts id w w') (hx : x ≠ id) :
    w'.registry.isPublished x = w.registry.isPublished x := by
  rcases hact.registry with hsame | ⟨m, o, hm, ho, hpub⟩
  · rw [hsame]
  · obtain ⟨-, hget, -⟩ := Registry.get?_publish hpub x
    rw [h.exports_module hm ho, if_neg (Ne.symm hx)] at hget
    rw [Registry.isPublished, Registry.isPublished, Assoc.has, Assoc.has, hget]

/-- Publication of a job that was not stopped succeeds. -/
theorem Sound.publish_eq {o : Outcome} (h : p.Sound w) (hm : p.project.find? id = some m)
    (ho : (w.jobs id).outcome = some o) (hnew : (w.jobs id).published = false)
    (hrun : (w.jobs id).isStopped = false) :
    ∃ r, w.registry.publish o.exports = .ok r ∧ r.isPublished id = true ∧
      (w.jobs id).publish w.registry = ({ w.jobs id with published := true }, r) := by
  have hname := h.consistent.exports_module hm ho
  have hnot : ¬ w.registry.isPublished o.exports.module = true := by
    rw [hname, ← h.published id m hm, hnew]
    exact Bool.false_ne_true
  cases hpub : w.registry.publish o.exports with
  | error e =>
      rw [Registry.publish, if_neg hnot] at hpub
      cases hpub
  | ok r =>
      obtain ⟨-, hget, -⟩ := Registry.get?_publish hpub id
      rw [if_pos hname] at hget
      exact ⟨r, rfl, (Registry.isPublished_iff _ _).2 ⟨_, hget⟩, Job.publish_of_ok ho hrun hpub⟩

/-- What an action leaves of its own job. -/
theorem Sound.job_acts (h : p.Sound w) (hact : p.Acts id w w') (hm : p.project.find? id = some m) :
    (w'.jobs id).failure = none ∧
      ((w'.jobs id).published = true ↔ w'.registry.isPublished id = true) := by
  have hfailure := h.failure id m hm
  have hpublished := h.published id m hm
  cases hact with
  | ask _ _ => exact ⟨hfailure, hpublished⟩
  | @check k job hk _ _ hcheck =>
      have hself : (w.setJob id job).jobs id = job := Function.update_self ..
      rw [hself]
      rcases Job.eq_of_check (h.consistent.jobs id m hm) hcheck with rfl | ⟨o, -, rfl⟩
      · exact ⟨hfailure, hpublished⟩
      · exact ⟨hfailure, hpublished⟩
  | cancel =>
      have hself : (w.setJob id { w.jobs id with cancelled := true }).jobs id =
          { w.jobs id with cancelled := true } := Function.update_self ..
      rw [hself]
      exact ⟨hfailure, hpublished⟩
  | publish _ ho hnew =>
      have hself : (w.publish id).jobs id = ((w.jobs id).publish w.registry).1 :=
        Function.update_self ..
      have hregistry : (w.publish id).registry = ((w.jobs id).publish w.registry).2 := rfl
      rw [hself, hregistry]
      cases hstop : (w.jobs id).isStopped with
      | true =>
          rw [Job.publish_of_stopped hstop]
          exact ⟨hfailure, hpublished⟩
      | false =>
          obtain ⟨r, -, hpub, heq⟩ := h.publish_eq hm ho hnew hstop
          rw [heq]
          exact ⟨hfailure, fun _ => hpub, fun _ => rfl⟩

/-- **Actions keep worlds sound**, if what the module of the action depends on is published. -/
theorem Sound.acts (h : p.Sound w)
    (hready : ∀ d ∈ p.graph.dependencies id, w.registry.isPublished d = true) (hact : p.Acts id w w') :
    p.Sound w' := by
  have hjob : ∀ x m, p.project.find? x = some m → (w'.jobs x).failure = none ∧
      ((w'.jobs x).published = true ↔ w'.registry.isPublished x = true) := by
    intro x m hm
    by_cases hx : x = id
    · subst hx
      exact h.job_acts hact hm
    · rw [hact.job_of_ne hx, h.consistent.isPublished_of_ne hact hx]
      exact ⟨h.failure x m hm, h.published x m hm⟩
  exact ⟨h.consistent.acts hready hact, fun x m hm => (hjob x m hm).1, fun x m hm => (hjob x m hm).2⟩

/-- **Every reachable state is sound.** -/
theorem sound_of_reachable {s : Tasks Shared} (h : p.schedule.Reachable s) : p.Sound s.world :=
  h.world (P := p.Sound) (sound_share p) fun _ _ _ _ hw hready hact => hw.acts hready hact

/-! ### What holds of all runs -/

/-- What the job of a module shows when its check has returned. -/
def Returned (w : Shared) (id : String) : Phase → Prop
  | .returned true => (w.jobs id).published = true
  | .released true => (w.jobs id).published = true
  | .returned false => (w.jobs id).isStopped = true
  | .released false => (w.jobs id).isStopped = true
  | _ => True

/-- A step leaves the jobs of the other tasks. -/
theorem step_jobs_of_ne {s s' : Tasks Shared} (h : p.schedule.Step id s s') (hx : x ≠ id) :
    s'.world.jobs x = s.world.jobs x := by
  rcases h.world with heq | ⟨hact, -⟩
  · exact congrFun (congrArg Shared.jobs heq) x
  · exact Acts.job_of_ne hact hx

/-- What a task has returned depends on its own job alone. -/
theorem Returned.congr {phase : Phase} (h : Returned w id phase) (hjob : w'.jobs id = w.jobs id) :
    Returned w' id phase := by
  cases phase with
  | returned ok | released ok => cases ok <;> simpa only [Returned, hjob] using h
  | _ => trivial

/-- What a task has returned is kept by the steps of all tasks. -/
theorem Returned.step {s s' : Tasks Shared} (h : Returned s.world id (s.phase id))
    (hstep : p.schedule.Step id s s') (horderly : Orderly id s s') :
    Returned s'.world id (s'.phase id) := by
  have hbefore := hstep.before
  cases hp' : s'.phase id with
  | returned ok =>
      rw [hp'] at hbefore
      obtain ⟨hp, hreturns⟩ := hbefore
      have hworld := hstep.world_eq (by rw [hp, hp']; nofun)
      rw [hworld]
      cases ok with
      | true => exact hreturns.1
      | false => exact (horderly.returns hp').resolve_left (by rw [hp]; nofun)
  | released ok =>
      rw [hp'] at hbefore
      have hp : s.phase id = .returned ok := hbefore
      have hworld := hstep.world_eq (by rw [hp, hp']; nofun)
      rw [hp] at h
      rw [hworld]
      cases ok with
      | true => exact h
      | false => exact h
  | _ => trivial

/-- A task fails only when its job was cancelled. -/
theorem Sound.cancelled_of_failed {s s' : Tasks Shared} (h : p.Sound s.world)
    (hm : p.project.find? id = some m) (hreturned : Returned s.world id (s.phase id))
    (hstep : p.schedule.Step id s s') (hp' : s'.phase id = .failed) :
    (s.world.jobs id).cancelled = true ∧ s'.world = s.world := by
  have hbefore := hstep.before
  rw [hp'] at hbefore
  obtain ⟨ok, hp, hbad⟩ := hbefore
  refine ⟨?_, hstep.world_eq (by rw [hp, hp']; nofun)⟩
  rw [hp] at hreturned
  cases ok with
  | true =>
      have hpub : s.world.registry.isPublished id = true := (h.published id m hm).1 hreturned
      exact absurd hpub (hbad.resolve_left nofun)
  | false =>
      have hstop : (s.world.jobs id).isStopped = true := hreturned
      rw [Job.isStopped, h.failure id m hm] at hstop
      exact hstop

variable (p) in
/-- **The invariant of a run.** -/
structure Inv (x : Progress) : Prop where
  reachable : p.schedule.Reachable x.tasks
  returned : ∀ id, Returned x.tasks.world id (x.tasks.phase id)
  /-- The first error is none that a job tells of. -/
  told : ∀ e, x.first = some e → e.isTold = false
  /-- A task that ended badly left an error. -/
  bad : ∀ id, x.tasks.phase id = .failed ∨ x.tasks.phase id = .dropped → x.first.isSome = true
  /-- Nothing is cancelled in a run that was not interrupted. -/
  quiet : x.interrupted = false →
    x.tasks.cancelled = false ∧ x.first = none ∧ ∀ id, (x.tasks.world.jobs id).cancelled = false

theorem inv_begin (p : Plan) : p.Inv { tasks := p.schedule.begin } where
  reachable := .begin
  returned := fun _ => trivial
  told := nofun
  bad := fun _ h => h.elim nofun nofun
  quiet := by
    refine fun _ => ⟨rfl, rfl, fun id => ?_⟩
    show (p.newJob id).cancelled = false
    rw [newJob]
    split <;> rfl

/-- The error of a task that was cancelled is none that its job tells of. -/
theorem taskError_of_cancelled {job : Job} (hm : p.project.find? id = some m)
    (h : job.cancelled = true) (r : Registry) : p.taskError id job r = some (.cancelled (some id)) := by
  rw [taskError, hm, Option.isNone_some, if_neg nofun, if_pos h]

/-- A step leaves the errors that it has to leave. -/
theorem Inv.errorOf {x : Progress} {s : Tasks Shared} (h : p.Inv x)
    (hm : p.project.find? id = some m) (hstep : p.schedule.Step id x.tasks s) :
    (∀ e, p.errorOf id s = some e → e.isTold = false) ∧
      (s.phase id = .failed ∨ s.phase id = .dropped → (p.errorOf id s).isSome = true) := by
  rw [Plan.errorOf]
  cases hp : s.phase id with
  | failed =>
      obtain ⟨hcancelled, hworld⟩ :=
        (sound_of_reachable h.reachable).cancelled_of_failed hm (h.returned id) hstep hp
      rw [← hworld] at hcancelled
      simp only [taskError_of_cancelled hm hcancelled]
      exact ⟨fun e he => by cases he; rfl, fun _ => rfl⟩
  | dropped => exact ⟨fun e he => by cases he; rfl, fun _ => rfl⟩
  | _ => exact ⟨nofun, fun h => h.elim nofun nofun⟩

/-- Without an interruption no task ends badly. -/
theorem Inv.quiet_step {x : Progress} {s : Tasks Shared} (h : p.Inv x)
    (hm : p.project.find? id = some m) (hstep : p.schedule.Step id x.tasks s)
    (hquiet : x.interrupted = false) : s.phase id ≠ .failed ∧ s.phase id ≠ .dropped := by
  obtain ⟨hcancelled, -, hjobs⟩ := h.quiet hquiet
  constructor
  · intro hp
    have hjob :=
      ((sound_of_reachable h.reachable).cancelled_of_failed hm (h.returned id) hstep hp).1
    rw [hjobs id] at hjob
    cases hjob
  · intro hp
    have hbefore := hstep.before
    rw [hp] at hbefore
    have hdropped : x.tasks.cancelled = true := hbefore
    rw [hcancelled] at hdropped
    cases hdropped

/-- Every step of a task keeps the invariant. -/
theorem Inv.step {x : Progress} {s : Tasks Shared} (h : p.Inv x) (hid : id ∈ p.order)
    (hstep : p.schedule.Step id x.tasks s) (horderly : Orderly id x.tasks s) :
    p.Inv { x with tasks := s, first := x.first.or (p.errorOf id s) } := by
  obtain ⟨m, hm⟩ := (p.mem_order id).1 hid
  obtain ⟨htold, hleft⟩ := h.errorOf hm hstep
  have hphase := hstep.frame.1
  refine ⟨h.reachable.step hid hstep, fun y => ?_, fun e he => ?_, fun y hy => ?_, fun hquiet => ?_⟩
  · by_cases hy : y = id
    · subst hy
      exact (h.returned y).step hstep horderly
    · show Returned s.world y (s.phase y)
      rw [hphase y hy]
      exact (h.returned y).congr (step_jobs_of_ne hstep hy)
  · rcases Option.or_eq_some_iff.1 he with hfirst | ⟨-, hnew⟩
    · exact h.told e hfirst
    · exact htold e hnew
  · show (x.first.or (p.errorOf id s)).isSome = true
    rw [Option.isSome_or, Bool.or_eq_true]
    by_cases hyid : y = id
    · exact Or.inr (hleft (hyid ▸ hy))
    · rw [show ({ x with tasks := s, first := x.first.or (p.errorOf id s) } : Progress).tasks.phase y =
        x.tasks.phase y from hphase y hyid] at hy
      exact Or.inl (h.bad y hy)
  · obtain ⟨hcancelled, hfirst, hjobs⟩ := h.quiet hquiet
    obtain ⟨hfailed, hdropped⟩ := h.quiet_step hm hstep hquiet
    refine ⟨?_, ?_, fun y => ?_⟩
    · show s.cancelled = false
      rw [← Bool.not_eq_true]
      intro hs
      rcases hstep.cancelled hs with hbefore | hp
      · rw [hcancelled] at hbefore
        cases hbefore
      · exact hfailed hp
    · show x.first.or (p.errorOf id s) = none
      rw [hfirst, Option.none_or, Plan.errorOf]
      split
      · next hp => exact absurd hp hfailed
      · next hp => exact absurd hp hdropped
      · rfl
    · show (s.world.jobs y).cancelled = false
      by_cases hy : y = id
      · subst hy
        rw [← Bool.not_eq_true]
        intro hjob
        rcases horderly.cancels hjob with hbefore | hrun
        · rw [hjobs y] at hbefore
          cases hbefore
        · rw [hcancelled] at hrun
          cases hrun
      · rw [step_jobs_of_ne hstep hy]
        exact hjobs y

/-- **The invariant holds of all runs.** -/
theorem Runs.inv {x : Progress} (h : p.Runs x) : p.Inv x := by
  induction h with
  | refl => exact inv_begin p
  | tail _ hmove ih =>
      cases hmove with
      | step hid hstep horderly => exact ih.step hid hstep horderly
      | interrupt => exact ⟨ih.reachable.cancel, ih.returned, ih.told, ih.bad, nofun⟩

/-- When a run that was not interrupted is over, all modules are finished. -/
theorem Inv.finished {x : Progress} (h : p.Inv x) (hended : p.Ended x) (hfirst : x.first = none)
    (hid : id ∈ p.order) : x.tasks.phase id = .finished := by
  have hover := hended id hid
  have hbad := h.bad id
  rw [hfirst] at hbad
  cases hp : x.tasks.phase id with
  | finished => rfl
  | failed => cases hbad (Or.inl hp)
  | dropped => cases hbad (Or.inr hp)
  | waiting _ | checking | returned _ | released _ =>
      rw [hp] at hover
      cases hover

/-! ### What is left to be done -/

variable (p) in
/-- What is left to the check of a module: imports to be answered, the outcome, the publication. -/
def leftOf (w : Shared) (id : String) : Nat :=
  match p.project.find? id with
  | none => 0
  | some m =>
    (m.imports.filter fun i => !(w.answers id).has i).length +
      (if (w.jobs id).outcome.isNone then 1 else 0) + (if (w.jobs id).published then 0 else 1)

variable (p) in
/-- What is left to a run. -/
def measure (s : Tasks Shared) : Nat := (p.order.map fun id => (s.phase id).left + p.leftOf s.world id).sum

/-- What is left for a task, counted: imports, check and publication. -/
theorem leftOf_eq (hm : p.project.find? id = some m) (w : Shared) :
    p.leftOf w id = (m.imports.filter fun i => !(w.answers id).has i).length +
      (if (w.jobs id).outcome.isNone then 1 else 0) + (if (w.jobs id).published then 0 else 1) := by
  rw [leftOf, hm]

/-- With a new answer fewer imports are left to be answered. -/
theorem unanswered_lt {is : List String} {answers : Assoc (Except ImportError ExportTable)} {i : String}
    {a : Except ImportError ExportTable} (hi : i ∈ is) (hnew : ¬ answers.has i = true) :
    (is.filter fun k => !(answers.set i a).has k).length < (is.filter fun k => !answers.has k).length := by
  have hfilter : (is.filter fun k => !(answers.set i a).has k) =
      (is.filter fun k => !answers.has k).filter fun k => !decide (i = k) := by
    rw [List.filter_filter]
    refine List.filter_congr fun k _ => ?_
    rw [Assoc.has_set, Bool.not_or]
  rw [hfilter, List.length_filter_lt_length_iff_exists]
  exact ⟨i, List.mem_filter.2 ⟨hi, by simpa using hnew⟩, by simp⟩

/-- The actions of a task leave what is left for the others. -/
theorem leftOf_of_ne (hact : p.Acts id w w') (hx : x ≠ id) : p.leftOf w' x = p.leftOf w x := by
  have hanswers : w'.answers x = w.answers x := by
    cases hact with
    | ask _ _ => exact Function.update_of_ne hx _ _
    | check _ _ _ _ | publish _ _ _ | cancel => rfl
  rw [leftOf, leftOf, hanswers, hact.job_of_ne hx]

/-- A step that leaves less to its task leaves less to the run. -/
theorem measure_lt {s s' : Tasks Shared} (hid : id ∈ p.order) (hstep : p.schedule.Step id s s')
    (hless : (s'.phase id).left + p.leftOf s'.world id < (s.phase id).left + p.leftOf s.world id) :
    p.measure s' < p.measure s := by
  have hother : ∀ y, y ≠ id →
      (s'.phase y).left + p.leftOf s'.world y = (s.phase y).left + p.leftOf s.world y := by
    intro y hy
    rw [hstep.frame.1 y hy]
    rcases hstep.world with heq | ⟨hact, -⟩
    · rw [show s'.world = s.world from heq]
    · rw [leftOf_of_ne hact hy]
  refine List.sum_lt_sum _ _ (fun y _ => ?_) ⟨id, hid, hless⟩
  by_cases hy : y = id
  · exact hy ▸ hless.le
  · exact (hother y hy).le

/-- A step of a run that is not interrupted is in order if its check is not cancelled by it, and does
not return without its end. -/
theorem orderly_of_step {s s' : Tasks Shared}
    (hcancels : (s'.world.jobs id).cancelled = (s.world.jobs id).cancelled)
    (hreturns : s'.phase id ≠ .returned false) : Orderly id s s' where
  cancels h := Or.inl (hcancels ▸ h)
  returns h := absurd h hreturns

variable (p) in
/-- Every check that is under way finds its outcome when all its imports are answered. -/
def Checkable (x : Progress) : Prop :=
  ∀ id m, p.project.find? id = some m → x.tasks.phase id = .checking → Answered m x.tasks.world →
    ∃ o, m.program.check p.options (some (x.tasks.world.source id)) = .ok o

/-- A check that runs and was not stopped can act or return, and has less left then. -/
theorem Inv.exists_less_checking {x : Progress} (h : p.Inv x) (hid : id ∈ p.order)
    (hp : x.tasks.phase id = .checking) (hquiet : x.interrupted = false) (hcheckable : p.Checkable x) :
    ∃ s, p.schedule.Step id x.tasks s ∧ Orderly id x.tasks s ∧
      (s.phase id).left + p.leftOf s.world id <
        (x.tasks.phase id).left + p.leftOf x.tasks.world id := by
  obtain ⟨m, hm⟩ := (p.mem_order id).1 hid
  have hsound := sound_of_reachable h.reachable
  have hcancelled := (h.quiet hquiet).2.2 id
  have hrun : (x.tasks.world.jobs id).isStopped = false := by
    rw [Job.isStopped, hsound.failure id m hm, hcancelled]
    rfl
  have hact : ∀ w, p.Acts id x.tasks.world w →
      (w.jobs id).cancelled = (x.tasks.world.jobs id).cancelled →
      p.leftOf w id < p.leftOf x.tasks.world id →
      ∃ s, p.schedule.Step id x.tasks s ∧ Orderly id x.tasks s ∧
        (s.phase id).left + p.leftOf s.world id <
          (x.tasks.phase id).left + p.leftOf x.tasks.world id := by
    intro w hacts hcancels hless
    refine ⟨{ x.tasks with world := w }, .act hp hacts, orderly_of_step hcancels ?_,
      Nat.add_lt_add_left hless _⟩
    show x.tasks.phase id ≠ _
    rw [hp]
    exact Phase.noConfusion
  cases hpub : (x.tasks.world.jobs id).published with
  | true =>
      have hreturns : p.schedule.checks.returns id x.tasks.world true :=
        show p.Returns id x.tasks.world true from ⟨hpub, hrun⟩
      refine ⟨_, .ret hp hreturns, orderly_of_step rfl ?_, ?_⟩
      · simp only [Function.update_self]
        exact fun h => Bool.noConfusion (Phase.returned.inj h)
      · simp only [Function.update_self, hp, Phase.left]
        exact Nat.add_lt_add_right (by decide) _
  | false =>
      cases ho : (x.tasks.world.jobs id).outcome with
      | some o =>
          obtain ⟨r, -, -, heq⟩ := hsound.publish_eq hm ho hpub hrun
          have hjob : (x.tasks.world.publish id).jobs id =
              { x.tasks.world.jobs id with published := true } := by
            rw [Shared.publish_eq rfl heq]
            exact Function.update_self ..
          refine hact _ (.publish hm ho hpub) (by rw [hjob]) ?_
          have hanswers : (x.tasks.world.publish id).answers = x.tasks.world.answers := rfl
          rw [leftOf_eq hm, leftOf_eq hm, hjob, hpub, hanswers]
          simp
      | none =>
          by_cases hall : Answered m x.tasks.world
          · obtain ⟨o, hcheck⟩ := hcheckable id m hm hp hall
            have hjob := Job.check_eq (hsound.consistent.jobs id m hm) hrun (x.tasks.world.source id)
            rw [hcheck] at hjob
            refine hact _ (.check hm hall ho hjob) (by simp [Shared.setJob]) ?_
            rw [leftOf_eq hm, leftOf_eq hm]
            simp [Shared.setJob, ho]
          · obtain ⟨i, hi, hnew⟩ : ∃ i ∈ m.imports, ¬ (x.tasks.world.answers m.id).has i = true := by
              simpa [Answered] using hall
            rw [(Project.id_of_find? hm).2] at hnew
            refine hact _ (.ask hm hi) rfl ?_
            have hless := unanswered_lt (a := x.tasks.world.registry.source p.graph id i) hi hnew
            rw [leftOf_eq hm, leftOf_eq hm]
            refine Nat.add_lt_add_right (Nat.add_lt_add_right ?_ _) _
            simpa [Shared.answer] using hless

/-- **As long as a run that was not interrupted is not over, it can move on**, so that less is left. -/
theorem Runs.exists_less {x : Progress} (hlimit : 1 ≤ p.limit) (h : p.Runs x)
    (hquiet : x.interrupted = false) (hcheckable : p.Checkable x) (hopen : ¬ p.Ended x) :
    ∃ y, p.Moves x y ∧ y.interrupted = false ∧ p.measure y.tasks < p.measure x.tasks := by
  have hinv := h.inv
  obtain ⟨hcancelled, hfirst, hjobs⟩ := hinv.quiet hquiet
  -- a step that leaves less to its task is a move
  have hmove : ∀ id ∈ p.order, ∀ s, p.schedule.Step id x.tasks s → Orderly id x.tasks s →
      (s.phase id).left + p.leftOf s.world id < (x.tasks.phase id).left + p.leftOf x.tasks.world id →
      ∃ y, p.Moves x y ∧ y.interrupted = false ∧ p.measure y.tasks < p.measure x.tasks :=
    fun id hid s hstep horderly hless => ⟨_, .step hid hstep horderly, hquiet, measure_lt hid hstep hless⟩
  have hturn : ∀ id ∈ p.order, ∀ (s : Tasks Shared) (phase : Phase), p.schedule.Step id x.tasks s →
      s.world = x.tasks.world → s.phase id = phase → phase ≠ .returned false →
      phase.left < (x.tasks.phase id).left →
      ∃ y, p.Moves x y ∧ y.interrupted = false ∧ p.measure y.tasks < p.measure x.tasks := by
    intro id hid s phase hstep hworld hphase hreturned hless
    refine hmove id hid s hstep (orderly_of_step (by rw [hworld]) (hphase ▸ hreturned)) ?_
    rw [hworld, hphase]
    exact Nat.add_lt_add_right hless _
  obtain ⟨id, hid, hphase⟩ : ∃ id ∈ p.order, ¬ (x.tasks.phase id).isOver = true := by
    simpa [Ended] using hopen
  have hunfinished : x.tasks.phase id ≠ .finished := by
    intro hp
    rw [hp] at hphase
    exact hphase rfl
  obtain ⟨id, hid, hready⟩ := hinv.reachable.inv.exists_ready hlimit hcancelled id hid hunfinished
  have hreturned := hinv.returned id
  obtain ⟨m, hm⟩ := (p.mem_order id).1 hid
  have hsound := sound_of_reachable hinv.reachable
  have hrun : (x.tasks.world.jobs id).isStopped = false := by
    rw [Job.isStopped, hsound.failure id m hm, hjobs id]
    rfl
  cases hready with
  | see hp hclosed =>
      exact hturn id hid _ _ (.see hp hclosed) rfl (Function.update_self ..) (by simp)
          (by simp [hp, Phase.left])
  | start hp hfree =>
      exact hturn id hid _ _ (.start hp hfree) rfl (Function.update_self ..) (by simp)
          (by simp [hp, Phase.left])
  | holdsSlot hslot =>
      cases hp : x.tasks.phase id with
      | checking =>
          obtain ⟨s, hstep, horderly, hless⟩ := hinv.exists_less_checking hid hp hquiet hcheckable
          exact hmove id hid s hstep horderly hless
      | returned ok =>
          exact hturn id hid _ _ (.release hp) rfl (Function.update_self ..) (by simp)
            (by simp [hp, Phase.left])
      | _ =>
          rw [hp] at hslot
          cases hslot
  | @released ok hp =>
      rw [hp] at hreturned
      cases ok with
      | true =>
          have hpub : p.schedule.Published x.tasks id := (hsound.published id m hm).1 hreturned
          exact hturn id hid _ _ (.announce hp hpub) rfl (Function.update_self ..) (by simp)
            (by simp [hp, Phase.left])
      | false =>
          have hstop : (x.tasks.world.jobs id).isStopped = true := hreturned
          rw [hrun] at hstop
          cases hstop

/-- **A run that was not interrupted can be brought to its end.**  The induction is on what is left. -/
theorem Runs.exists_end {x : Progress} (hlimit : 1 ≤ p.limit)
    (hcheckable : ∀ y, p.Runs y → p.Checkable y) (h : p.Runs x) (hquiet : x.interrupted = false) :
    ∃ y, Relation.ReflTransGen p.Moves x y ∧ y.interrupted = false ∧ p.Ended y := by
  induction hn : p.measure x.tasks using Nat.strong_induction_on generalizing x with
  | _ n ih =>
  by_cases hended : p.Ended x
  · exact ⟨x, .refl, hquiet, hended⟩
  · obtain ⟨y, hmove, hquiet', hless⟩ := h.exists_less hlimit hquiet (hcheckable x h) hended
    obtain ⟨z, hz, hend⟩ := ih _ (hn ▸ hless) (h.tail hmove) hquiet' rfl
    exact ⟨z, .head hmove hz, hend⟩

end Plan

end TreeCheck
