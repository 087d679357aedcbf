import TreeCheck.Proofs.Schedule.Shared

/-!
# One module after the other

The run that checks one module after the other is one of the interleavings of the tasks.

* `Job.of_process` — what a job of a loaded module does when it does not fail;
* `Plan.runs_process`, `Plan.checked` — a check may act in one go, and a task whose dependencies are
  announced may go from its start to its end while all others stand still;
* `Plan.Follows` — a run and the tasks came equally far, by `Follows.checkOne` for one module and
  `Follows.foldlM` for the rest of them;
* `Plan.run_interleaves` — so a run without failure is an interleaving in which all modules finish.
-/

namespace TreeCheck

/-! ### Jobs that do not fail -/

namespace Job

variable {m : LoadedModule} {options : Options} {source : ImportSource} {s s' : Store} {j j' : Job}

/-- The stages of a job once its check is over. -/
theorem process_eq (h : j.check source = .ok j') :
    j.process source s = .ok ((j'.publish s.registry).1,
      { registry := (j'.publish s.registry).2
        index := s.index.map (j'.publish s.registry).1.index }) := by
  rw [process, h]
  rfl

/-- A publication that the registry takes marks the job as published. -/
theorem publish_of_ok {o : Outcome} {r r' : Registry} (ho : j.outcome = some o)
    (hrun : j.isStopped = false) (h : r.publish o.exports = .ok r') :
    j.publish r = ({ j with published := true }, r') := by
  simp only [publish, ho, hrun, Bool.false_eq_true, if_false, h]

/-- One that the registry refuses marks the job as failed. -/
theorem publish_of_error {o : Outcome} {r : Registry} {e : ImportError} (ho : j.outcome = some o)
    (hrun : j.isStopped = false) (h : r.publish o.exports = .error e) :
    j.publish r = ({ j with failure := some (.publish e) }, r) := by
  simp only [publish, ho, hrun, Bool.false_eq_true, if_false, h]

/-- The check of the job of a loaded module. -/
theorem check_ofModule {o : Outcome} (h : m.program.check options (some source) = .ok o) :
    (ofModule m options).check source = .ok { ofModule m options with outcome := some o } := by
  rw [check_eq (isFor_ofModule m options) rfl, h]
  rfl

/-- A job that did not fail found an outcome and published its exports. -/
theorem of_process (h : (ofModule m options).process source s = .ok (j, s')) (hok : j.failure = none) :
    ∃ o r, m.program.check options (some source) = .ok o ∧ s.registry.publish o.exports = .ok r ∧
      j = { ofModule m options with outcome := some o, published := true } ∧
      s' = { registry := r, index := s.index.map j.index } := by
  cases ho : m.program.check options (some source) with
  | error e =>
      rw [process, check_eq (isFor_ofModule m options) rfl, ho] at h
      cases h
  | ok o =>
      rw [process_eq (check_ofModule ho)] at h
      cases hr : s.registry.publish o.exports with
      | ok r =>
          rw [publish_of_ok rfl rfl hr] at h
          cases h
          exact ⟨o, r, rfl, hr, rfl, rfl⟩
      | error e =>
          rw [publish_of_error rfl rfl hr] at h
          cases h
          cases hok

/-- A job that did not fail published its module. -/
theorem published_of_process (h : (ofModule m options).process source s = .ok (j, s'))
    (hok : j.failure = none) :
    j.published = true ∧ j.isStopped = false ∧ s'.registry.isPublished m.id = true := by
  obtain ⟨o, r, hcheck, hpub, rfl, rfl⟩ := of_process h hok
  refine ⟨rfl, rfl, ?_⟩
  have hname : o.exports.module = m.id := Program.exports_module hcheck
  obtain ⟨-, hget, -⟩ := Registry.get?_publish hpub m.id
  rw [if_pos hname] at hget
  exact (Registry.isPublished_iff _ _).2 ⟨_, hget⟩

end Job

/-! ### One check alone -/

/-- Publishing changes the job and the registry only. -/
theorem Shared.publish_eq {w : Shared} {id : String} {j j' : Job} {r : Registry}
    (hj : w.jobs id = j) (h : j.publish w.registry = (j', r)) :
    w.publish id = { w with
      store := { registry := r, index := w.store.index.map j'.index }
      jobs := Function.update w.jobs id j' } := by
  rw [publish, hj, h]
  rfl

namespace Plan

open Relation

variable {p : Plan}

/-- Any number of actions of one check keep consistency. -/
theorem Consistent.runs {id : String} {w w' : Shared} (h : p.Consistent w)
    (hready : ∀ d ∈ p.graph.dependencies id, w.registry.isPublished d = true)
    (hruns : ReflTransGen (p.Acts id) w w') : p.Consistent w' := by
  induction hruns using ReflTransGen.head_induction_on with
  | refl => exact h
  | head hact _ ih => exact ih (h.acts hready hact) fun d hd => hact.isPublished (hready d hd)

/-- A check may ask for imports, one after the other. -/
theorem asks {id : String} {m : LoadedModule} (hm : p.project.find? id = some m) (is : List String)
    (his : ∀ i ∈ is, i ∈ m.imports) (w : Shared) :
    ∃ answers, ReflTransGen (p.Acts id) w { w with answers } ∧
      (∀ i, (w.answers id).has i = true → (answers id).has i = true) ∧
      ∀ i ∈ is, (answers id).has i = true := by
  induction is generalizing w with
  | nil => exact ⟨w.answers, ReflTransGen.refl, fun _ hi => hi, fun i hi => by cases hi⟩
  | cons i is ih =>
      have hask : p.Acts id w (w.answer id i (w.registry.source p.graph id i)) :=
        .ask hm (his i List.mem_cons_self)
      obtain ⟨answers, hruns, hkept, hnew⟩ :=
        ih (fun k hk => his k (List.mem_cons_of_mem _ hk)) (w.answer id i _)
      have hset : ∀ k, ((w.answer id i (w.registry.source p.graph id i)).answers id).has k =
          (decide (i = k) || (w.answers id).has k) := by
        intro k
        show (Function.update w.answers id _ id).has k = _
        rw [Function.update_self, Assoc.has_set]
      refine ⟨answers, ReflTransGen.head hask hruns, fun k hk => hkept k ?_, fun k hk => ?_⟩
      · rw [hset, hk, Bool.or_true]
      · rcases List.mem_cons.1 hk with rfl | hk
        · refine hkept k ?_
          rw [hset, decide_eq_true rfl, Bool.true_or]
        · exact hnew k hk

/-- The check of a module may do at once what its job does. -/
theorem runs_process {w : Shared} {id : String} {m : LoadedModule} {job : Job} {store : Store}
    (h : p.Consistent w) (hready : ∀ d ∈ p.graph.dependencies id, w.registry.isPublished d = true)
    (hm : p.project.find? id = some m) (hnew : w.jobs id = .ofModule m p.options)
    (hprocess : (Job.ofModule m p.options).process (w.registry.source p.graph id) w.store =
      .ok (job, store))
    (hok : job.failure = none) :
    ∃ w' : Shared, ReflTransGen (p.Acts id) w w' ∧ w'.store = store ∧
      w'.jobs = Function.update w.jobs id job := by
  obtain ⟨o, r, hcheck, hpub, rfl, rfl⟩ := Job.of_process hprocess hok
  obtain ⟨answers, hasks, -, hall⟩ := asks hm m.imports (fun _ hi => hi) w
  rw [← (Project.id_of_find? hm).2] at hall
  -- The answers are those that the registry gives, so the check finds the same outcome.
  have hsame : m.program.check p.options (some (Shared.source { w with answers } id)) = .ok o := by
    rw [← hcheck]
    exact Program.check_congr p.options fun i hi =>
      ((h.runs hready hasks).source_eq hm hall hi).1
  have hfinds : p.Acts id { w with answers } (Shared.setJob { w with answers } id
      { Job.ofModule m p.options with outcome := some o }) := by
    refine .check hm hall ?_ ?_
    · rw [hnew]
      rfl
    · rw [hnew]
      exact Job.check_ofModule hsame
  have hjob : (Shared.setJob { w with answers } id
      { Job.ofModule m p.options with outcome := some o }).jobs id =
        { Job.ofModule m p.options with outcome := some o } := Function.update_self ..
  have hpublishes : p.Acts id _ _ :=
    .publish hm (congrArg Job.outcome hjob) (congrArg Job.published hjob)
  refine ⟨_, (hasks.tail hfinds).tail hpublishes, ?_⟩
  rw [Shared.publish_eq hjob (Job.publish_of_ok rfl rfl hpub)]
  exact ⟨rfl, Function.update_idem ..⟩

/-- **One task alone.**  A task whose dependencies are announced may go from its start to its end while
all others stand still. -/
theorem checked {s : Tasks Shared} {id : String} {m : LoadedModule} {rest : List String} {job : Job}
    {store : Store} (h : p.schedule.Reachable s) (hm : p.project.find? id = some m)
    (hp : s.phase id = .waiting rest) (hrest : ∀ d ∈ rest, d ∈ s.closed) (hfree : s.slots < p.limit)
    (hnew : s.world.jobs id = .ofModule m p.options)
    (hprocess : (Job.ofModule m p.options).process (s.world.registry.source p.graph id) s.world.store =
      .ok (job, store))
    (hok : job.failure = none) :
    ∃ s' : Tasks Shared, p.schedule.Reachable s' ∧ s'.world.store = store ∧
      s'.world.jobs = Function.update s.world.jobs id job ∧
      s'.phase = Function.update s.phase id .finished ∧ s'.slots = s.slots ∧
      s'.started = s.started ++ [id] := by
  have hid : id ∈ p.schedule.order := (p.mem_order id).2 ⟨m, hm⟩
  have hstart := h.starts hid hp hrest hfree
  have hready : ∀ d ∈ p.graph.dependencies id, s.world.registry.isPublished d = true := by
    intro d hd
    refine hstart.inv.published d ((hstart.inv.tasks id).ready ?_ d hd)
    show (Function.update s.phase id .checking id).hasStarted = true
    rw [Function.update_self]
    rfl
  obtain ⟨w, hruns, hstore, hjobs⟩ :=
    runs_process (consistent_of_reachable h) hready hm hnew hprocess hok
  have hacts := hstart.acts hid (Function.update_self ..) hruns
  have hjob : w.jobs id = job := by rw [hjobs, Function.update_self]
  obtain ⟨hpublished, hrun, hpub⟩ := Job.published_of_process hprocess hok
  have hreturns : p.Returns id w true := by
    rw [Returns, hjob]
    exact ⟨hpublished, hrun⟩
  have hpub' : w.registry.isPublished id = true := by
    rw [Shared.registry, hstore, ← (Project.id_of_find? hm).2]
    exact hpub
  have hfin := hacts.finishes hid (Function.update_self ..) hreturns hpub'
  exact ⟨_, hfin, hstore, hjobs, Function.update_idem .., rfl, rfl⟩

/-! ### The run that checks one module after the other -/

/-- A run and the tasks came equally far, and no task is in the middle of its check. -/
structure Follows (p : Plan) (r : Run) (s : Tasks Shared) : Prop where
  reachable : p.schedule.Reachable s
  store : s.world.store = r.store
  started : s.started = r.started
  running : r.running = []
  slots : s.slots = 0
  finished : ∀ id ∈ r.started, s.phase id = .finished
  waiting : ∀ id, id ∉ r.started → s.phase id = .waiting (p.graph.dependencies id)
  new : ∀ id, id ∉ r.started → s.world.jobs id = p.newJob id
  jobs : ∀ id ∈ r.started, r.jobs.get? id = some (s.world.jobs id)

theorem follows_begin (p : Plan) : p.Follows p.begin p.schedule.begin where
  reachable := .begin
  store := rfl
  started := rfl
  running := rfl
  slots := rfl
  finished := fun _ h => by cases h
  waiting := fun _ _ => rfl
  new := fun _ _ => rfl
  jobs := fun _ h => by cases h

/-- In a run without failure no job failed. -/
theorem failure_of_get? {r : Run} (h : r.failed = false) {id : String} {j : Job}
    (hj : r.jobs.get? id = some j) : j.failure = none := by
  have hmem : j ∈ r.jobs.values := by
    generalize r.jobs = jobs at hj
    induction jobs with
    | nil => cases hj
    | cons e es ih =>
        rw [Assoc.get?] at hj
        split at hj
        · cases hj
          exact List.mem_cons_self
        · exact List.mem_cons_of_mem _ (ih hj)
  have hall := List.any_eq_false.1 h j hmem
  simpa using hall

/-- A module that was checked is announced. -/
theorem Follows.closed {r : Run} {s : Tasks Shared} (h : p.Follows r s) {id : String}
    (hid : id ∈ r.started) : id ∈ s.closed := by
  have hbehind := h.reachable.inv.tasks id
  rw [h.finished id hid] at hbehind
  exact hbehind.2

/-- No module is checked after a failure. -/
theorem checkOne_of_failed {r : Run} (h : r.failed = true) (id : String) : p.checkOne r id = .ok r := by
  simp [checkOne, mayStart, h]

/-- A failed run checks nothing more. -/
theorem foldlM_of_failed {r : Run} (h : r.failed = true) (l : List String) :
    l.foldlM p.checkOne r = .ok r := by
  induction l with
  | nil => rfl
  | cons id l ih =>
      rw [List.foldlM_cons, checkOne_of_failed h]
      exact ih

/-- A module whose turn it is may start. -/
theorem Follows.mayStart {r : Run} {s : Tasks Shared} {id : String} (h : p.Follows r s)
    (hlimit : 1 ≤ p.limit) (hid : id ∈ p.order) (hnot : id ∉ r.started)
    (hdeps : ∀ d ∈ p.graph.dependencies id, d ∈ r.started) (hok : r.failed = false) :
    p.mayStart r id = true := by
  have hpub : ∀ d ∈ p.graph.dependencies id, r.store.registry.isPublished d = true := by
    intro d hd
    rw [← h.store]
    exact h.reachable.inv.published d (h.closed (hdeps d hd))
  have hfree : r.running.length < p.limit := by
    rw [h.running]
    exact hlimit
  simp only [Plan.mayStart, hok, List.contains_iff_mem, hid, hfree, Bool.and_eq_true, decide_true,
    List.all_eq_true, Bool.not_false, and_true, true_and]
  exact ⟨by simpa using hnot, hpub⟩

/-- What the check of a module makes of a run. -/
theorem checkOne_of_mayStart {r r' : Run} {id : String} {m : LoadedModule}
    (hmay : p.mayStart r id = true) (hm : p.project.find? id = some m)
    (hrun : p.checkOne r id = .ok r') :
    ∃ job store, (Job.ofModule m p.options).process (r.store.registry.source p.graph id) r.store =
        .ok (job, store) ∧
      r' = {
        store
        running := (r.running ++ [id]).erase id
        started := r.started ++ [id]
        jobs := r.jobs.set id job } := by
  have hstore : (start r id).store = r.store := rfl
  rw [checkOne, if_pos hmay, finish, finishWith, hm] at hrun
  simp only [hstore] at hrun
  cases hprocess : (Job.ofModule m p.options).process (r.store.registry.source p.graph id) r.store with
  | error e =>
      rw [hprocess] at hrun
      cases hrun
  | ok result =>
      rw [hprocess] at hrun
      cases hrun
      exact ⟨result.1, result.2, rfl, rfl⟩

/-- The tasks can follow the check of one module. -/
theorem Follows.checkOne {r r' : Run} {s : Tasks Shared} {id : String} (h : p.Follows r s)
    (hlimit : 1 ≤ p.limit) (hid : id ∈ p.order) (hnot : id ∉ r.started)
    (hdeps : ∀ d ∈ p.graph.dependencies id, d ∈ r.started) (hrun : p.checkOne r id = .ok r')
    (hok : r'.failed = false) :
    ∃ s', p.Follows r' s' ∧ r'.started = r.started ++ [id] := by
  have hrok : r.failed = false := by
    by_contra hfailed
    rw [checkOne_of_failed (by simpa using hfailed)] at hrun
    cases hrun
    exact hfailed hok
  obtain ⟨m, hm⟩ := (p.mem_order id).1 hid
  obtain ⟨job, store, hprocess, rfl⟩ :=
    checkOne_of_mayStart (h.mayStart hlimit hid hnot hdeps hrok) hm hrun
  have hjob : (r.jobs.set id job).get? id = some job := by rw [Assoc.get?_set, if_pos rfl]
  have hnew : s.world.jobs id = .ofModule m p.options := by rw [h.new id hnot, newJob, hm]
  have hfree : s.slots < p.limit := by
    rw [h.slots]
    exact hlimit
  obtain ⟨s', hreach, hstore, hjobs, hphase, hslots, hstarted⟩ := checked h.reachable hm
    (h.waiting id hnot) (fun d hd => h.closed (hdeps d hd)) hfree hnew
    (by rw [Shared.registry, h.store]; exact hprocess) (failure_of_get? hok hjob)
  have hother : ∀ x, x ∉ r.started ++ [id] → x ≠ id ∧ x ∉ r.started := by
    intro x hx
    rw [List.mem_append, List.mem_singleton, not_or] at hx
    exact ⟨hx.2, hx.1⟩
  refine ⟨s', ⟨hreach, hstore, ?_, ?_, ?_, ?_, ?_, ?_, ?_⟩, rfl⟩
  · rw [hstarted, h.started]
  · rw [h.running]
    simp
  · rw [hslots, h.slots]
  · intro x hx
    rw [hphase]
    by_cases hne : x = id
    · rw [hne, Function.update_self]
    · rw [Function.update_of_ne hne]
      exact h.finished x ((List.mem_append.1 hx).resolve_right (by simpa using hne))
  · intro x hx
    rw [hphase, Function.update_of_ne (hother x hx).1]
    exact h.waiting x (hother x hx).2
  · intro x hx
    rw [hjobs, Function.update_of_ne (hother x hx).1]
    exact h.new x (hother x hx).2
  · intro x hx
    rw [hjobs, Assoc.get?_set]
    by_cases hne : x = id
    · rw [hne, if_pos rfl, Function.update_self]
    · rw [if_neg (fun e => hne e.symm), Function.update_of_ne hne]
      exact h.jobs x ((List.mem_append.1 hx).resolve_right (by simpa using hne))

theorem not_mem_of_split {pre post : List String} {id : String}
    (hsplit : p.order = pre ++ id :: post) : id ∉ pre := by
  intro hid
  have hnodup : p.order.Nodup := p.graph.nodup_order
  rw [hsplit] at hnodup
  exact (List.nodup_append.1 hnodup).2.2 id hid id List.mem_cons_self rfl

/-- What a module depends on stands before it. -/
theorem dependency_mem_of_split {pre post : List String} {id d : String}
    (hsplit : p.order = pre ++ id :: post) (hd : d ∈ p.graph.dependencies id) : d ∈ pre := by
  have hnot := not_mem_of_split hsplit
  have hlt : p.order.idxOf d < p.order.idxOf id := p.graph.idxOf_dependency_lt hd
  by_contra hnd
  rw [hsplit, List.idxOf_append_of_notMem hnot, List.idxOf_append_of_notMem hnd,
    List.idxOf_cons_self] at hlt
  omega

/-- The tasks can follow the checks of the rest of the modules. -/
theorem Follows.foldlM (hlimit : 1 ≤ p.limit) {l pre : List String} (hsplit : p.order = pre ++ l)
    {r r' : Run} {s : Tasks Shared} (h : p.Follows r s) (hstarted : r.started = pre)
    (hrun : l.foldlM p.checkOne r = .ok r') (hok : r'.failed = false) :
    ∃ s', p.Follows r' s' ∧ r'.started = p.order := by
  induction l generalizing pre r s with
  | nil =>
      cases hrun
      rw [List.append_nil] at hsplit
      exact ⟨s, h, hstarted.trans hsplit.symm⟩
  | cons id l ih =>
      rw [List.foldlM_cons] at hrun
      cases hone : p.checkOne r id with
      | error e =>
          rw [hone] at hrun
          cases hrun
      | ok r₁ =>
          rw [hone] at hrun
          have hrest : l.foldlM p.checkOne r₁ = .ok r' := hrun
          have hok₁ : r₁.failed = false := by
            by_contra hfailed
            rw [foldlM_of_failed (by simpa using hfailed)] at hrest
            cases hrest
            exact hfailed hok
          have hnot : id ∉ r.started := hstarted ▸ not_mem_of_split hsplit
          have hid : id ∈ p.order := by
            rw [hsplit]
            exact List.mem_append_right _ List.mem_cons_self
          obtain ⟨s₁, h₁, hstarted₁⟩ := h.checkOne hlimit hid hnot
            (fun d hd => hstarted ▸ dependency_mem_of_split hsplit hd) hone hok₁
          have hsplit₁ : p.order = (pre ++ [id]) ++ l := by
            rw [hsplit, List.append_assoc, List.singleton_append]
          exact ih hsplit₁ h₁ (by rw [hstarted₁, hstarted]) hrest

/-- **The run is an interleaving.**  A run without failure that checks one module after the other is one
of the interleavings of the tasks, in which all modules finish. -/
theorem run_interleaves {r : Run} (hlimit : 1 ≤ p.limit) (hrun : p.run = .ok r)
    (hok : r.failed = false) :
    ∃ s : Tasks Shared, p.schedule.Reachable s ∧ (∀ id ∈ p.order, s.phase id = .finished) ∧
      s.world.store = r.store ∧ ∀ id ∈ p.order, r.jobs.get? id = some (s.world.jobs id) := by
  obtain ⟨s, h, hstarted⟩ := Follows.foldlM hlimit (List.nil_append _).symm (follows_begin p) rfl hrun hok
  rw [← hstarted]
  exact ⟨s, h.reachable, h.finished, h.store, h.jobs⟩

end Plan

end TreeCheck
