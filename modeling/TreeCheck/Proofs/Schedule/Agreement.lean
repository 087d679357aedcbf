import TreeCheck.Proofs.Schedule.Sequential

/-!
# All interleavings agree

Two runs over the same modules that both finish come to the same outcomes, whatever their limits and
whatever the order of their steps.

* `Consistent.exists_outcome` — a published module has an outcome, and its table is that of the outcome;
* `source_eq_of_agree` — a module gets the same answers in two runs in which the modules that it depends
  on have the same tables;
* `Consistent.agree_of_closed`, `Consistent.agree` — so modules that are published in both, with all that
  they depend on, have the same outcomes and the same tables, by induction along the order of the graph;
* `Consistent.check_eq` — and a module that is not checked yet is checked with the same result;
* `interleavings_agree`, `run_agrees` — this holds of any two interleavings, and of any interleaving and
  the run that checks one module after the other.
-/

namespace TreeCheck.Plan

variable {p q : Plan}

/-- A consistent registry comes from the one at the start by publications of modules of the plan. -/
theorem Consistent.grows_begin {w : Shared} (h : p.Consistent w) :
    Registry.Grows p.order p.begin.store.registry w.registry where
  expected := h.expected.trans p.expected_begin.symm
  kept := h.kept
  new := by
    intro i hi
    obtain ⟨t, ht⟩ := (Registry.isPublished_iff _ i).1 hi
    rcases h.tables i t ht with hbegin | ⟨m, o, hm, -, -⟩
    · exact Or.inl ((Registry.isPublished_iff _ i).2 ⟨t, hbegin⟩)
    · exact Or.inr ((p.mem_order i).2 ⟨m, hm⟩)

/-- A published module has an outcome, and its table is that of the outcome. -/
theorem Consistent.exists_outcome {w : Shared} (h : p.Consistent w) {id : String} {m : LoadedModule}
    (hm : p.project.find? id = some m) (hpub : w.registry.isPublished id = true) :
    ∃ o, (w.jobs id).outcome = some o ∧ w.registry.get id = .ok o.exports := by
  obtain ⟨t, ht⟩ := (Registry.isPublished_iff _ id).1 hpub
  rcases h.tables id t ht with hbegin | ⟨_, o, -, ho, rfl⟩
  · have hnot := not_isPublished_begin hm
    rw [(Registry.isPublished_iff _ id).2 ⟨t, hbegin⟩] at hnot
    cases hnot
  · refine ⟨o, ho, ?_⟩
    rw [Registry.get, ht]

/-- A module gets the same answers in two runs if the modules that it depends on have the same tables. -/
theorem source_eq_of_agree {w w' : Shared} (hw : p.Consistent w) (hw' : q.Consistent w')
    (hproject : q.project = p.project) {id i : String} {m : LoadedModule}
    (hm : p.project.find? id = some m) (hi : i ∈ m.imports)
    (hagree : ∀ d ∈ p.graph.dependencies id, w'.registry.get d = w.registry.get d) :
    w'.registry.source q.graph id i = w.registry.source p.graph id i := by
  have hgraph : q.graph = p.graph := by rw [graph, graph, hproject]
  have horder : q.order = p.order := by rw [order, order, hgraph]
  rw [Registry.source, Registry.source, hgraph]
  split
  · rfl
  · next hcycle =>
      by_cases hin : i ∈ p.order
      · refine hagree i (p.graph.mem_dependencies_of_import (Project.mem_importsOf_graph hm hi)
          ((ModuleGraph.mem_order _ i).1 hin) (by simpa using hcycle))
      · have hbegin : q.begin.store.registry = p.begin.store.registry := by
          show Registry.expect _ q.order = Registry.expect _ p.order
          rw [horder]
        rw [hw'.grows_begin.get_eq (Or.inr (horder ▸ hin)), hw.grows_begin.get_eq (Or.inr hin), hbegin]

/-- Two consistent worlds have the same outcomes and tables for modules that are published in both, with
all that they depend on. -/
theorem Consistent.agree_of_closed {w w' : Shared} (hw : p.Consistent w) (hw' : q.Consistent w')
    (hproject : q.project = p.project) (hoptions : q.options = p.options) {S : String → Prop}
    (hclosed : ∀ id, S id → ∀ d ∈ p.graph.dependencies id, S d)
    (hpub : ∀ id, S id → w.registry.isPublished id = true)
    (hpub' : ∀ id, S id → w'.registry.isPublished id = true)
    (m : LoadedModule) (hm : m ∈ p.project.modules) (hS : S m.id) :
    ∃ o, (w.jobs m.id).outcome = some o ∧ (w'.jobs m.id).outcome = some o ∧
      w.registry.get m.id = .ok o.exports ∧ w'.registry.get m.id = .ok o.exports := by
  -- The induction is on the place of the module: what it depends on stands earlier.
  induction hn : p.order.idxOf m.id using Nat.strong_induction_on generalizing m with
  | _ n ih =>
  have hfind := Project.find?_of_mem hm
  have hfind' : q.project.find? m.id = some m := hproject ▸ hfind
  obtain ⟨o, ho, hget⟩ := hw.exists_outcome hfind (hpub _ hS)
  obtain ⟨o', ho', hget'⟩ := hw'.exists_outcome hfind' (hpub' _ hS)
  have hagree : ∀ d ∈ p.graph.dependencies m.id, w'.registry.get d = w.registry.get d := by
    intro d hd
    obtain ⟨k, hk⟩ := (p.mem_order d).1 (p.graph.dependency_mem_order hd)
    obtain ⟨hkmem, rfl⟩ := Project.id_of_find? hk
    have hlt : p.order.idxOf k.id < n := hn ▸ p.graph.idxOf_dependency_lt hd
    obtain ⟨_, _, _, hk, hk'⟩ := ih _ hlt k hkmem (hclosed _ hS _ hd) rfl
    rw [hk, hk']
  have hcheck := (hw.outcomes m.id m o hfind ho).2
  have hcheck' := (hw'.outcomes m.id m o' hfind' ho').2
  have hsame : o' = o := by
    have hcongr := Program.check_congr (p := m.program) p.options fun i hi =>
      source_eq_of_agree hw hw' hproject hfind hi hagree
    rw [hoptions, hcongr, hcheck] at hcheck'
    cases hcheck'
    rfl
  subst hsame
  exact ⟨o', ho, ho', hget, hget'⟩

/-- A check comes to the same in two consistent worlds in which all that its module depends on is
published, with all that this depends on. -/
theorem Consistent.check_eq {w w' : Shared} (hw : p.Consistent w) (hw' : p.Consistent w')
    {S : String → Prop} (hclosed : ∀ id, S id → ∀ d ∈ p.graph.dependencies id, S d)
    (hpub : ∀ id, S id → w.registry.isPublished id = true)
    (hpub' : ∀ id, S id → w'.registry.isPublished id = true)
    {id : String} {m : LoadedModule} (hm : p.project.find? id = some m)
    (hdeps : ∀ d ∈ p.graph.dependencies id, S d) :
    m.program.check p.options (some (w'.registry.source p.graph id)) =
      m.program.check p.options (some (w.registry.source p.graph id)) := by
  refine Program.check_congr p.options fun i hi => source_eq_of_agree hw hw' rfl hm hi fun d hd => ?_
  obtain ⟨k, hk⟩ := (p.mem_order d).1 (p.graph.dependency_mem_order hd)
  obtain ⟨hkmem, rfl⟩ := Project.id_of_find? hk
  obtain ⟨_, _, _, hget, hget'⟩ := hw.agree_of_closed hw' rfl rfl hclosed hpub hpub' k hkmem (hdeps _ hd)
  rw [hget, hget']

/-- Two consistent worlds in which all modules are published have the same outcomes and tables. -/
theorem Consistent.agree {w w' : Shared} (hw : p.Consistent w) (hw' : q.Consistent w')
    (hproject : q.project = p.project) (hoptions : q.options = p.options)
    (hpub : ∀ id ∈ p.order, w.registry.isPublished id = true)
    (hpub' : ∀ id ∈ q.order, w'.registry.isPublished id = true)
    (m : LoadedModule) (hm : m ∈ p.project.modules) :
    ∃ o, (w.jobs m.id).outcome = some o ∧ (w'.jobs m.id).outcome = some o ∧
      w.registry.get m.id = .ok o.exports ∧ w'.registry.get m.id = .ok o.exports := by
  have horder : q.order = p.order := by rw [order, order, graph, graph, hproject]
  exact hw.agree_of_closed hw' hproject hoptions (S := fun id => id ∈ p.order)
    (fun _ _ _ hd => p.graph.dependency_mem_order hd) hpub (horder ▸ hpub') m hm
    ((p.mem_order m.id).2 ⟨m, Project.find?_of_mem hm⟩)

/-- A finished module is published. -/
theorem isPublished_of_finished {s : Tasks Shared} (h : p.schedule.Reachable s) {id : String}
    (hfin : s.phase id = .finished) : s.world.registry.isPublished id = true := by
  have hbehind := h.inv.tasks id
  rw [hfin] at hbehind
  exact h.inv.published id hbehind.2

/-- **All interleavings agree.**  In any two runs over the same modules with the same options that both
finish, with any limits and any order of steps, every module has the same outcome, its diagnostics
among it, and the same published table. -/
theorem interleavings_agree (hproject : q.project = p.project) (hoptions : q.options = p.options)
    {s t : Tasks Shared} (hs : p.schedule.Reachable s) (ht : q.schedule.Reachable t)
    (hsfin : ∀ id ∈ p.order, s.phase id = .finished) (htfin : ∀ id ∈ q.order, t.phase id = .finished)
    (m : LoadedModule) (hm : m ∈ p.project.modules) :
    ∃ o, (s.world.jobs m.id).outcome = some o ∧ (t.world.jobs m.id).outcome = some o ∧
      s.world.registry.get m.id = .ok o.exports ∧ t.world.registry.get m.id = .ok o.exports :=
  (consistent_of_reachable hs).agree (consistent_of_reachable ht) hproject hoptions
    (fun id hid => isPublished_of_finished hs (hsfin id hid))
    (fun id hid => isPublished_of_finished ht (htfin id hid)) m hm

/-- A run that ends without failure, found by evaluation. -/
theorem exists_run_of_map (h : p.run.toOption.map (·.failed) = some false) :
    ∃ r, p.run = .ok r ∧ r.failed = false := by
  cases hrun : p.run with
  | error e =>
      rw [hrun] at h
      cases h
  | ok r =>
      rw [hrun] at h
      exact ⟨r, rfl, by simpa [Except.toOption] using h⟩

/-- A module that imports itself and one that is not there, and a module that imports the first. -/
def selfImport : Project where
  modules := [
    ⟨"a.yaml", { module := "a", stmts := [⟨{}, .importing { module := "a" }⟩,
      ⟨{}, .importing { module := "nowhere" }⟩] }⟩,
    ⟨"b.yaml", { module := "b", stmts := [⟨{}, .importing { module := "a" }⟩] }⟩]
  nodup := by decide
  notBuiltin := by decide

/-- Two runs over these modules, with one slot and with two slots and an index. -/
theorem interleavings_agree_selfImport :
    ∃ s t : Tasks Shared, ({ project := selfImport } : Plan).schedule.Reachable s ∧
      ({ project := selfImport, limit := 2, indexed := true } : Plan).schedule.Reachable t ∧
      ∀ m ∈ selfImport.modules, ∃ o, (s.world.jobs m.id).outcome = some o ∧
        (t.world.jobs m.id).outcome = some o ∧ s.world.registry.get m.id = .ok o.exports ∧
        t.world.registry.get m.id = .ok o.exports := by
  have hone : (({ project := selfImport } : Plan).run.toOption.map (·.failed)) = some false := by cbv
  have htwo : (({ project := selfImport, limit := 2, indexed := true } : Plan).run.toOption.map
      (·.failed)) = some false := by cbv
  obtain ⟨r, hr, hrok⟩ := exists_run_of_map hone
  obtain ⟨u, hu, huok⟩ := exists_run_of_map htwo
  obtain ⟨s, hs, hsfin, -⟩ := run_interleaves (by decide) hr hrok
  obtain ⟨t, ht, htfin, -⟩ := run_interleaves (by decide) hu huok
  have hagree := interleavings_agree (p := { project := selfImport })
    (q := { project := selfImport, limit := 2, indexed := true }) rfl rfl hs ht hsfin htfin
  exact ⟨s, t, hs, ht, hagree⟩

/-- **The run finds what every interleaving finds.**  When the run that checks one module after the other
does not fail, every interleaving that finishes comes to its outcomes and its tables. -/
theorem run_agrees {r : Run} (hlimit : 1 ≤ p.limit) (hrun : p.run = .ok r) (hok : r.failed = false)
    (hproject : q.project = p.project) (hoptions : q.options = p.options) {t : Tasks Shared}
    (ht : q.schedule.Reachable t) (htfin : ∀ id ∈ q.order, t.phase id = .finished)
    (m : LoadedModule) (hm : m ∈ p.project.modules) :
    ∃ job o, r.jobs.get? m.id = some job ∧ job.outcome = some o ∧
      (t.world.jobs m.id).outcome = some o ∧
      r.store.registry.get m.id = .ok o.exports ∧ t.world.registry.get m.id = .ok o.exports := by
  obtain ⟨s, hs, hsfin, hstore, hjobs⟩ := run_interleaves hlimit hrun hok
  obtain ⟨o, ho, ho', hget, hget'⟩ := (consistent_of_reachable hs).agree (consistent_of_reachable ht)
    hproject hoptions (fun id hid => isPublished_of_finished hs (hsfin id hid))
    (fun id hid => isPublished_of_finished ht (htfin id hid)) m hm
  have hid : m.id ∈ p.order := (p.mem_order m.id).2 ⟨m, Project.find?_of_mem hm⟩
  rw [Shared.registry, hstore] at hget
  exact ⟨_, o, hjobs m.id hid, ho, ho', hget, hget'⟩

end TreeCheck.Plan
