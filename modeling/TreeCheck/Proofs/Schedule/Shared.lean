import TreeCheck.Project.Run
import TreeCheck.Proofs.Check.Yields
import TreeCheck.Proofs.Schedule.Tasks

/-!
# Concurrent checks of a plan

The tasks of a plan check its modules against one registry.  A check asks for the imports of its module
one by one, at any time and in any order, is over when all are answered, and then publishes its table.

* `Shared` — what checks share: the store, the answers that each check got so far, and the jobs;
* `Plan.Acts` — one action of a check; `Plan.schedule` runs the tasks of a plan with these checks;
* `Plan.Settled` — an answer that no later publication changes;
* `Plan.Consistent` — every answer and every outcome that was ever found is the one that would be found
  now, by `Consistent.acts` for one action and `consistent_of_reachable` for runs.
-/

namespace TreeCheck

/-! ### A growing registry -/

namespace Registry

/-- A registry after some of the listed modules were published. -/
structure Grows (ids : List String) (r r' : Registry) : Prop where
  expected : r'.expected = r.expected
  kept : ∀ i t, r.tables.get? i = some t → r'.tables.get? i = some t
  new : ∀ i, r'.isPublished i = true → r.isPublished i = true ∨ i ∈ ids

theorem Grows.refl (ids : List String) (r : Registry) : Grows ids r r :=
  ⟨rfl, fun _ _ h => h, fun _ h => Or.inl h⟩

/-- A table that is published, or is not of the project, stays as it is. -/
theorem Grows.get_eq {ids : List String} {r r' : Registry} (h : Grows ids r r') {i : String}
    (hi : r.isPublished i = true ∨ i ∉ ids) : r'.get i = r.get i := by
  rw [get, get, h.expected]
  cases hget : r.tables.get? i with
  | some t => rw [h.kept i t hget]
  | none =>
      have hnot : ¬ r.isPublished i = true := by simp [isPublished, Assoc.has, hget]
      have hnot' : ¬ r'.isPublished i = true := by
        intro hpub
        rcases h.new i hpub with hold | hmem
        · exact hnot hold
        · exact (hi.resolve_left hnot) hmem
      have hget' : r'.tables.get? i = none := by simpa [isPublished, Assoc.has] using hnot'
      rw [hget']

/-- A publication lets the registry grow. -/
theorem grows_publish {ids : List String} {r r' : Registry} {t : ExportTable}
    (h : r.publish t = .ok r') (ht : t.module ∈ ids) : Grows ids r r' where
  expected := (get?_publish h t.module).2.2
  kept := by
    intro i u hu
    obtain ⟨hnone, hget, -⟩ := get?_publish h i
    by_cases hi : t.module = i
    · rw [← hi, hnone] at hu
      cases hu
    · rw [hget, if_neg hi, hu]
  new := by
    intro i hi
    obtain ⟨-, hget, -⟩ := get?_publish h i
    by_cases hti : t.module = i
    · exact Or.inr (hti ▸ ht)
    · rw [isPublished, Assoc.has, hget, if_neg hti] at hi
      exact Or.inl hi

end Registry

/-! ### Jobs of loaded modules -/

namespace Job

/-- A job is for a loaded module. -/
structure IsFor (j : Job) (m : LoadedModule) (options : Options) : Prop where
  program : j.program = some m.program
  id : j.id = m.id
  options : j.options = options

theorem isFor_ofModule (m : LoadedModule) (options : Options) : (ofModule m options).IsFor m options :=
  ⟨rfl, rfl, rfl⟩

/-- What the job of a loaded module finds out is the outcome of the check of its program. -/
theorem check_eq {j : Job} {m : LoadedModule} {options : Options} (h : j.IsFor m options)
    (hrun : j.isStopped = false) (source : ImportSource) :
    j.check source =
      (m.program.check options (some source)).map fun o => { j with outcome := some o } := by
  have hname : (if j.id = "" then m.program else { m.program with module := j.id }) = m.program := by
    rw [h.id]
    split
    · rfl
    · rfl
  rw [check, h.program]
  simp only [hrun, Bool.false_eq_true, if_false, hname, h.options]
  cases m.program.check options (some source) with
  | error e => rfl
  | ok o => rfl

/-- A check leaves the job or records the outcome of the module's program. -/
theorem eq_of_check {j j' : Job} {m : LoadedModule} {options : Options} {source : ImportSource}
    (h : j.IsFor m options) (hcheck : j.check source = .ok j') :
    j' = j ∨ ∃ o, m.program.check options (some source) = .ok o ∧ j' = { j with outcome := some o } := by
  cases hstop : j.isStopped with
  | true =>
      rw [check, h.program] at hcheck
      simp only [hstop, if_true] at hcheck
      cases hcheck
      exact Or.inl rfl
  | false =>
      rw [check_eq h hstop] at hcheck
      cases ho : m.program.check options (some source) with
      | error e =>
          rw [ho] at hcheck
          cases hcheck
      | ok o =>
          rw [ho] at hcheck
          cases hcheck
          exact Or.inr ⟨o, rfl, rfl⟩

/-- Publication leaves the job as it is up to how it went. -/
theorem publish_frame (j : Job) (r : Registry) :
    (j.publish r).1.outcome = j.outcome ∧ (j.publish r).1.program = j.program ∧
      (j.publish r).1.id = j.id ∧ (j.publish r).1.options = j.options := by
  rw [publish]
  split
  · exact ⟨rfl, rfl, rfl, rfl⟩
  · split
    · exact ⟨rfl, rfl, rfl, rfl⟩
    · split <;> exact ⟨rfl, rfl, rfl, rfl⟩

/-- A publication leaves the registry or adds the exports of the outcome. -/
theorem publish_registry (j : Job) (r : Registry) :
    (j.publish r).2 = r ∨ ∃ o, j.outcome = some o ∧ r.publish o.exports = .ok (j.publish r).2 := by
  rw [publish]
  split
  · exact Or.inl rfl
  · next o ho =>
      split
      · exact Or.inl rfl
      · split
        · exact Or.inl rfl
        · next r' hr => exact Or.inr ⟨o, ho, hr⟩

end Job

/-! ### Checks as actions -/

/-- What the checks of a plan share. -/
structure Shared where
  store : Store
  /-- The answers that each check got so far. -/
  answers : String → Assoc (Except ImportError ExportTable)
  jobs : String → Job

namespace Shared

def registry (w : Shared) : Registry := w.store.registry

/-- The answers of a check, as the source of its imports. -/
def source (w : Shared) (id : String) : ImportSource := fun i =>
  ((w.answers id).get? i).getD (.error (.unknownModule i))

def answer (w : Shared) (id i : String) (a : Except ImportError ExportTable) : Shared :=
  { w with answers := Function.update w.answers id ((w.answers id).set i a) }

def setJob (w : Shared) (id : String) (j : Job) : Shared :=
  { w with jobs := Function.update w.jobs id j }

/-- Publish what the job of a module found out, and put it into the index. -/
def publish (w : Shared) (id : String) : Shared :=
  let (job, registry) := (w.jobs id).publish w.registry
  { w.setJob id job with store := { registry, index := w.store.index.map job.index } }

end Shared

namespace Plan

variable (p : Plan)

/-- The job of a module before its check. -/
def newJob (id : String) : Job :=
  match p.project.find? id with
  | some m => .ofModule m p.options
  | none => { path := "" }

def share : Shared where
  store := p.begin.store
  answers := fun _ => []
  jobs := p.newJob

def Answered (m : LoadedModule) (w : Shared) : Prop := ∀ i ∈ m.imports, (w.answers m.id).has i = true

/-- One action of the check of a module. -/
inductive Acts (id : String) (w : Shared) : Shared → Prop
  /-- It asks for an import, for the first time or again. -/
  | ask {m : LoadedModule} {i : String} :
      p.project.find? id = some m → i ∈ m.imports →
      Acts id w (w.answer id i (w.registry.source p.graph id i))
  /-- With all imports answered, it finds the outcome. -/
  | check {m : LoadedModule} {job : Job} :
      p.project.find? id = some m → Answered m w → (w.jobs id).outcome = none →
      (w.jobs id).check (w.source id) = .ok job → Acts id w (w.setJob id job)
  /-- It publishes what it found out. -/
  | publish {m : LoadedModule} {o : Outcome} :
      p.project.find? id = some m → (w.jobs id).outcome = some o → (w.jobs id).published = false →
      Acts id w (w.publish id)
  /-- It is cancelled. -/
  | cancel : Acts id w (w.setJob id { w.jobs id with cancelled := true })

/-- How the check of a module may return.  It fails when the job was stopped, when there is no module
to check, or when the outcome cannot be had. -/
def Returns (id : String) (w : Shared) : Bool → Prop
  | true => (w.jobs id).published = true ∧ (w.jobs id).isStopped = false
  | false => (w.jobs id).isStopped = true ∨ p.project.find? id = none ∨
      ∃ m e, p.project.find? id = some m ∧ Answered m w ∧ (w.jobs id).check (w.source id) = .error e

variable {p}

/-- An action publishes the exports of the outcome of its job, or nothing. -/
theorem Acts.registry {id : String} {w w' : Shared} (h : p.Acts id w w') :
    w'.registry = w.registry ∨ ∃ m o, p.project.find? id = some m ∧ (w.jobs id).outcome = some o ∧
      w.registry.publish o.exports = .ok w'.registry := by
  cases h with
  | ask _ _ => exact Or.inl rfl
  | check _ _ _ _ => exact Or.inl rfl
  | cancel => exact Or.inl rfl
  | publish hm _ _ =>
      rcases (w.jobs id).publish_registry w.registry with hsame | ⟨o, ho, hpub⟩
      · exact Or.inl hsame
      · exact Or.inr ⟨_, o, hm, ho, hpub⟩

/-- What is published stays published under every action. -/
theorem Acts.isPublished {id d : String} {w w' : Shared} (h : p.Acts id w w')
    (hd : w.registry.isPublished d = true) : w'.registry.isPublished d = true := by
  rcases h.registry with hsame | ⟨_, o, _, _, hpub⟩
  · rw [hsame]
    exact hd
  · exact Registry.isPublished_of_publish hpub hd

/-- A task can always act or return. -/
theorem acts_or_returns (id : String) (w : Shared) :
    (∃ w', p.Acts id w w') ∨ ∃ ok, p.Returns id w ok := by
  cases hm : p.project.find? id with
  | none => exact Or.inr ⟨false, Or.inr (Or.inl hm)⟩
  | some m =>
      by_cases hstop : (w.jobs id).isStopped = true
      · exact Or.inr ⟨false, Or.inl hstop⟩
      · cases ho : (w.jobs id).outcome with
        | some o =>
            cases hpub : (w.jobs id).published with
            | true => exact Or.inr ⟨true, hpub, by simpa using hstop⟩
            | false => exact Or.inl ⟨_, .publish hm ho hpub⟩
        | none =>
            by_cases hall : Answered m w
            · cases hcheck : (w.jobs id).check (w.source id) with
              | ok job => exact Or.inl ⟨_, .check hm hall ho hcheck⟩
              | error e => exact Or.inr ⟨false, Or.inr (Or.inr ⟨m, e, hm, hall, hcheck⟩)⟩
            · have hask : ∃ i ∈ m.imports, ¬ (w.answers m.id).has i = true := by
                simpa [Answered] using hall
              obtain ⟨i, hi, _⟩ := hask
              exact Or.inl ⟨_, .ask hm hi⟩

variable (p)

def checks : Checks where
  World := Shared
  registry := Shared.registry
  act := p.Acts
  returns := p.Returns
  keeps := fun _ _ _ h _ hd => h.isPublished hd
  awake := acts_or_returns

def schedule : Schedule where
  graph := p.graph
  limit := p.limit
  checks := p.checks
  world := p.share

end Plan

/-! ### The graph of a project -/

namespace Project

theorem find?_of_mem {p : Project} {m : LoadedModule} (h : m ∈ p.modules) : p.find? m.id = some m := by
  cases hfind : p.find? m.id with
  | none => exact absurd (List.mem_map_of_mem h) (not_mem_of_find?_eq_none hfind)
  | some k =>
      obtain ⟨hk, hid⟩ := id_of_find? hfind
      rw [List.inj_on_of_nodup_map p.nodup hk h hid]

theorem graph_eq (p : Project) :
    p.graph = ModuleGraph.ofCalls (p.modules.map fun m => (m.id, m.imports)) := by
  rw [graph, ModuleGraph.ofCalls, List.foldl_map]

theorem has_graph (p : Project) (id : String) :
    p.graph.has id = true ↔ ∃ m, p.find? id = some m := by
  rw [graph_eq, ModuleGraph.has_ofCalls, List.map_map, List.mem_map]
  constructor
  · rintro ⟨m, hm, rfl⟩
    exact ⟨m, find?_of_mem hm⟩
  · rintro ⟨m, hm⟩
    obtain ⟨hmem, rfl⟩ := id_of_find? hm
    exact ⟨m, hmem, rfl⟩

/-- The imports of a loaded module are edges of the graph. -/
theorem mem_importsOf_graph {p : Project} {id i : String} {m : LoadedModule}
    (hm : p.find? id = some m) (hi : i ∈ m.imports) : i ∈ p.graph.importsOf id := by
  obtain ⟨hmem, rfl⟩ := id_of_find? hm
  rw [graph_eq, ModuleGraph.mem_importsOf_ofCalls]
  exact ⟨(m.id, m.imports), List.mem_map_of_mem hmem, rfl, hi⟩

end Project

namespace Plan

variable {p : Plan}

theorem mem_order (p : Plan) (id : String) : id ∈ p.order ↔ ∃ m, p.project.find? id = some m :=
  (ModuleGraph.mem_order _ id).trans (p.project.has_graph id)

/-- A run starts with the modules without source published. -/
theorem isPublished_begin (p : Plan) (id : String) :
    p.begin.store.registry.isPublished id = isBuiltinModule id := by
  have hkeys : p.begin.store.registry.tables.keys = builtinModules.keys := rfl
  rw [Bool.eq_iff_iff, Registry.isPublished, isBuiltinModule, Assoc.has_iff_mem_keys,
    Assoc.has_iff_mem_keys, hkeys]

theorem expected_begin (p : Plan) : p.begin.store.registry.expected = p.order := rfl

theorem not_isPublished_begin {id : String} {m : LoadedModule} (hm : p.project.find? id = some m) :
    p.begin.store.registry.isPublished id = false := by
  obtain ⟨hmem, rfl⟩ := Project.id_of_find? hm
  rw [isPublished_begin]
  exact p.project.notBuiltin m hmem

/-! ### What an action changes -/

/-- An action of one task leaves the jobs of the others. -/
theorem Acts.job_of_ne {id x : String} {w w' : Shared} (h : p.Acts id w w') (hx : x ≠ id) :
    w'.jobs x = w.jobs x := by
  cases h with
  | ask _ _ => rfl
  | check _ _ _ _ | publish _ _ _ | cancel => exact Function.update_of_ne hx _ _

/-- The job of an action stays the job of its module.  Its outcome stays, or is found from the answers
that the check got. -/
theorem Acts.job {id : String} {m : LoadedModule} {w w' : Shared} (h : p.Acts id w w')
    (hm : p.project.find? id = some m) (hj : (w.jobs id).IsFor m p.options) :
    (w'.jobs id).IsFor m p.options ∧
      ((w'.jobs id).outcome = (w.jobs id).outcome ∨
        w'.registry = w.registry ∧ Answered m w ∧ (w.jobs id).outcome = none ∧
          ∃ o, m.program.check p.options (some (w.source id)) = .ok o ∧
            (w'.jobs id).outcome = some o) := by
  cases h with
  | ask _ _ => exact ⟨hj, Or.inl rfl⟩
  | @check k job hk hall hnone hcheck =>
      rw [hk] at hm
      cases hm
      show (Function.update w.jobs id job id).IsFor m p.options ∧
        ((Function.update w.jobs id job id).outcome = _ ∨ w.registry = w.registry ∧ Answered m w ∧ _ ∧
          ∃ o, _ ∧ (Function.update w.jobs id job id).outcome = _)
      rw [Function.update_self]
      rcases Job.eq_of_check hj hcheck with rfl | ⟨o, ho, rfl⟩
      · exact ⟨hj, Or.inl rfl⟩
      · exact ⟨⟨hj.program, hj.id, hj.options⟩, Or.inr ⟨rfl, hall, hnone, o, ho, rfl⟩⟩
  | publish _ _ _ =>
      obtain ⟨houtcome, hprogram, hid, hoptions⟩ := (w.jobs id).publish_frame w.registry
      have hself : (w.publish id).jobs id = ((w.jobs id).publish w.registry).1 :=
        Function.update_self ..
      rw [hself]
      exact ⟨⟨hprogram.trans hj.program, hid.trans hj.id, hoptions.trans hj.options⟩,
        Or.inl houtcome⟩
  | cancel =>
      have hself : (w.setJob id { w.jobs id with cancelled := true }).jobs id =
          { w.jobs id with cancelled := true } := Function.update_self ..
      rw [hself]
      exact ⟨⟨hj.program, hj.id, hj.options⟩, Or.inl rfl⟩

/-- An answer that an action records is the one that the registry gives. -/
theorem Acts.answer {id x i : String} {a : Except ImportError ExportTable} {w w' : Shared}
    (h : p.Acts id w w') (ha : (w'.answers x).get? i = some a) :
    (w.answers x).get? i = some a ∨
      x = id ∧ w'.registry = w.registry ∧ a = w.registry.source p.graph id i ∧
        ∃ m, p.project.find? id = some m ∧ i ∈ m.imports := by
  cases h with
  | check _ _ _ _ | publish _ _ _ | cancel => exact Or.inl ha
  | @ask m k hm hk =>
      have hanswers : (w.answer id k (w.registry.source p.graph id k)).answers x =
          Function.update w.answers id ((w.answers id).set k (w.registry.source p.graph id k)) x := rfl
      rw [hanswers] at ha
      by_cases hx : x = id
      · subst hx
        rw [Function.update_self, Assoc.get?_set] at ha
        split at ha
        · next hki =>
            subst hki
            cases ha
            exact Or.inr ⟨rfl, rfl, rfl, m, hm, hk⟩
        · exact Or.inl ha
      · rw [Function.update_of_ne hx] at ha
        exact Or.inl ha

/-! ### Consistency -/

variable (p)

/-- The answer to an import does not depend on what is published from now on. -/
def Settled (w : Shared) (id i : String) : Prop :=
  p.graph.onCycle id i = true ∨ w.registry.isPublished i = true ∨ i ∉ p.order

/-- **Consistency.**  Tables are those from the start and those of outcomes, and every answer and every
outcome that was ever found is the one that would be found now. -/
structure Consistent (w : Shared) : Prop where
  expected : w.registry.expected = p.order
  jobs : ∀ id m, p.project.find? id = some m → (w.jobs id).IsFor m p.options
  kept : ∀ id t, p.begin.store.registry.tables.get? id = some t → w.registry.tables.get? id = some t
  tables : ∀ id t, w.registry.tables.get? id = some t →
    p.begin.store.registry.tables.get? id = some t ∨
      ∃ m o, p.project.find? id = some m ∧ (w.jobs id).outcome = some o ∧ t = o.exports
  answers : ∀ id i a, (w.answers id).get? i = some a →
    p.Settled w id i ∧ a = w.registry.source p.graph id i
  outcomes : ∀ id m o, p.project.find? id = some m → (w.jobs id).outcome = some o →
    (∀ i ∈ m.imports, p.Settled w id i) ∧
      m.program.check p.options (some (w.registry.source p.graph id)) = .ok o

variable {p}

/-- A settled import reads the same as the registry grows. -/
theorem Settled.source_eq {w w' : Shared} {id i : String} (h : p.Settled w id i)
    (hgrows : Registry.Grows p.order w.registry w'.registry) :
    w'.registry.source p.graph id i = w.registry.source p.graph id i := by
  rw [Registry.source, Registry.source]
  split
  · rfl
  · next hcycle => exact hgrows.get_eq (h.resolve_left hcycle)

/-- A settled import stays settled as the registry grows. -/
theorem Settled.mono {w w' : Shared} {id i : String} (h : p.Settled w id i)
    (hgrows : Registry.Grows p.order w.registry w'.registry) : p.Settled w' id i := by
  rcases h with hcycle | hpub | hout
  · exact Or.inl hcycle
  · obtain ⟨t, ht⟩ := (Registry.isPublished_iff _ i).1 hpub
    exact Or.inr (Or.inl ((Registry.isPublished_iff _ i).2 ⟨t, hgrows.kept i t ht⟩))
  · exact Or.inr (Or.inr hout)

/-- When all that a module depends on is published, the answers to its imports are settled. -/
theorem settled_of_ready {w : Shared} {id i : String} {m : LoadedModule}
    (hm : p.project.find? id = some m) (hi : i ∈ m.imports)
    (hready : ∀ d ∈ p.graph.dependencies id, w.registry.isPublished d = true) : p.Settled w id i := by
  by_cases hcycle : p.graph.onCycle id i = true
  · exact Or.inl hcycle
  · by_cases hin : i ∈ p.order
    · have hdep : i ∈ p.graph.dependencies id :=
        p.graph.mem_dependencies_of_import (Project.mem_importsOf_graph hm hi)
          ((ModuleGraph.mem_order _ i).1 hin) (by simpa using hcycle)
      exact Or.inr (Or.inl (hready i hdep))
    · exact Or.inr (Or.inr hin)

theorem consistent_share (p : Plan) : p.Consistent p.share where
  expected := p.expected_begin
  jobs := by
    intro id m hm
    have hnew : p.share.jobs id = .ofModule m p.options := by
      show p.newJob id = _
      rw [newJob, hm]
    rw [hnew]
    exact Job.isFor_ofModule m p.options
  kept := fun _ _ h => h
  tables := fun _ _ h => Or.inl h
  answers := fun _ _ _ h => by cases h
  outcomes := by
    intro id m o hm ho
    have hnone : (p.share.jobs id).outcome = none := by
      show (p.newJob id).outcome = none
      rw [newJob, hm]
      rfl
    rw [hnone] at ho
    cases ho

/-- The exports of an outcome go under the name of its module. -/
theorem Consistent.exports_module {w : Shared} (h : p.Consistent w) {id : String} {m : LoadedModule}
    {o : Outcome} (hm : p.project.find? id = some m) (ho : (w.jobs id).outcome = some o) :
    o.exports.module = id :=
  (Program.exports_module (h.outcomes id m o hm ho).2).trans (Project.id_of_find? hm).2

/-- In a consistent state every action lets the registry grow. -/
theorem Consistent.grows {id : String} {w w' : Shared} (h : p.Consistent w) (hact : p.Acts id w w') :
    Registry.Grows p.order w.registry w'.registry := by
  rcases hact.registry with hsame | ⟨m, o, hm, ho, hpub⟩
  · rw [hsame]
    exact Registry.Grows.refl ..
  · refine Registry.grows_publish hpub ?_
    rw [h.exports_module hm ho]
    exact (p.mem_order id).2 ⟨m, hm⟩

/-- The answers that a check got are those that the registry gives. -/
theorem Consistent.source_eq {w : Shared} (h : p.Consistent w) {id i : String} {m : LoadedModule}
    (hm : p.project.find? id = some m) (hall : Answered m w) (hi : i ∈ m.imports) :
    w.source id i = w.registry.source p.graph id i ∧ p.Settled w id i := by
  have hhas := hall i hi
  rw [(Project.id_of_find? hm).2, Assoc.has, Option.isSome_iff_exists] at hhas
  obtain ⟨a, ha⟩ := hhas
  obtain ⟨hsettled, heq⟩ := h.answers id i a ha
  refine ⟨?_, hsettled⟩
  rw [Shared.source, ha, Option.getD_some, heq]

/-- The outcome of a job after an action: it was there before, or the answers gave it. -/
theorem Consistent.outcome_cases {id x : String} {m : LoadedModule} {o : Outcome} {w w' : Shared}
    (h : p.Consistent w) (hact : p.Acts id w w') (hm : p.project.find? x = some m)
    (ho : (w'.jobs x).outcome = some o) :
    (w.jobs x).outcome = some o ∨
      Answered m w ∧ m.program.check p.options (some (w.source x)) = .ok o := by
  by_cases hx : x = id
  · subst hx
    rcases (hact.job hm (h.jobs x m hm)).2 with hsame | ⟨-, hall, -, o', hcheck, ho'⟩
    · exact Or.inl (hsame ▸ ho)
    · rw [ho'] at ho
      cases ho
      exact Or.inr ⟨hall, hcheck⟩
  · rw [hact.job_of_ne hx] at ho
    exact Or.inl ho

/-- In a consistent state an outcome is final. -/
theorem Consistent.outcome_kept {id x : String} {m : LoadedModule} {o : Outcome} {w w' : Shared}
    (h : p.Consistent w) (hact : p.Acts id w w') (hm : p.project.find? x = some m)
    (ho : (w.jobs x).outcome = some o) : (w'.jobs x).outcome = some o := by
  by_cases hx : x = id
  · subst hx
    rcases (hact.job hm (h.jobs x m hm)).2 with hsame | ⟨-, -, hnone, -⟩
    · exact hsame.trans ho
    · rw [hnone] at ho
      cases ho
  · rw [hact.job_of_ne hx]
    exact ho

/-- A table that an action publishes is that of an outcome. -/
theorem Consistent.tables_acts {id x : String} {t : ExportTable} {w w' : Shared} (h : p.Consistent w)
    (hact : p.Acts id w w') (ht : w'.registry.tables.get? x = some t) :
    p.begin.store.registry.tables.get? x = some t ∨
      ∃ m o, p.project.find? x = some m ∧ (w'.jobs x).outcome = some o ∧ t = o.exports := by
  have hold : w.registry.tables.get? x = some t → p.begin.store.registry.tables.get? x = some t ∨
      ∃ m o, p.project.find? x = some m ∧ (w'.jobs x).outcome = some o ∧ t = o.exports := by
    intro hw
    rcases h.tables x t hw with hbegin | ⟨m, o, hm, ho, hto⟩
    · exact Or.inl hbegin
    · exact Or.inr ⟨m, o, hm, h.outcome_kept hact hm ho, hto⟩
  rcases hact.registry with hsame | ⟨m, o, hm, ho, hpub⟩
  · exact hold (hsame ▸ ht)
  · obtain ⟨-, hget, -⟩ := Registry.get?_publish hpub x
    rw [hget, h.exports_module hm ho] at ht
    split at ht
    · next hx =>
        subst hx
        cases ht
        exact Or.inr ⟨m, o, hm, h.outcome_kept hact hm ho, rfl⟩
    · exact hold ht

/-- An outcome comes from settled answers, so that it would be found again after an action. -/
theorem Consistent.outcomes_acts {id x : String} {m : LoadedModule} {o : Outcome} {w w' : Shared}
    (h : p.Consistent w) (hact : p.Acts id w w') (hm : p.project.find? x = some m)
    (ho : (w'.jobs x).outcome = some o) :
    (∀ i ∈ m.imports, p.Settled w' x i) ∧
      m.program.check p.options (some (w'.registry.source p.graph x)) = .ok o := by
  have hgrows := h.grows hact
  have hfound : ∃ source : ImportSource, m.program.check p.options (some source) = .ok o ∧
      ∀ i ∈ m.imports, p.Settled w x i ∧ source i = w.registry.source p.graph x i := by
    rcases h.outcome_cases hact hm ho with hold | ⟨hall, hcheck⟩
    · obtain ⟨hsettled, hcheck⟩ := h.outcomes x m o hm hold
      exact ⟨_, hcheck, fun i hi => ⟨hsettled i hi, rfl⟩⟩
    · refine ⟨_, hcheck, fun i hi => ?_⟩
      obtain ⟨heq, hsettled⟩ := h.source_eq hm hall hi
      exact ⟨hsettled, heq⟩
  obtain ⟨source, hcheck, hsource⟩ := hfound
  refine ⟨fun i hi => (hsource i hi).1.mono hgrows, ?_⟩
  rw [← hcheck]
  refine Program.check_congr p.options fun i hi => ?_
  obtain ⟨hsettled, heq⟩ := hsource i hi
  rw [hsettled.source_eq hgrows, heq]

/-- **Actions keep consistency**, if what the module of the action depends on is published. -/
theorem Consistent.acts {id : String} {w w' : Shared} (h : p.Consistent w)
    (hready : ∀ d ∈ p.graph.dependencies id, w.registry.isPublished d = true)
    (hact : p.Acts id w w') : p.Consistent w' where
  expected := (h.grows hact).expected.trans h.expected
  jobs := by
    intro x m hm
    by_cases hx : x = id
    · subst hx
      exact (hact.job hm (h.jobs x m hm)).1
    · rw [hact.job_of_ne hx]
      exact h.jobs x m hm
  kept := fun x t ht => (h.grows hact).kept x t (h.kept x t ht)
  tables := fun _ _ ht => h.tables_acts hact ht
  answers := by
    intro x i a ha
    have hgrows := h.grows hact
    rcases hact.answer ha with hold | ⟨rfl, hsame, rfl, m, hm, hi⟩
    · obtain ⟨hsettled, heq⟩ := h.answers x i a hold
      exact ⟨hsettled.mono hgrows, heq.trans (hsettled.source_eq hgrows).symm⟩
    · refine ⟨(settled_of_ready hm hi hready).mono hgrows, ?_⟩
      rw [hsame]
  outcomes := fun _ _ _ hm ho => h.outcomes_acts hact hm ho

/-- **Every reachable state is consistent.** -/
theorem consistent_of_reachable {s : Tasks Shared} (h : p.schedule.Reachable s) :
    p.Consistent s.world :=
  h.world (P := p.Consistent) (consistent_share p) fun _ _ _ _ hw hready hact => hw.acts hready hact

end Plan

end TreeCheck
