import Mathlib
import TreeCheck.Module.Registry
import TreeCheck.Proofs.Graph.Order

/-!
# Concurrent tasks

Every module of a run has a task of its own.  A task waits for the modules that its module depends on,
one after the other, takes one of a limited number of slots, checks the module, gives the slot back,
and announces the end of the module if its exports were published.  Tasks take steps in any order.  A
failure cancels the run, and so may anyone from outside; a task that still waits may then give up, but
it may also go on.

* `Checks` — how checks behave, left open: they may do anything to what they share that leaves published
  modules published;
* `Schedule` — a graph, a limit and the behaviour of checks; `Schedule.Step` is one step of one task,
  and `Schedule.Reachable` holds of the states that any order of steps leads to;
* `Schedule.Inv` — what holds in all of them, by `Inv.step` for one step and `Reachable.inv` for runs;
* `Schedule.Inv.exists_ready` — no task waits forever: a chain of waiting tasks follows the order of the
  graph down, so it ends at one that can go on;
* `Schedule.safe_and_live` — dependencies are published before a check starts, no check starts twice,
  no more run at once than the limit allows, and there is no deadlock.
-/

namespace TreeCheck

namespace ModuleGraph

/-! ### Dependencies -/

/-- A module waits for its imports outside of its own group. -/
theorem mem_dependencies_iff (g : ModuleGraph) (id d : String) :
    d ∈ g.dependencies id ↔ g.Edge id d ∧ ¬ g.Mutual id d := by
  have hiff : d ∈ g.dependencies id ↔ g.Edge id d ∧ ¬ g.joined id d = true := by
    simp only [dependencies, joined, Edge, List.mem_filter, Bool.and_eq_true, Bool.not_eq_true',
      Bool.not_eq_true, and_assoc]
  rw [hiff, joined_iff]
  constructor
  · rintro ⟨hedge, hn⟩
    exact ⟨hedge, fun hm => hn ⟨hedge.source, hm⟩⟩
  · rintro ⟨hedge, hn⟩
    exact ⟨hedge, fun hm => hn hm.2⟩

theorem idxOf_dependency_lt (g : ModuleGraph) {id d : String} (h : d ∈ g.dependencies id) :
    g.order.1.idxOf d < g.order.1.idxOf id := by
  obtain ⟨hedge, hn⟩ := (g.mem_dependencies_iff id d).1 h
  exact g.idxOf_order_lt hedge hn

/-- An import is a dependency, closes a cycle or is no module of the run. -/
theorem mem_dependencies_of_import (g : ModuleGraph) {id i : String} (himport : i ∈ g.importsOf id)
    (hhas : g.has i = true) (hcycle : g.onCycle id i = false) : i ∈ g.dependencies id := by
  have hedge : g.Edge id i := ⟨himport, hhas⟩
  refine (g.mem_dependencies_iff id i).2 ⟨hedge, fun hmutual => ?_⟩
  rw [onCycle] at hcycle
  split at hcycle
  · next heq =>
      subst heq
      simp [importsSelf, himport] at hcycle
  · rw [(g.joined_iff id i).2 ⟨hedge.source, hmutual⟩] at hcycle
    cases hcycle

theorem dependency_mem_order (g : ModuleGraph) {id d : String} (h : d ∈ g.dependencies id) :
    d ∈ g.order.1 :=
  (g.mem_order d).2 ((g.mem_dependencies_iff id d).1 h).1.target

end ModuleGraph

/-! ### Publications -/

namespace Registry

theorem isPublished_iff (r : Registry) (i : String) :
    r.isPublished i = true ↔ ∃ t, r.tables.get? i = some t := by
  rw [isPublished, Assoc.has, Option.isSome_iff_exists]

/-- A table is published under a new name and changes nothing else. -/
theorem get?_publish {r r' : Registry} {t : ExportTable} (h : r.publish t = .ok r') (i : String) :
    r.tables.get? t.module = none ∧
      r'.tables.get? i = (if t.module = i then some t else r.tables.get? i) ∧
      r'.expected = r.expected := by
  rw [publish] at h
  split at h
  · cases h
  · next hnot =>
      cases h
      refine ⟨?_, Assoc.get?_set .., rfl⟩
      simpa [isPublished, Assoc.has] using hnot

/-- A publication leaves what is published. -/
theorem isPublished_of_publish {r r' : Registry} {t : ExportTable} {i : String}
    (h : r.publish t = .ok r') (hi : r.isPublished i = true) : r'.isPublished i = true := by
  obtain ⟨-, hget, -⟩ := get?_publish h i
  rw [isPublished, Assoc.has, hget]
  split
  · rfl
  · exact hi

end Registry

/-! ### The system -/

/-- Where the task of a module stands. -/
inductive Phase where
  /-- It waits for the end of the listed modules, in turn, and then for a slot. -/
  | waiting (rest : List String)
  /-- Its check runs. -/
  | checking
  /-- The check returned, well or with a failure; the slot is still taken. -/
  | returned (ok : Bool)
  /-- The slot is given back. -/
  | released (ok : Bool)
  /-- The end of the module is announced. -/
  | finished
  /-- The task ended with a failure. -/
  | failed
  /-- The task gave up before its check, since the run was cancelled. -/
  | dropped
deriving DecidableEq

def Phase.hasStarted : Phase → Bool
  | .waiting _ => false
  | .dropped => false
  | _ => true

def Phase.holdsSlot : Phase → Bool
  | .checking => true
  | .returned _ => true
  | _ => false

/-- How checks behave.  They share a world with a registry in it.  While the check of a module runs, it
may act on the world and, at some point, return, well or with a failure. -/
structure Checks where
  World : Type
  registry : World → Registry
  act : String → World → World → Prop
  returns : String → World → Bool → Prop
  /-- What is published stays published. -/
  keeps : ∀ id w w', act id w w' → ∀ d, (registry w).isPublished d = true →
    (registry w').isPublished d = true
  /-- A check that runs is not stuck. -/
  awake : ∀ id w, (∃ w', act id w w') ∨ ∃ ok, returns id w ok

/-- What a run of tasks is made of. -/
structure Schedule where
  graph : ModuleGraph
  /-- How many checks may run at once. -/
  limit : Nat
  checks : Checks
  /-- The world in which the run starts. -/
  world : checks.World

/-- How far the tasks of a run came. -/
structure Tasks (W : Type) where
  world : W
  phase : String → Phase
  /-- The slots that are taken. -/
  slots : Nat := 0
  /-- The modules whose end is announced. -/
  closed : List String := []
  /-- The modules whose checks were started, in order. -/
  started : List String := []
  cancelled : Bool := false

namespace Schedule

variable (σ : Schedule)

def order : List String := σ.graph.order.1

def Published (s : Tasks σ.checks.World) (id : String) : Prop :=
  (σ.checks.registry s.world).isPublished id = true

/-- The start of a run: every task waits for all that its module depends on. -/
def begin : Tasks σ.checks.World where
  world := σ.world
  phase := fun id => .waiting (σ.graph.dependencies id)

def running (s : Tasks σ.checks.World) : List String :=
  σ.order.filter fun id => s.phase id == .checking

/-- One step of the task of a module. -/
inductive Step (id : String) (s : Tasks σ.checks.World) : Tasks σ.checks.World → Prop
  /-- It sees the end of the next module that it waits for. -/
  | see {d : String} {rest : List String} :
      s.phase id = .waiting (d :: rest) → d ∈ s.closed →
      Step id s { s with phase := Function.update s.phase id (.waiting rest) }
  /-- It takes a free slot and starts the check. -/
  | start :
      s.phase id = .waiting [] → s.slots < σ.limit →
      Step id s { s with
        phase := Function.update s.phase id .checking
        slots := s.slots + 1
        started := s.started ++ [id] }
  /-- Its check acts on what checks share. -/
  | act {w : σ.checks.World} :
      s.phase id = .checking → σ.checks.act id s.world w → Step id s { s with world := w }
  /-- Its check returns. -/
  | ret {ok : Bool} :
      s.phase id = .checking → σ.checks.returns id s.world ok →
      Step id s { s with phase := Function.update s.phase id (.returned ok) }
  /-- It gives the slot back. -/
  | release {ok : Bool} :
      s.phase id = .returned ok →
      Step id s { s with
        phase := Function.update s.phase id (.released ok)
        slots := s.slots - 1 }
  /-- It announces the end of its module, which is published. -/
  | announce :
      s.phase id = .released true → σ.Published s id →
      Step id s { s with
        phase := Function.update s.phase id .finished
        closed := s.closed ++ [id] }
  /-- It fails, since its check failed or did not publish the module, and cancels the run. -/
  | fail {ok : Bool} :
      s.phase id = .released ok → (ok = false ∨ ¬ σ.Published s id) →
      Step id s { s with phase := Function.update s.phase id .failed, cancelled := true }
  /-- It gives up waiting in a cancelled run. -/
  | drop {rest : List String} :
      s.phase id = .waiting rest → s.cancelled = true →
      Step id s { s with phase := Function.update s.phase id .dropped }

/-- The states that any order of steps leads to; the run may be cancelled from outside at any time. -/
inductive Reachable : Tasks σ.checks.World → Prop
  | begin : Reachable σ.begin
  | step {s s' : Tasks σ.checks.World} {id : String} :
      Reachable s → id ∈ σ.order → σ.Step id s s' → Reachable s'
  | cancel {s : Tasks σ.checks.World} : Reachable s → Reachable { s with cancelled := true }

/-! ### The invariant -/

/-- What the task of a module has behind it in each phase. -/
def Behind (s : Tasks σ.checks.World) (id : String) : Phase → Prop
  | .waiting rest =>
      (∀ d ∈ σ.graph.dependencies id, d ∈ rest ∨ d ∈ s.closed) ∧
        ∀ d ∈ rest, d ∈ σ.graph.dependencies id
  | .dropped => s.cancelled = true
  | .failed => (∀ d ∈ σ.graph.dependencies id, d ∈ s.closed) ∧ s.cancelled = true
  | .finished => (∀ d ∈ σ.graph.dependencies id, d ∈ s.closed) ∧ id ∈ s.closed
  | _ => ∀ d ∈ σ.graph.dependencies id, d ∈ s.closed

/-- **The invariant of a run.**  Only published modules are announced, the slots that are taken are
counted, and every task has behind it what its phase says. -/
structure Inv (s : Tasks σ.checks.World) : Prop where
  published : ∀ d ∈ s.closed, σ.Published s d
  started_iff : ∀ id, id ∈ s.started ↔ (s.phase id).hasStarted = true
  nodup : s.started.Nodup
  slots_eq : s.slots = σ.order.countP fun id => (s.phase id).holdsSlot
  slots_le : s.slots ≤ σ.limit
  tasks : ∀ id, σ.Behind s id (s.phase id)

variable {σ}

/-- What lies behind a task stays there as more is announced. -/
theorem Behind.mono {s s' : Tasks σ.checks.World} {id : String} {p : Phase} (h : σ.Behind s id p)
    (hclosed : ∀ d ∈ s.closed, d ∈ s'.closed) (hcancel : s.cancelled = true → s'.cancelled = true) :
    σ.Behind s' id p := by
  cases p with
  | waiting rest => exact ⟨fun d hd => (h.1 d hd).imp_right (hclosed d), h.2⟩
  | checking | returned ok | released ok => exact fun d hd => hclosed d (h d hd)
  | finished => exact ⟨fun d hd => hclosed d (h.1 d hd), hclosed id h.2⟩
  | failed => exact ⟨fun d hd => hclosed d (h.1 d hd), hcancel h.2⟩
  | dropped => exact hcancel h

/-- When a check has been started, all that its module depends on has been announced. -/
theorem Behind.ready {s : Tasks σ.checks.World} {id : String} {p : Phase} (h : σ.Behind s id p)
    (hp : p.hasStarted = true) : ∀ d ∈ σ.graph.dependencies id, d ∈ s.closed := by
  cases p with
  | waiting rest => cases hp
  | dropped => cases hp
  | checking | returned ok | released ok => exact h
  | finished | failed => exact h.1

/-! ### What one step does -/

/-- A step moves one task.  Announcements, publications and a cancellation stay. -/
theorem Step.frame {s s' : Tasks σ.checks.World} {id : String} (h : σ.Step id s s') :
    (∀ x, x ≠ id → s'.phase x = s.phase x) ∧ (∀ d ∈ s.closed, d ∈ s'.closed) ∧
      (s.cancelled = true → s'.cancelled = true) ∧ ∀ d, σ.Published s d → σ.Published s' d := by
  cases h with
  | act _ hact =>
      exact ⟨fun _ _ => rfl, fun _ hd => hd, fun hc => hc,
        fun d hd => σ.checks.keeps _ _ _ hact d hd⟩
  | announce _ _ =>
      exact ⟨fun x hx => Function.update_of_ne hx _ _, fun d hd => List.mem_append_left _ hd,
        fun hc => hc, fun _ hd => hd⟩
  | fail _ _ =>
      exact ⟨fun x hx => Function.update_of_ne hx _ _, fun _ hd => hd, fun _ => rfl, fun _ hd => hd⟩
  | see _ _ | start _ _ | ret _ _ | release _ | drop _ _ =>
      exact ⟨fun x hx => Function.update_of_ne hx _ _, fun _ hd => hd, fun hc => hc, fun _ hd => hd⟩

/-- A step announces only what has been published. -/
theorem Step.announced {s s' : Tasks σ.checks.World} {id d : String} (h : σ.Step id s s')
    (hd : d ∈ s'.closed) : d ∈ s.closed ∨ σ.Published s' d := by
  cases h with
  | announce _ hpub =>
      rcases List.mem_append.1 hd with hd | hd
      · exact Or.inl hd
      · rw [List.mem_singleton.1 hd]
        exact Or.inr hpub
  | see _ _ | start _ _ | act _ _ | ret _ _ | release _ | fail _ _ | drop _ _ => exact Or.inl hd

/-- A step starts the check of its task, which was not started, or no check. -/
theorem Step.starts {s s' : Tasks σ.checks.World} {id : String} (h : σ.Step id s s') :
    (s'.started = s.started ∧ (s'.phase id).hasStarted = (s.phase id).hasStarted) ∨
      (s'.started = s.started ++ [id] ∧ (s.phase id).hasStarted = false ∧
        (s'.phase id).hasStarted = true) := by
  cases h with
  | act _ _ => exact Or.inl ⟨rfl, rfl⟩
  | start hp _ =>
      refine Or.inr ⟨rfl, ?_, ?_⟩
      · rw [hp]
        rfl
      · show (Function.update s.phase id .checking id).hasStarted = true
        rw [Function.update_self]
        rfl
  | see hp _ | ret hp _ | release hp | announce hp _ | fail hp _ | drop hp _ =>
      refine Or.inl ⟨rfl, ?_⟩
      rw [hp]
      show (Function.update s.phase id _ id).hasStarted = _
      rw [Function.update_self]
      rfl

/-- A step changes the number of taken slots as it changes whether its task holds one. -/
theorem Step.slots {s s' : Tasks σ.checks.World} {id : String} (h : σ.Step id s s')
    (hheld : (s.phase id).holdsSlot.toNat ≤ s.slots) :
    s'.slots + (s.phase id).holdsSlot.toNat = s.slots + (s'.phase id).holdsSlot.toNat := by
  cases h with
  | act _ _ => rfl
  | start hp _ =>
      rw [hp]
      show s.slots + 1 + 0 = s.slots + (Function.update s.phase id .checking id).holdsSlot.toNat
      rw [Function.update_self]
      rfl
  | release hp =>
      rw [hp] at hheld ⊢
      show s.slots - 1 + 1 = s.slots + (Function.update s.phase id (.released _) id).holdsSlot.toNat
      rw [Function.update_self]
      have hone : 1 ≤ s.slots := hheld
      show s.slots - 1 + 1 = s.slots + 0
      omega
  | see hp _ | ret hp _ | announce hp _ | fail hp _ | drop hp _ =>
      rw [hp]
      show s.slots + _ = s.slots + (Function.update s.phase id _ id).holdsSlot.toNat
      rw [Function.update_self]
      rfl

/-- A step keeps the number of slots in use within the limit. -/
theorem Step.slots_le {s s' : Tasks σ.checks.World} {id : String} (h : σ.Step id s s')
    (hle : s.slots ≤ σ.limit) : s'.slots ≤ σ.limit := by
  cases h with
  | start _ hfree => exact hfree
  | release _ =>
      show s.slots - 1 ≤ σ.limit
      omega
  | see _ _ | act _ _ | ret _ _ | announce _ _ | fail _ _ | drop _ _ => exact hle

/-- A step of a task puts the phase it leaves behind it. -/
theorem Step.behind {s s' : Tasks σ.checks.World} {id : String} (h : σ.Step id s s')
    (hb : σ.Behind s id (s.phase id)) : σ.Behind s' id (s'.phase id) := by
  cases h with
  | act _ _ => exact hb.mono (fun _ hd => hd) fun hc => hc
  | see hp hclosed =>
      rw [hp] at hb
      show σ.Behind _ id (Function.update s.phase id _ id)
      rw [Function.update_self]
      refine ⟨fun d hd => ?_, fun d hd => hb.2 d (List.mem_cons_of_mem _ hd)⟩
      rcases hb.1 d hd with hrest | hdone
      · rcases List.mem_cons.1 hrest with rfl | hrest
        · exact Or.inr hclosed
        · exact Or.inl hrest
      · exact Or.inr hdone
  | start hp _ =>
      rw [hp] at hb
      show σ.Behind _ id (Function.update s.phase id _ id)
      rw [Function.update_self]
      intro d hd
      exact (hb.1 d hd).resolve_left List.not_mem_nil
  | ret hp _ | release hp =>
      rw [hp] at hb
      show σ.Behind _ id (Function.update s.phase id _ id)
      rw [Function.update_self]
      exact hb
  | announce hp _ =>
      rw [hp] at hb
      show σ.Behind _ id (Function.update s.phase id _ id)
      rw [Function.update_self]
      exact ⟨fun d hd => List.mem_append_left _ (hb d hd),
        List.mem_append_right _ (List.mem_singleton.2 rfl)⟩
  | fail hp _ =>
      rw [hp] at hb
      show σ.Behind _ id (Function.update s.phase id _ id)
      rw [Function.update_self]
      exact ⟨hb, rfl⟩
  | drop _ hcancelled =>
      show σ.Behind _ id (Function.update s.phase id _ id)
      rw [Function.update_self]
      exact hcancelled

/-! ### Every reachable state -/

/-- Two counts that differ at one entry of a list differ by that entry. -/
theorem countP_add_toNat {l : List String} (hl : l.Nodup) {id : String} (hid : id ∈ l)
    {p q : String → Bool} (h : ∀ x, x ≠ id → q x = p x) :
    l.countP q + (p id).toNat = l.countP p + (q id).toNat := by
  obtain ⟨pre, post, rfl⟩ := List.append_of_mem hid
  have hpre : pre.countP q = pre.countP p := by
    refine List.countP_congr fun x hx => ?_
    have hne : x ≠ id := by
      rintro rfl
      exact (List.nodup_append.1 hl).2.2 x hx x List.mem_cons_self rfl
    rw [h x hne]
  have hpost : post.countP q = post.countP p := by
    refine List.countP_congr fun x hx => ?_
    have hne : x ≠ id := by
      rintro rfl
      exact (List.nodup_cons.1 (List.nodup_append.1 hl).2.1).1 hx
    rw [h x hne]
  rw [List.countP_append, List.countP_append, List.countP_cons, List.countP_cons, hpre, hpost]
  cases p id <;> cases q id <;> simp <;> omega

theorem inv_begin : σ.Inv σ.begin where
  published := fun d hd => by cases hd
  started_iff := fun id => by simp [begin, Phase.hasStarted]
  nodup := List.nodup_nil
  slots_eq := by
    symm
    rw [begin, List.countP_eq_zero]
    intro id _
    simp [Phase.holdsSlot]
  slots_le := Nat.zero_le _
  tasks := fun _ => ⟨fun _ hd => Or.inl hd, fun _ hd => hd⟩

/-- Every step keeps the invariant. -/
theorem Inv.step {s s' : Tasks σ.checks.World} {id : String} (h : σ.Inv s) (hid : id ∈ σ.order)
    (hstep : σ.Step id s s') : σ.Inv s' := by
  obtain ⟨hphase, hclosed, hcancel, hpub⟩ := hstep.frame
  refine ⟨?_, ?_, ?_, ?_, hstep.slots_le h.slots_le, ?_⟩
  · intro d hd
    rcases hstep.announced hd with hd | hd
    · exact hpub d (h.published d hd)
    · exact hd
  · intro x
    rcases hstep.starts with ⟨hsame, hown⟩ | ⟨hnew, _, hown⟩
    · rw [hsame, h.started_iff]
      by_cases hx : x = id
      · rw [hx, hown]
      · rw [hphase x hx]
    · rw [hnew, List.mem_append, List.mem_singleton, h.started_iff]
      by_cases hx : x = id
      · simp [hx, hown]
      · simp [hx, hphase x hx]
  · rcases hstep.starts with ⟨hsame, _⟩ | ⟨hnew, hbefore, _⟩
    · rw [hsame]
      exact h.nodup
    · have hnot : id ∉ s.started := by
        rw [h.started_iff, hbefore]
        decide
      rw [hnew, List.nodup_append]
      refine ⟨h.nodup, List.nodup_singleton id, ?_⟩
      rintro x hx y hy rfl
      exact hnot (List.mem_singleton.1 hy ▸ hx)
  · have hcount := countP_add_toNat σ.graph.nodup_order hid
      (p := fun x => (s.phase x).holdsSlot) (q := fun x => (s'.phase x).holdsSlot)
      fun x hx => by rw [hphase x hx]
    have hheld : (s.phase id).holdsSlot.toNat ≤ s.slots := by
      cases hslot : (s.phase id).holdsSlot with
      | false => exact Nat.zero_le _
      | true =>
          rw [h.slots_eq]
          exact List.countP_pos_iff.2 ⟨id, hid, hslot⟩
    have hslots := hstep.slots hheld
    have heq := h.slots_eq
    simp only [order] at heq ⊢
    omega
  · intro x
    by_cases hx : x = id
    · rw [hx]
      exact hstep.behind (h.tasks id)
    · rw [hphase x hx]
      exact (h.tasks x).mono hclosed hcancel

/-- **The invariant holds in every reachable state.** -/
theorem Reachable.inv {s : Tasks σ.checks.World} (h : σ.Reachable s) : σ.Inv s := by
  induction h with
  | begin => exact inv_begin
  | step _ hid hstep ih => exact ih.step hid hstep
  | cancel _ ih =>
      exact ⟨ih.published, ih.started_iff, ih.nodup, ih.slots_eq, ih.slots_le,
        fun id => (ih.tasks id).mono (fun _ hd => hd) fun _ => rfl⟩

/-- **What checks keep holds in every reachable state.**  A check acts only when all that its module
depends on is published. -/
theorem Reachable.world {P : σ.checks.World → Prop} (hbegin : P σ.world)
    (hact : ∀ id ∈ σ.order, ∀ w w', P w →
      (∀ d ∈ σ.graph.dependencies id, (σ.checks.registry w).isPublished d = true) →
      σ.checks.act id w w' → P w')
    {s : Tasks σ.checks.World} (h : σ.Reachable s) : P s.world := by
  induction h with
  | begin => exact hbegin
  | cancel _ ih => exact ih
  | @step s s' id hr hid hstep ih =>
      cases hstep with
      | act hp hacts =>
          have hready := (hr.inv.tasks id).ready (by rw [hp]; rfl)
          exact hact id hid _ _ ih (fun d hd => hr.inv.published d (hready d hd)) hacts
      | see _ _ | start _ _ | ret _ _ | release _ | announce _ _ | fail _ _ | drop _ _ => exact ih

/-- A module whose end is announced is finished. -/
theorem Reachable.finished_of_closed {s : Tasks σ.checks.World} (h : σ.Reachable s) {d : String}
    (hd : d ∈ s.closed) : s.phase d = .finished := by
  induction h with
  | begin => cases hd
  | cancel _ ih => exact ih hd
  | @step s s' id _ _ hstep ih =>
      have hother : d ∈ s.closed → s'.phase d = .finished := by
        intro hclosed
        by_cases hid : d = id
        · subst hid
          -- a task that is finished takes no more steps
          have hfin := ih hclosed
          cases hstep with
          | see hp _ | start hp _ | act hp _ | ret hp _ | release hp | announce hp _ | fail hp _
          | drop hp _ =>
              rw [hfin] at hp
              cases hp
        · rw [hstep.frame.1 d hid]
          exact ih hclosed
      cases hstep with
      | announce hp hpub =>
          rcases List.mem_append.1 hd with hd | hd
          · exact hother hd
          · rw [List.mem_singleton.1 hd]
            exact Function.update_self ..
      | see _ _ | start _ _ | act _ _ | ret _ _ | release _ | fail _ _ | drop _ _ => exact hother hd

/-- No more tasks run than there are slots. -/
theorem Inv.length_running_le {s : Tasks σ.checks.World} (h : σ.Inv s) :
    (σ.running s).length ≤ σ.limit := by
  have hmono : σ.order.countP (fun id => s.phase id == .checking) ≤
      σ.order.countP fun id => (s.phase id).holdsSlot := by
    refine List.countP_mono_left fun id _ hid => ?_
    have hp : s.phase id = .checking := by simpa using hid
    rw [hp]
    rfl
  calc (σ.running s).length
      = σ.order.countP (fun id => s.phase id == .checking) := List.countP_eq_length_filter.symm
    _ ≤ s.slots := h.slots_eq ▸ hmono
    _ ≤ σ.limit := h.slots_le

/-! ### A task on its own -/

/-- A task starts its check when all that it waits for is announced and a slot is free. -/
theorem Reachable.starts {s : Tasks σ.checks.World} {id : String} {rest : List String}
    (h : σ.Reachable s) (hid : id ∈ σ.order) (hp : s.phase id = .waiting rest)
    (hrest : ∀ d ∈ rest, d ∈ s.closed) (hfree : s.slots < σ.limit) :
    σ.Reachable { s with
      phase := Function.update s.phase id .checking
      slots := s.slots + 1
      started := s.started ++ [id] } := by
  induction rest generalizing s with
  | nil => exact h.step hid (.start hp hfree)
  | cons d rest ih =>
      have hsee := h.step hid (.see hp (hrest d List.mem_cons_self))
      have hstart := ih hsee (Function.update_self ..)
        (fun x hx => hrest x (List.mem_cons_of_mem _ hx)) hfree
      simpa only [Function.update_idem] using hstart

/-- Any number of actions of a checking task keep the state reachable. -/
theorem Reachable.acts {s : Tasks σ.checks.World} {id : String} {w : σ.checks.World}
    (h : σ.Reachable s) (hid : id ∈ σ.order) (hp : s.phase id = .checking)
    (hacts : Relation.ReflTransGen (σ.checks.act id) s.world w) : σ.Reachable { s with world := w } := by
  induction hacts with
  | refl => exact h
  | tail _ hact ih => exact ih.step hid (.act hp hact)

/-- A task whose check returns well and has published the module announces its end. -/
theorem Reachable.finishes {s : Tasks σ.checks.World} {id : String}
    (h : σ.Reachable s) (hid : id ∈ σ.order) (hp : s.phase id = .checking)
    (hret : σ.checks.returns id s.world true) (hpub : σ.Published s id) :
    σ.Reachable { s with
      phase := Function.update s.phase id .finished
      slots := s.slots - 1
      closed := s.closed ++ [id] } := by
  have hret := h.step hid (.ret hp hret)
  have hrel := hret.step hid (.release (Function.update_self ..))
  have hann := hrel.step hid (.announce (Function.update_self ..) hpub)
  simpa only [Function.update_idem] using hann

/-! ### No deadlock -/

/-- A task with a slot can take a step. -/
theorem exists_step_of_holdsSlot {s : Tasks σ.checks.World} {id : String}
    (h : (s.phase id).holdsSlot = true) : ∃ s', σ.Step id s s' := by
  cases hp : s.phase id with
  | checking =>
      rcases σ.checks.awake id s.world with ⟨w, hact⟩ | ⟨ok, hret⟩
      · exact ⟨_, .act hp hact⟩
      · exact ⟨_, .ret hp hret⟩
  | returned ok => exact ⟨_, .release hp⟩
  | waiting rest | released ok | finished | failed | dropped =>
      rw [hp] at h
      cases h

/-- So can one that has released it. -/
theorem exists_step_of_released {s : Tasks σ.checks.World} {id : String} {ok : Bool}
    (h : s.phase id = .released ok) : ∃ s', σ.Step id s s' := by
  by_cases hpub : σ.Published s id
  · cases ok with
    | true => exact ⟨_, .announce h hpub⟩
    | false => exact ⟨_, .fail h (Or.inl rfl)⟩
  · exact ⟨_, .fail h (Or.inr hpub)⟩

variable (σ) in
/-- A task is held up by nothing: what it waits for next is announced, or a slot is free, or it is past
its waiting. -/
inductive Ready (s : Tasks σ.checks.World) (id : String) : Prop
  | see {d : String} {rest : List String} : s.phase id = .waiting (d :: rest) → d ∈ s.closed → Ready s id
  | start : s.phase id = .waiting [] → s.slots < σ.limit → Ready s id
  | holdsSlot : (s.phase id).holdsSlot = true → Ready s id
  | released {ok : Bool} : s.phase id = .released ok → Ready s id

/-- A task that is ready can take a step. -/
theorem Ready.exists_step {s : Tasks σ.checks.World} {id : String} (h : σ.Ready s id) :
    ∃ s', σ.Step id s s' := by
  cases h with
  | see hp hclosed => exact ⟨_, .see hp hclosed⟩
  | start hp hfree => exact ⟨_, .start hp hfree⟩
  | holdsSlot hslot => exact exists_step_of_holdsSlot hslot
  | released hp => exact exists_step_of_released hp

/-- As long as the run is not cancelled and some module is not finished, nothing holds up some task.  The
induction is on the place of that module in the order: what it waits for stands earlier. -/
theorem Inv.exists_ready {s : Tasks σ.checks.World} (h : σ.Inv s) (hlimit : 1 ≤ σ.limit)
    (hcancel : s.cancelled = false) (id : String) (hid : id ∈ σ.order)
    (hopen : s.phase id ≠ .finished) : ∃ id' ∈ σ.order, σ.Ready s id' := by
  induction hn : σ.order.idxOf id using Nat.strong_induction_on generalizing id with
  | _ n ih =>
  cases hp : s.phase id with
  | waiting rest =>
      have hb := h.tasks id
      rw [hp] at hb
      cases rest with
      | nil =>
          by_cases hfree : s.slots < σ.limit
          · exact ⟨id, hid, .start hp hfree⟩
          · -- All slots are taken, so there is a task that holds one.
            have hpos : 0 < σ.order.countP fun x => (s.phase x).holdsSlot := by
              rw [← h.slots_eq]
              omega
            obtain ⟨x, hx, hslot⟩ := List.countP_pos_iff.1 hpos
            exact ⟨x, hx, .holdsSlot hslot⟩
      | cons d rest =>
          have hdep : d ∈ σ.graph.dependencies id := hb.2 d List.mem_cons_self
          by_cases hclosed : d ∈ s.closed
          · exact ⟨id, hid, .see hp hclosed⟩
          · have hdopen : s.phase d ≠ .finished := by
              intro hfin
              have hbd := h.tasks d
              rw [hfin] at hbd
              exact hclosed hbd.2
            have hlt : σ.order.idxOf d < n := hn ▸ σ.graph.idxOf_dependency_lt hdep
            exact ih _ hlt d (σ.graph.dependency_mem_order hdep) hdopen rfl
  | checking | returned ok =>
      refine ⟨id, hid, .holdsSlot ?_⟩
      rw [hp]
      rfl
  | released ok => exact ⟨id, hid, .released hp⟩
  | finished => exact absurd hp hopen
  | failed =>
      have hb := h.tasks id
      rw [hp, Behind, hcancel] at hb
      exact absurd hb.2 (by decide)
  | dropped =>
      have hb := h.tasks id
      rw [hp, Behind, hcancel] at hb
      exact absurd hb (by decide)

/-- **No deadlock.**  As long as the run is not cancelled and some module is not finished, some task can
go on. -/
theorem Inv.exists_step {s : Tasks σ.checks.World} (h : σ.Inv s) (hlimit : 1 ≤ σ.limit)
    (hcancel : s.cancelled = false) (id : String) (hid : id ∈ σ.order)
    (hopen : s.phase id ≠ .finished) : ∃ id' ∈ σ.order, ∃ s', σ.Step id' s s' := by
  obtain ⟨id', hid', hready⟩ := h.exists_ready hlimit hcancel id hid hopen
  exact ⟨id', hid', hready.exists_step⟩

/-- **Runs are safe and do not lock up**, for any graph, with cycles or not, any limit, and any order of
steps.  In every reachable state, what a module depends on was published if its check was started; no
check was started twice; no more checks run than the limit allows; and unless the run was cancelled,
by a failure or from outside, some task can go on as long as some module is not finished. -/
theorem safe_and_live {s : Tasks σ.checks.World} (hlimit : 1 ≤ σ.limit) (h : σ.Reachable s) :
    (∀ id ∈ s.started, ∀ d ∈ σ.graph.dependencies id, σ.Published s d) ∧
      s.started.Nodup ∧
      (σ.running s).length ≤ σ.limit ∧
      (s.cancelled = false → (∃ id ∈ σ.order, s.phase id ≠ .finished) →
        ∃ id ∈ σ.order, ∃ s', σ.Step id s s') := by
  have hinv := h.inv
  refine ⟨?_, hinv.nodup, hinv.length_running_le, ?_⟩
  · intro id hid d hd
    exact hinv.published d ((hinv.tasks id).ready ((hinv.started_iff id).1 hid) d hd)
  · rintro hcancel ⟨id, hid, hopen⟩
    exact hinv.exists_step hlimit hcancel id hid hopen

/-- Checks that publish an empty table and return. -/
def publishing : Checks where
  World := Registry
  registry := fun r => r
  act := fun id r r' => r.publish { module := id } = .ok r'
  returns := fun id r ok => ok = r.isPublished id
  keeps := fun _ _ _ h _ hd => Registry.isPublished_of_publish h hd
  awake := fun id r => by
    by_cases h : r.isPublished id = true
    · exact Or.inr ⟨_, rfl⟩
    · exact Or.inl ⟨_, by rw [Registry.publish, if_neg h]⟩

/-- Two modules that import each other and a third that imports one of them, with one slot. -/
def cyclic : Schedule where
  graph := ModuleGraph.ofCalls [("a", ["b"]), ("b", ["a"]), ("c", ["a"])]
  limit := 1
  checks := publishing
  world := {}

/-- With one slot, `a` is checked and announced, and then the check of `c` starts. -/
theorem safe_and_live_cyclic :
    ∃ s, cyclic.Reachable s ∧ s.started = ["a", "c"] ∧ cyclic.Published s "a" ∧
      ∃ id ∈ cyclic.order, ∃ s', cyclic.Step id s s' := by
  have horder : cyclic.order = ["a", "b", "c"] := by cbv
  have ha : "a" ∈ cyclic.order := by simp [horder]
  have hc : "c" ∈ cyclic.order := by simp [horder]
  have hdepa : cyclic.graph.dependencies "a" = [] := by cbv
  have hdepc : cyclic.graph.dependencies "c" = ["a"] := by cbv
  have hact : cyclic.checks.act "a" cyclic.world
      ({ tables := [("a", { module := "a" })] } : Registry) := by
    show ({} : Registry).publish { module := "a" } = _
    rfl
  have h₁ := (Reachable.begin (σ := cyclic)).starts ha rfl (by simp [hdepa]) (by decide)
  have h₂ := h₁.step ha (.act rfl hact)
  have h₃ := h₂.finishes ha rfl rfl rfl
  have h₄ := h₃.starts hc rfl (by simp [hdepc]) (by decide)
  obtain ⟨hdeps, -, -, hlive⟩ := safe_and_live (by decide) h₄
  exact ⟨_, h₄, rfl, hdeps "c" (by decide) "a" (by simp [hdepc]), hlive rfl ⟨"c", hc, by decide⟩⟩

end Schedule

end TreeCheck
