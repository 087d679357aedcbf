import Mathlib.Logic.Relation
import Mathlib.Tactic
import TreeCheck.Module.Graph

/-!
# Reachability in an import graph

The graph as a relation between module names, apart from how it is stored and searched.

* `Edge` — an import from one module of the run by another;
* `Reaches`, `Mutual` — imports followed any number of times, one way and both ways.  A group of
  modules that import one another is a class of `Mutual`;
* `ofCalls` — the graph that a sequence of additions builds, with `has_ofCalls` and `edge_ofCalls`: it
  holds what was added and nothing else.
-/

namespace TreeCheck.ModuleGraph

open Relation

/-! ### The relation behind a graph -/

/-- One module of the run imports another. -/
def Edge (g : ModuleGraph) (u w : String) : Prop := w ∈ g.importsOf u ∧ g.has w = true

/-- Imports lead from one module to another, in any number of steps. -/
abbrev Reaches (g : ModuleGraph) : String → String → Prop := ReflTransGen g.Edge

/-- Two modules import each other, directly or not. -/
def Mutual (g : ModuleGraph) (u w : String) : Prop := g.Reaches u w ∧ g.Reaches w u

theorem Mutual.refl (g : ModuleGraph) (u : String) : g.Mutual u u :=
  ⟨ReflTransGen.refl, ReflTransGen.refl⟩

theorem Mutual.symm {g : ModuleGraph} {u w : String} (h : g.Mutual u w) : g.Mutual w u :=
  ⟨h.2, h.1⟩

theorem Mutual.trans {g : ModuleGraph} {u v w : String} (h₁ : g.Mutual u v) (h₂ : g.Mutual v w) :
    g.Mutual u w :=
  ⟨h₁.1.trans h₂.1, h₂.2.trans h₁.2⟩

@[simp] theorem mem_edges (g : ModuleGraph) (u w : String) : w ∈ g.edges u ↔ g.Edge u w := by
  simp [edges, Edge]

@[simp] theorem mem_modules (g : ModuleGraph) (id : String) : id ∈ g.modules ↔ g.has id = true := by
  rw [modules, mem_sortedNames, has, Assoc.has_iff_mem_keys]

theorem Edge.target {g : ModuleGraph} {u w : String} (h : g.Edge u w) : g.has w = true := h.2

/-- Only modules of the run have recorded imports. -/
theorem Edge.source {g : ModuleGraph} {u w : String} (h : g.Edge u w) : g.has u = true := by
  by_contra hu
  have hn : g.imports.get? u = none := by simpa [has, Assoc.has] using hu
  have hw := h.1
  rw [importsOf, hn] at hw
  simp at hw

/-- What a known module reaches is known. -/
theorem Reaches.has {g : ModuleGraph} {u w : String} (h : g.Reaches u w) (hu : g.has u = true) :
    g.has w = true := by
  rcases ReflTransGen.cases_tail h with rfl | ⟨v, _, hvw⟩
  · exact hu
  · exact hvw.target

theorem Mutual.has {g : ModuleGraph} {u w : String} (h : g.Mutual u w) (hu : g.has u = true) :
    g.has w = true :=
  Reaches.has h.1 hu

/-- A set of modules that contains what its members import contains all that they reach. -/
theorem Reaches.mem_of_closed {g : ModuleGraph} {S : String → Prop}
    (hS : ∀ x, S x → ∀ y, g.Edge x y → S y) {u w : String} (h : g.Reaches u w) (hu : S u) : S w := by
  induction h with
  | refl => exact hu
  | tail _ hvw ih => exact hS _ ih _ hvw

/-! ### Graphs built by additions -/

/-- The graph after a sequence of additions, each a module with some of its imports. -/
def ofCalls (calls : List (String × List String)) : ModuleGraph :=
  calls.foldl (fun g c => g.add c.1 c.2) {}

def Recorded (calls : List (String × List String)) (u w : String) : Prop :=
  ∃ c ∈ calls, c.1 = u ∧ w ∈ c.2

/-- An addition recorded an import of a module that was added too. -/
def Linked (calls : List (String × List String)) (u w : String) : Prop :=
  Recorded calls u w ∧ w ∈ calls.map (·.1)

/-- Adding the unknown names of a list adds exactly its names. -/
theorem mem_foldl_unlessKnown (new known : List String) (x : String) :
    x ∈ new.foldl (fun acc i => if acc.contains i then acc else acc ++ [i]) known ↔
      x ∈ known ∨ x ∈ new := by
  induction new generalizing known with
  | nil => simp
  | cons i is ih =>
      rw [List.foldl_cons, ih]
      by_cases hi : known.contains i = true
      · have hmem : i ∈ known := by simpa using hi
        rw [if_pos hi, List.mem_cons]
        constructor
        · rintro (h | h)
          · exact Or.inl h
          · exact Or.inr (Or.inr h)
        · rintro (h | rfl | h)
          · exact Or.inl h
          · exact Or.inl hmem
          · exact Or.inr h
      · rw [if_neg hi, List.mem_append, List.mem_singleton, List.mem_cons, or_assoc]

theorem has_add (g : ModuleGraph) (id : String) (imports : List String) (x : String) :
    (g.add id imports).has x = true ↔ x = id ∨ g.has x = true := by
  have h := Assoc.has_set g.imports id
    (imports.foldl (fun acc i => if acc.contains i then acc else acc ++ [i])
      ((g.imports.get? id).getD [])) x
  rw [add, has, h, Bool.or_eq_true, decide_eq_true_eq, has, eq_comm]

/-- An added module has its imports, and the others keep theirs. -/
theorem mem_importsOf_add (g : ModuleGraph) (id : String) (imports : List String) (u w : String) :
    w ∈ (g.add id imports).importsOf u ↔ w ∈ g.importsOf u ∨ u = id ∧ w ∈ imports := by
  rw [add, importsOf, Assoc.get?_set]
  by_cases h : id = u
  · subst h
    rw [if_pos rfl, Option.getD_some, mem_foldl_unlessKnown, importsOf]
    simp
  · have h' : ¬ u = id := fun e => h e.symm
    simp [importsOf, h, h']

/-- What a sequence of additions to a graph makes of it, seen through its view. -/
theorem foldl_add_view (calls : List (String × List String)) (g : ModuleGraph) :
    let g' := calls.foldl (fun g c => g.add c.1 c.2) g
    (∀ x, g'.has x = true ↔ g.has x = true ∨ x ∈ calls.map (·.1)) ∧
      ∀ u w, w ∈ g'.importsOf u ↔ w ∈ g.importsOf u ∨ ∃ c ∈ calls, c.1 = u ∧ w ∈ c.2 := by
  induction calls generalizing g with
  | nil => simp
  | cons c cs ih =>
      obtain ⟨hhas, himp⟩ := ih (g.add c.1 c.2)
      refine ⟨?_, ?_⟩
      · intro x
        rw [List.foldl_cons, hhas, has_add, List.map_cons, List.mem_cons]
        tauto
      · intro u w
        rw [List.foldl_cons, himp, mem_importsOf_add]
        constructor
        · rintro ((h | ⟨rfl, h⟩) | ⟨d, hd, hu, hw⟩)
          · exact Or.inl h
          · exact Or.inr ⟨c, List.mem_cons_self, rfl, h⟩
          · exact Or.inr ⟨d, List.mem_cons_of_mem _ hd, hu, hw⟩
        · rintro (h | ⟨d, hd, hu, hw⟩)
          · exact Or.inl (Or.inl h)
          · rcases List.mem_cons.1 hd with rfl | hd
            · exact Or.inl (Or.inr ⟨hu.symm, hw⟩)
            · exact Or.inr ⟨d, hd, hu, hw⟩

/-- The modules of the graph are those that were added. -/
theorem has_ofCalls (calls : List (String × List String)) (x : String) :
    (ofCalls calls).has x = true ↔ x ∈ calls.map (·.1) := by
  have h := (foldl_add_view calls {}).1 x
  simpa [ofCalls, has, Assoc.has] using h

/-- The imports of a module are those that were added with it, in any of its additions. -/
theorem mem_importsOf_ofCalls (calls : List (String × List String)) (u w : String) :
    w ∈ (ofCalls calls).importsOf u ↔ Recorded calls u w := by
  have h := (foldl_add_view calls {}).2 u w
  simpa [ofCalls, importsOf, Recorded] using h

/-- The edges of the graph are the recorded imports of added modules. -/
theorem edge_ofCalls (calls : List (String × List String)) (u w : String) :
    (ofCalls calls).Edge u w ↔ Linked calls u w := by
  rw [Edge, Linked, mem_importsOf_ofCalls, has_ofCalls]

end TreeCheck.ModuleGraph
