import Mathlib.Data.List.Dedup
import TreeCheck.Proofs.Graph.LowLink

/-!
# Groups and the order of modules

What the search gives, read off the invariant with which it ends.

* `mem_component_iff`, `mem_flatten_components`, `nodup_flatten_components` — the groups are the classes
  of modules that import one another, and each module is in one of them, once;
* `joined_iff` — two modules are in one group when they import each other, directly or not;
* `idxOf_order_lt` — an import of another group stands earlier in the order;
* `order_isSome_iff` — a cycle is reported when there is one;
* `order_ofCalls` — all of it, for the graph of any sequence of additions.
-/

namespace TreeCheck.ModuleGraph

open Relation

section
variable (g : ModuleGraph)

/-! ### Groups -/

theorem component_ne_nil {c : List String} (hc : c ∈ g.components) : c ≠ [] :=
  g.search_inv.1.nonempty c hc

/-- A group is the class of each of its modules. -/
theorem mem_component_iff {c : List String} (hc : c ∈ g.components) {u : String} (hu : u ∈ c)
    (w : String) : w ∈ c ↔ g.Mutual u w :=
  g.search_inv.1.classes c hc u hu w

/-- The groups hold the modules of the run. -/
theorem mem_flatten_components (x : String) : x ∈ g.components.flatten ↔ g.has x = true := by
  obtain ⟨hinv, hstack, hall⟩ := g.search_inv
  rw [← hall x, hinv.entered_iff x, hstack]
  simp [components]

/-- No module is in two groups, or in one twice. -/
theorem nodup_flatten_components : g.components.flatten.Nodup := g.search_inv.1.nodup_groups

theorem components_ordered : Search.Ordered g g.components := g.search_inv.1.ordered

theorem exists_component {u : String} (hu : g.has u = true) : ∃ c ∈ g.components, u ∈ c :=
  List.mem_flatten.1 ((g.mem_flatten_components u).2 hu)

theorem joined_iff (u w : String) : g.joined u w = true ↔ g.has u = true ∧ g.Mutual u w := by
  have hiff : g.joined u w = true ↔ ∃ c ∈ g.components, u ∈ c ∧ w ∈ c := by simp [joined]
  rw [hiff]
  constructor
  · rintro ⟨c, hc, hu, hw⟩
    exact ⟨(g.mem_flatten_components u).1 (List.mem_flatten.2 ⟨c, hc, hu⟩),
      (g.mem_component_iff hc hu w).1 hw⟩
  · rintro ⟨hu, huw⟩
    obtain ⟨c, hc, huc⟩ := g.exists_component hu
    exact ⟨c, hc, huc, (g.mem_component_iff hc huc w).2 huw⟩

/-! ### Order -/

theorem mem_order (x : String) : x ∈ g.order.1 ↔ g.has x = true := g.mem_flatten_components x

theorem nodup_order : g.order.1.Nodup := g.nodup_flatten_components

/-- **Imports first.**  An import of a module of another group stands before it in the order. -/
theorem idxOf_order_lt {u w : String} (huw : g.Edge u w) (hne : ¬ g.Mutual u w) :
    g.order.1.idxOf w < g.order.1.idxOf u := by
  obtain ⟨c, hc, huc⟩ := g.exists_component huw.source
  obtain ⟨pre, post, hsplit⟩ := List.append_of_mem hc
  have hwc : w ∉ c := fun hw => hne ((g.mem_component_iff hc huc w).1 hw)
  have hwpre : w ∈ pre.flatten :=
    (g.components_ordered pre c post hsplit u huc w huw).resolve_left hwc
  have horder : g.order.1 = pre.flatten ++ (c ++ post.flatten) := by
    show g.components.flatten = _
    rw [hsplit, List.flatten_append, List.flatten_cons]
  have hupre : u ∉ pre.flatten := by
    intro hu
    have hnodup := g.nodup_order
    rw [horder] at hnodup
    exact (List.nodup_append.1 hnodup).2.2 u hu u (List.mem_append_left _ huc) rfl
  rw [horder, List.idxOf_append_of_mem hwpre, List.idxOf_append_of_notMem hupre]
  have := List.idxOf_lt_length_of_mem hwpre
  omega

/-! ### Cycles -/

/-- A group stands for a cycle when it has two modules or its module imports itself. -/
theorem cycleOf_isSome_iff {c : List String} (hc : c ≠ []) :
    (g.cycleOf c).isSome = true ↔ 2 ≤ c.length ∨ ∃ u ∈ c, u ∈ g.importsOf u := by
  match c with
  | [] => exact absurd rfl hc
  | [u] => simp [cycleOf, importsSelf]
  | u :: w :: r => simp [cycleOf]

/-- **Cycles are reported.**  The order comes with a cycle when a group has two modules or a module
imports itself, and only then. -/
theorem order_isSome_iff :
    g.order.2.isSome = true ↔
      (∃ c ∈ g.components, 2 ≤ c.length) ∨ ∃ u, g.has u = true ∧ u ∈ g.importsOf u := by
  have hfind : g.order.2.isSome = true ↔ ∃ c ∈ g.components, (g.cycleOf c).isSome = true := by
    show (g.components.findSome? g.cycleOf).isSome = true ↔ _
    rw [List.findSome?_isSome_iff]
  rw [hfind]
  constructor
  · rintro ⟨c, hc, hcycle⟩
    rcases (g.cycleOf_isSome_iff (g.component_ne_nil hc)).1 hcycle with hlen | ⟨u, hu, huu⟩
    · exact Or.inl ⟨c, hc, hlen⟩
    · exact Or.inr ⟨u, (g.mem_flatten_components u).1 (List.mem_flatten.2 ⟨c, hc, hu⟩), huu⟩
  · rintro (⟨c, hc, hlen⟩ | ⟨u, hu, huu⟩)
    · exact ⟨c, hc, (g.cycleOf_isSome_iff (g.component_ne_nil hc)).2 (Or.inl hlen)⟩
    · obtain ⟨c, hc, huc⟩ := g.exists_component hu
      exact ⟨c, hc, (g.cycleOf_isSome_iff (g.component_ne_nil hc)).2 (Or.inr ⟨u, huc, huu⟩)⟩

end

/-! ### Graphs built by additions -/

/-- The order of a graph lists each added module once. -/
theorem order_perm_ofCalls (calls : List (String × List String)) :
    (ofCalls calls).order.1.Perm (calls.map (·.1)).dedup := by
  rw [List.perm_ext_iff_of_nodup (nodup_order _) (List.nodup_dedup _)]
  intro x
  rw [mem_order, has_ofCalls, List.mem_dedup]

/-- **The order of modules is right**, for the graph of any sequence of additions: imports of modules
that were never added count for nothing, and a module may be added several times.

The groups are the classes of modules that lead to each other along recorded imports, and together they
hold every added module once.  The order holds every added module once, and an import of another group
comes before the module that imports it.  A cycle is reported exactly when a group has two modules or a
module imports itself. -/
theorem order_ofCalls (calls : List (String × List String)) :
    (∀ c ∈ (ofCalls calls).components, c ≠ [] ∧ ∀ u ∈ c, ∀ w,
        w ∈ c ↔ ReflTransGen (Linked calls) u w ∧ ReflTransGen (Linked calls) w u) ∧
      (ofCalls calls).components.flatten.Perm (calls.map (·.1)).dedup ∧
      (ofCalls calls).order.1.Perm (calls.map (·.1)).dedup ∧
      (∀ u w, Linked calls u w → (¬ ∃ c ∈ (ofCalls calls).components, u ∈ c ∧ w ∈ c) →
        (ofCalls calls).order.1.idxOf w < (ofCalls calls).order.1.idxOf u) ∧
      ((ofCalls calls).order.2.isSome = true ↔
        (∃ c ∈ (ofCalls calls).components, 2 ≤ c.length) ∨
          ∃ u ∈ calls.map (·.1), Recorded calls u u) := by
  have hreaches : (ofCalls calls).Reaches = ReflTransGen (Linked calls) := by
    have hedge : (ofCalls calls).Edge = Linked calls := by
      funext u w
      exact propext (edge_ofCalls calls u w)
    show ReflTransGen (ofCalls calls).Edge = ReflTransGen (Linked calls)
    rw [hedge]
  refine ⟨?_, order_perm_ofCalls calls, order_perm_ofCalls calls, ?_, ?_⟩
  · intro c hc
    refine ⟨component_ne_nil _ hc, fun u hu w => ?_⟩
    rw [← hreaches]
    exact mem_component_iff _ hc hu w
  · intro u w huw hapart
    have hedge : (ofCalls calls).Edge u w := (edge_ofCalls calls u w).2 huw
    refine idxOf_order_lt _ hedge fun hmutual => hapart ?_
    obtain ⟨c, hc, huc⟩ := exists_component _ hedge.source
    exact ⟨c, hc, huc, (mem_component_iff _ hc huc w).2 hmutual⟩
  · refine (order_isSome_iff _).trans (or_congr Iff.rfl (exists_congr fun u => ?_))
    rw [has_ofCalls, mem_importsOf_ofCalls]

end TreeCheck.ModuleGraph
