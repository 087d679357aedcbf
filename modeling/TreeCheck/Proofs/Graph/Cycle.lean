import Mathlib
import TreeCheck.Proofs.Graph.Order

/-!
# The reported import cycle

A cycle is reported as its group in order of names, with the first name again at the end.  The names are
not met in this order along imports, so in a group of three modules or more the path need not be a cycle.

* `components_sorted` — a group lists its modules in order of names;
* `Follows` — the module that comes next around a group, in order of names;
* `isChain_closed_iff` — the consecutive names of a group closed up are those that follow each other;
* `order_cycle_iff` — a reported path starts and ends with one module, consecutive modules lead to each
  other, and it is a cycle of imports exactly if, wherever there is a third module, the modules that follow
  each other import each other;
* `not_isChain_triangle` — a cycle of three modules that is reported against its imports.
-/

namespace TreeCheck

theorem pairwise_sortedNames (names : List String) : (sortedNames names).Pairwise (· ≤ ·) := by
  have hsorted := @List.pairwise_mergeSort _ (fun a b : String => decide (a ≤ b))
    (fun a b c hab hbc => decide_eq_true ((of_decide_eq_true hab).trans (of_decide_eq_true hbc)))
    (fun a b => by simpa using le_total a b) names
  exact hsorted.imp fun hab => of_decide_eq_true hab

namespace ModuleGraph

open Relation

/-! ### Groups in order of names -/

namespace Search

/-- The closed groups list their modules in order of names. -/
def Sorted (s : Search) : Prop := ∀ c ∈ s.groups, c.Pairwise (· ≤ ·)

theorem Sorted.close {s : Search} (h : s.Sorted) (id : String) : (s.close id).Sorted := by
  intro c hc
  rcases List.mem_append.1 hc with hc | hc
  · exact h c hc
  · rw [List.mem_singleton.1 hc]
    exact pairwise_sortedNames _

end Search

section
variable (g : ModuleGraph)

/-- The groups found by a visit stay sorted. -/
theorem visit_sorted (n : ℕ) {s : Search} (hs : s.Sorted) (id : String) : (g.visit n s id).1.Sorted := by
  induction n generalizing s id with
  | zero => exact hs
  | succ n ih =>
      have hfollow : ∀ (ids : List String) (r : Search × ℕ), r.1.Sorted →
          (ids.foldl (Search.follow (g.visit n)) r).1.Sorted := by
        intro ids
        induction ids with
        | nil => exact fun _ hr => hr
        | cons i ids ihids =>
            intro r hr
            refine ihids _ ?_
            rw [Search.follow]
            split
            · exact ih hr i
            · split <;> exact hr
      have hfold := hfollow (g.edges id) (s.enter id, s.next) hs
      rw [visit]
      split
      · exact hfold.close id
      · exact hfold

theorem searched_sorted : g.searched.Sorted := by
  have hroots : ∀ (ids : List String) (s : Search), s.Sorted → (ids.foldl g.visitRoot s).Sorted := by
    intro ids
    induction ids with
    | nil => exact fun _ hs => hs
    | cons i ids ih =>
        intro s hs
        refine ih _ ?_
        rw [visitRoot]
        split
        · exact g.visit_sorted _ hs i
        · exact hs
  exact hroots g.modules {} fun _ hc => absurd hc List.not_mem_nil

/-- A group lists each of its modules once, in order of names. -/
theorem components_sorted {c : List String} (hc : c ∈ g.components) : c.Pairwise (· < ·) := by
  have hnodup : c.Nodup := (List.nodup_flatten.1 g.nodup_flatten_components).1 c hc
  exact (g.searched_sorted c hc).imp₂ (fun _ _ hle hne => lt_of_le_of_ne hle hne) hnodup

/-! ### Around a group -/

/-- The module that comes next in a group: the next one in order of names, and after the last the first. -/
def Follows (u w : String) : Prop :=
  g.Mutual u w ∧ ((u < w ∧ ∀ v, g.Mutual u v → u < v → w ≤ v) ∨ ∀ v, g.Mutual u v → w ≤ v ∧ v ≤ u)

variable {g}

/-- At most one module comes next. -/
theorem Follows.unique {u w w' : String} (h : g.Follows u w) (h' : g.Follows u w') : w = w' := by
  obtain ⟨huw, ⟨hlt, hnext⟩ | hends⟩ := h
  · obtain ⟨huw', ⟨hlt', hnext'⟩ | hends'⟩ := h'
    · exact le_antisymm (hnext w' huw' hlt') (hnext' w huw hlt)
    · exact absurd hlt (hends' w huw).2.not_gt
  · obtain ⟨huw', ⟨hlt', -⟩ | hends'⟩ := h'
    · exact absurd hlt' (hends w' huw').2.not_gt
    · exact le_antisymm (hends w' huw').1 (hends' w huw).1

section

variable {ids : List String} (hids : ids ∈ g.components)

include hids

theorem getElem_le_getElem {i j : ℕ} (hj : j < ids.length) (hij : i ≤ j) : ids[i] ≤ ids[j] := by
  rcases hij.lt_or_eq with hij | rfl
  · exact (List.pairwise_iff_getElem.1 (g.components_sorted hids) i j _ hj hij).le
  · exact le_rfl

theorem follows_succ {i : ℕ} (hi : i + 1 < ids.length) : g.Follows ids[i] ids[i + 1] := by
  have hclass := g.mem_component_iff hids (List.getElem_mem (Nat.lt_of_succ_lt hi))
  refine ⟨(hclass _).1 (List.getElem_mem hi), Or.inl ⟨?_, fun v hv hlt => ?_⟩⟩
  · exact List.pairwise_iff_getElem.1 (g.components_sorted hids) i (i + 1) _ hi i.lt_succ_self
  · obtain ⟨j, hj, rfl⟩ := List.mem_iff_getElem.1 ((hclass v).2 hv)
    refine getElem_le_getElem hids hj (Nat.succ_le_of_lt (Nat.lt_of_not_le fun hji => ?_))
    exact absurd hlt (getElem_le_getElem hids (Nat.lt_of_succ_lt hi) hji).not_gt

/-- The last name of a walk is followed by the first. -/
theorem follows_last (hpos : 0 < ids.length) (hlast : ids.length - 1 < ids.length) :
    g.Follows ids[ids.length - 1] ids[0] := by
  have hclass := g.mem_component_iff hids (List.getElem_mem hlast)
  refine ⟨(hclass _).1 (List.getElem_mem hpos), Or.inr fun v hv => ?_⟩
  obtain ⟨j, hj, rfl⟩ := List.mem_iff_getElem.1 ((hclass v).2 hv)
  exact ⟨getElem_le_getElem hids hj j.zero_le, getElem_le_getElem hids (by omega) (by omega)⟩

/-- **Consecutive names of a group closed up follow each other**, and all that follow each other are
consecutive. -/
theorem isChain_closed_iff {a : String} (ha : ids.head? = some a) (R : String → String → Prop) :
    (ids ++ [a]).IsChain R ↔ ∀ u ∈ ids, ∀ w, g.Follows u w → R u w := by
  have hpos : 0 < ids.length := List.length_pos_iff.2 (g.component_ne_nil hids)
  obtain rfl : a = ids[0] := by
    rw [List.head?_eq_getElem?, List.getElem?_eq_getElem hpos] at ha
    exact (Option.some.inj ha).symm
  -- the name behind position `i` follows the name at `i`
  have hnext : ∀ i (hi : i < ids.length), ∃ w, g.Follows ids[i] w ∧ (ids ++ [ids[0]])[i + 1]? = some w := by
    intro i hi
    by_cases hlast : i + 1 < ids.length
    · refine ⟨ids[i + 1], follows_succ hids hlast, ?_⟩
      rw [List.getElem?_append_left hlast, List.getElem?_eq_getElem hlast]
    · obtain rfl : i = ids.length - 1 := by omega
      refine ⟨ids[0], follows_last hids hpos hi, ?_⟩
      rw [List.getElem?_append_right (by omega)]
      simp [Nat.sub_add_cancel hpos]
  have hsame : ∀ i (hi : i < ids.length) (hlt : i < (ids ++ [ids[0]]).length), (ids ++ [ids[0]])[i] = ids[i] :=
    fun i hi _ => List.getElem_append_left hi
  rw [List.isChain_iff_getElem]
  constructor
  · intro hchain u hu w hw
    obtain ⟨i, hi, rfl⟩ := List.mem_iff_getElem.1 hu
    obtain ⟨w', hw', hget⟩ := hnext i hi
    obtain ⟨hlt, hget⟩ := List.getElem?_eq_some_iff.1 hget
    have hstep := hchain i hlt
    rwa [hget, hsame i hi (Nat.lt_of_succ_lt hlt), ← hw.unique hw'] at hstep
  · intro h i hi
    have hi' : i < ids.length := by simpa using hi
    obtain ⟨w, hw, hget⟩ := hnext i hi'
    obtain ⟨_, hget⟩ := List.getElem?_eq_some_iff.1 hget
    rw [hget, hsame i hi' (hi'.trans (by simp))]
    exact h _ (List.getElem_mem hi') w hw

end

/-! ### The reported path -/

/-- A module that leads to another one imports a module from which the other is reached. -/
theorem Reaches.exists_edge {u w : String} (h : g.Reaches u w) (hne : u ≠ w) :
    ∃ v, v ≠ u ∧ g.Edge u v ∧ g.Reaches v w := by
  induction h with
  | refl => exact absurd rfl hne
  | @tail x y _ hxy ih =>
      by_cases hx : u = x
      · subst hx
        exact ⟨y, hne.symm, hxy, .refl⟩
      · obtain ⟨v, hv, huv, hvx⟩ := ih hx
        exact ⟨v, hv, huv, hvx.tail hxy⟩

/-- Two modules that are a group of their own import each other. -/
theorem Mutual.edge_of_pair {u w : String} (h : g.Mutual u w) (hne : u ≠ w)
    (hpair : ∀ v, g.Mutual u v → v = u ∨ v = w) : g.Edge u w := by
  obtain ⟨v, hv, huv, hvw⟩ := Reaches.exists_edge h.1 hne
  obtain rfl := (hpair v ⟨.single huv, hvw.trans h.2⟩).resolve_left hv
  exact huv

/-- A reported path is a group closed up; a module alone is reported if it imports itself. -/
theorem order_eq_some {path : List String} (h : g.order.2 = some path) :
    ∃ c ∈ g.components, ∃ a, c.head? = some a ∧ path = c ++ [a] ∧
      ((∀ v, g.Mutual a v → v = a) → g.Edge a a) := by
  obtain ⟨c, hc, hcycle⟩ := List.exists_of_findSome?_eq_some (show g.components.findSome? g.cycleOf = _ from h)
  match c with
  | [] => cases hcycle
  | [a] =>
      rw [cycleOf] at hcycle
      split at hcycle
      · next hself =>
          refine ⟨[a], hc, a, rfl, (Option.some.inj hcycle).symm, fun _ => ⟨?_, ?_⟩⟩
          · simpa [importsSelf] using hself
          · exact (g.mem_flatten_components a).1 (List.mem_flatten.2 ⟨[a], hc, .head _⟩)
      · cases hcycle
  | a :: b :: r =>
      refine ⟨a :: b :: r, hc, a, rfl, (Option.some.inj hcycle).symm, fun hone => ?_⟩
      have hlt : a < b := (List.pairwise_cons.1 (g.components_sorted hc)).1 b (.head _)
      have hab := (g.mem_component_iff hc (.head _) b).1 (.tail _ (.head _))
      exact absurd hlt (hone b hab ▸ lt_irrefl a)

/-- **What a reported path is.**  It starts and ends with one module, and each of its modules leads to the
next one along imports.  It is a cycle of imports, each module importing the next one, exactly if in a
group with a third module the modules that follow each other in order of names import each other. -/
theorem order_cycle_iff {path : List String} (h : g.order.2 = some path) :
    1 < path.length ∧ path.head? = path.getLast? ∧ path.IsChain (TransGen g.Edge) ∧
      (path.IsChain g.Edge ↔
        ∀ u ∈ path, ∀ w, g.Follows u w → (∃ v, g.Mutual u v ∧ v ≠ u ∧ v ≠ w) → g.Edge u w) := by
  obtain ⟨c, hc, a, ha, rfl, hself⟩ := order_eq_some h
  have hac : a ∈ c := List.mem_of_mem_head? ha
  -- a module that follows itself is alone in its group
  have halone : ∀ u ∈ c, g.Follows u u → g.Edge u u := by
    intro u hu huu
    have hone : ∀ v, g.Mutual u v → v = u := by
      intro v hv
      rcases huu.2 with ⟨hlt, -⟩ | hends
      · exact absurd hlt (lt_irrefl u)
      · exact le_antisymm (hends v hv).2 (hends v hv).1
    obtain rfl := hone a ((g.mem_component_iff hc hu a).1 hac)
    exact hself hone
  refine ⟨?_, ?_, (isChain_closed_iff hc ha _).2 fun u hu w hw => ?_, ?_⟩
  · have := List.length_pos_of_mem hac
    rw [List.length_append, List.length_singleton]
    omega
  · rw [List.head?_append, ha, Option.some_or, List.getLast?_concat]
  · by_cases hne : w = u
    · subst hne
      exact .single (halone w hu hw)
    · exact (reflTransGen_iff_eq_or_transGen.1 hw.1.1).resolve_left hne
  · rw [isChain_closed_iff hc ha]
    constructor
    · intro hall u hu w hw _
      rcases List.mem_append.1 hu with hu | hu
      · exact hall u hu w hw
      · exact hall u (List.mem_singleton.1 hu ▸ hac) w hw
    · intro hthree u hu w hw
      by_cases hthird : ∃ v, g.Mutual u v ∧ v ≠ u ∧ v ≠ w
      · exact hthree u (List.mem_append_left _ hu) w hw hthird
      · by_cases hne : u = w
        · subst hne
          exact halone u hu hw
        · refine Mutual.edge_of_pair hw.1 hne fun v hv => ?_
          by_contra hv'
          exact hthird ⟨v, hv, not_or.1 hv'⟩

/-- Three modules that import each other in the order of their names. -/
def ring : ModuleGraph := ofCalls [("a", ["b"]), ("b", ["c"]), ("c", ["a"])]

/-- In the ring the reported path is the cycle of the imports. -/
theorem order_cycle_ring :
    ring.order.2 = some ["a", "b", "c", "a"] ∧ ["a", "b", "c", "a"].IsChain ring.Edge := by
  have horder : ring.order.2 = some ["a", "b", "c", "a"] := by cbv
  have hcomponents : ring.components = [["a", "b", "c"]] := by cbv
  have hc : ["a", "b", "c"] ∈ ring.components := by rw [hcomponents]; exact .head _
  have hab : ring.Follows "a" "b" := follows_succ hc (i := 0) (by decide)
  have hbc : ring.Follows "b" "c" := follows_succ hc (i := 1) (by decide)
  have hca : ring.Follows "c" "a" := follows_last hc (by decide) (by decide)
  refine ⟨horder, (order_cycle_iff horder).2.2.2.2 fun u hu w hw _ => ?_⟩
  have hu : u = "a" ∨ u = "b" ∨ u = "c" := by simpa [or_comm, or_left_comm, or_assoc] using hu
  rcases hu with rfl | rfl | rfl
  · obtain rfl := hw.unique hab
    exact ⟨by decide, by decide⟩
  · obtain rfl := hw.unique hbc
    exact ⟨by decide, by decide⟩
  · obtain rfl := hw.unique hca
    exact ⟨by decide, by decide⟩

/-- Three modules that import each other against the order of their names. -/
def triangle : ModuleGraph := ofCalls [("a", ["c"]), ("c", ["b"]), ("b", ["a"])]

/-- **A reported path need not be a cycle**: none of the three imports that the path of the triangle names
is there. -/
theorem not_isChain_triangle :
    triangle.order.2 = some ["a", "b", "c", "a"] ∧ ¬ ["a", "b", "c", "a"].IsChain triangle.Edge := by
  refine ⟨by cbv, fun hchain => ?_⟩
  have hab : "b" ∈ triangle.importsOf "a" := (List.isChain_cons_cons.1 hchain).1.1
  revert hab
  decide

end

end ModuleGraph

end TreeCheck
