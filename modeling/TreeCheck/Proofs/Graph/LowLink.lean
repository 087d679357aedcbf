import TreeCheck.Proofs.Graph.Reach

/-!
# The search for groups

The search keeps the modules of open groups on a stack and returns from a module with the lowest number
that its imports lead to on that stack.  What makes this find the groups is one invariant, kept by every
step:

* `Search.Inv` — the invariant, for the way `path` from the root to the module that is being visited.
  Modules on the way lead to all that stands above them on the stack, and everything on the stack
  leads back to a module on the way; so modules of one open group stay together on the stack;
* `Search.Visited` — what a visit gives: the invariant again, with the number that it returns;
* `Search.Following` — the same in the middle of a visit, after some of the imports;
* `visit_visited` — every visit keeps it, by induction on the bound of the search;
* `search_inv` — so the whole search ends with it, with an empty stack.
-/

namespace TreeCheck.ModuleGraph

open Relation

namespace Search

def Entered (s : Search) (id : String) : Prop := id ∈ s.index.keys

/-- The number of a module that was entered. -/
def rank (s : Search) (id : String) : Nat := (s.number? id).getD 0

/-! ### The operations of a search, through `Entered` and `rank` -/

theorem number?_eq_none_iff (s : Search) (id : String) : s.number? id = none ↔ ¬ s.Entered id :=
  Assoc.get?_eq_none_iff s.index id

/-- A module with a number is entered, and the number is its rank. -/
theorem entered_of_number? {s : Search} {id : String} {n : Nat} (h : s.number? id = some n) :
    s.Entered id ∧ s.rank id = n := by
  constructor
  · by_contra hn
    rw [(number?_eq_none_iff s id).2 hn] at h
    cases h
  · rw [rank, h, Option.getD_some]

theorem number?_enter (s : Search) (v x : String) :
    (s.enter v).number? x = if v = x then some s.next else s.number? x :=
  Assoc.get?_set s.index v s.next x

theorem entered_enter (s : Search) (v x : String) : (s.enter v).Entered x ↔ x = v ∨ s.Entered x := by
  have h := number?_eq_none_iff (s.enter v) x
  rw [number?_enter] at h
  by_cases hx : v = x
  · subst hx
    simp only [if_true, reduceCtorEq, false_iff, not_not] at h
    simp [h]
  · rw [if_neg hx, number?_eq_none_iff, not_iff_not] at h
    have hx' : ¬ x = v := fun e => hx e.symm
    simp [← h, hx']

theorem rank_enter_self (s : Search) (v : String) : (s.enter v).rank v = s.next := by
  rw [rank, number?_enter, if_pos rfl, Option.getD_some]

theorem rank_enter_of_ne (s : Search) {v x : String} (h : x ≠ v) :
    (s.enter v).rank x = s.rank x := by
  rw [rank, number?_enter, if_neg (fun e => h e.symm), rank]

theorem next_enter {s : Search} {v : String} (h : ¬ s.Entered v) : (s.enter v).next = s.next + 1 :=
  Assoc.length_set_of_not_mem s.index s.next h

/-- A list cut at the first occurrence of a name. -/
theorem takeWhile_append_self {new rest : List String} {v : String} (h : v ∉ new) :
    (new ++ v :: rest).takeWhile (· != v) = new ∧ (new ++ v :: rest).dropWhile (· != v) = v :: rest := by
  have hnew : ∀ x ∈ new, (x != v) = true := by
    intro x hx
    simpa using fun e : x = v => h (e ▸ hx)
  constructor
  · rw [List.takeWhile_append_of_pos hnew]
    simp
  · rw [List.dropWhile_append_of_pos hnew]
    simp

/-- Closing a module takes it and all above it from the stack. -/
theorem stack_close {s : Search} {v : String} {new rest : List String}
    (hs : s.stack = new ++ v :: rest) (hv : v ∉ new) : (s.close v).stack = rest := by
  simp only [close, hs, (takeWhile_append_self hv).2, List.tail_cons]

/-- A stack with a module splits into what is above, the module, and what is below. -/
theorem mem_stack_split {s : Search} {v : String} {new rest : List String}
    (hs : s.stack = new ++ v :: rest) (x : String) : x ∈ s.stack ↔ x ∈ new ++ [v] ∨ x ∈ rest := by
  rw [hs]
  simp only [List.mem_append, List.mem_cons, List.not_mem_nil, or_false]
  tauto

/-- Closing a module puts out the group above it, sorted. -/
theorem groups_close {s : Search} {v : String} {new rest : List String}
    (hs : s.stack = new ++ v :: rest) (hv : v ∉ new) :
    (s.close v).groups = s.groups ++ [sortedNames (new ++ [v])] := by
  simp only [close, hs, (takeWhile_append_self hv).1]

/-! ### Groups in order -/

/-- Every group imports only itself and the groups before it. -/
def Ordered (g : ModuleGraph) (groups : List (List String)) : Prop :=
  ∀ pre c post, groups = pre ++ c :: post → ∀ x ∈ c, ∀ y, g.Edge x y → y ∈ c ∨ y ∈ pre.flatten

/-- A group whose imports lie within it or before it may come next. -/
theorem Ordered.snoc {g : ModuleGraph} {groups : List (List String)} (h : Ordered g groups)
    {d : List String} (hd : ∀ x ∈ d, ∀ y, g.Edge x y → y ∈ d ∨ y ∈ groups.flatten) :
    Ordered g (groups ++ [d]) := by
  intro pre c post hsplit x hx y hxy
  rcases List.eq_nil_or_concat post with rfl | ⟨post', e, rfl⟩
  · -- `c` is the last group
    obtain ⟨rfl, hc⟩ := List.append_inj' hsplit rfl
    obtain rfl : d = c := by simpa using hc
    exact hd x hx y hxy
  · have hsplit' : groups ++ [d] = (pre ++ c :: post') ++ [e] := by simpa using hsplit
    obtain ⟨hgroups, _⟩ := List.append_inj' hsplit' rfl
    exact h pre c post' hgroups x hx y hxy

/-- Groups in order import only themselves. -/
theorem Ordered.mem_flatten {g : ModuleGraph} {groups : List (List String)} (h : Ordered g groups)
    {x y : String} (hx : x ∈ groups.flatten) (hxy : g.Edge x y) : y ∈ groups.flatten := by
  obtain ⟨c, hc, hxc⟩ := List.mem_flatten.1 hx
  obtain ⟨pre, post, rfl⟩ := List.append_of_mem hc
  have hy := h pre c post rfl x hxc y hxy
  simp only [List.flatten_append, List.flatten_cons, List.mem_append]
  tauto

/-! ### What every step keeps -/

/-- A later state of the search: numbers stay, new ones are higher, and what was on the stack is still
its lower part. -/
structure Extends (s s' : Search) : Prop where
  entered : ∀ x, s.Entered x → s'.Entered x
  rank : ∀ x, s.Entered x → s'.rank x = s.rank x
  fresh : ∀ x, s'.Entered x → ¬ s.Entered x → s.next ≤ s'.rank x
  next : s.next ≤ s'.next
  stack : s.stack <:+ s'.stack

/-- Extensions of a search may be chained. -/
theorem Extends.trans {s₁ s₂ s₃ : Search} (h₁ : Extends s₁ s₂) (h₂ : Extends s₂ s₃) :
    Extends s₁ s₃ where
  entered x hx := h₂.entered x (h₁.entered x hx)
  rank x hx := (h₂.rank x (h₁.entered x hx)).trans (h₁.rank x hx)
  fresh x hx hn := by
    by_cases h : s₂.Entered x
    · rw [h₂.rank x h]
      exact h₁.fresh x h hn
    · exact h₁.next.trans (h₂.fresh x hx h)
  next := h₁.next.trans h₂.next
  stack := h₁.stack.trans h₂.stack

/-- Entering a new module extends the search. -/
theorem extends_enter {s : Search} {v : String} (h : ¬ s.Entered v) : Extends s (s.enter v) where
  entered x hx := (entered_enter s v x).2 (Or.inr hx)
  rank x hx := rank_enter_of_ne s (fun e => h (e ▸ hx))
  fresh x hx hn := by
    rcases (entered_enter s v x).1 hx with rfl | hx
    · rw [rank_enter_self]
    · exact absurd hx hn
  next := by rw [next_enter h]; omega
  stack := List.suffix_cons v s.stack

/-- **The invariant of the search.**  `path` holds the modules whose visits are under way, those on the
way from the root. -/
structure Inv (g : ModuleGraph) (path : List String) (s : Search) : Prop where
  has : ∀ x, s.Entered x → g.has x = true
  nodup_index : s.index.keys.Nodup
  rank_lt : ∀ x, s.Entered x → s.rank x < s.next
  entered_iff : ∀ x, s.Entered x ↔ x ∈ s.stack ∨ x ∈ s.groups.flatten
  disjoint : ∀ x ∈ s.stack, x ∉ s.groups.flatten
  nodup_groups : s.groups.flatten.Nodup
  /-- The last entered module is on top. -/
  descending : s.stack.Pairwise fun x y => s.rank y < s.rank x
  on_stack : ∀ x ∈ path, x ∈ s.stack
  /-- Whatever is not under way has had all its imports entered. -/
  followed : ∀ x, s.Entered x → x ∉ path → ∀ y, g.Edge x y → s.Entered y
  /-- A module on the way leads to all that stands above it. -/
  leads : ∀ x ∈ path, ∀ y ∈ s.stack, s.rank x ≤ s.rank y → g.Reaches x y
  /-- All that stands on the stack leads back down to the way. -/
  returns : ∀ y ∈ s.stack, ∃ x ∈ path, s.rank x ≤ s.rank y ∧ g.Reaches y x
  nonempty : ∀ c ∈ s.groups, c ≠ []
  classes : ∀ c ∈ s.groups, ∀ x ∈ c, ∀ y, y ∈ c ↔ g.Mutual x y
  ordered : Ordered g s.groups

theorem inv_empty (g : ModuleGraph) : Inv g [] {} where
  has x hx := by simp [Entered, Assoc.keys] at hx
  nodup_index := by simp [Assoc.keys]
  rank_lt x hx := by simp [Entered, Assoc.keys] at hx
  entered_iff x := by simp [Entered, Assoc.keys]
  disjoint := by simp
  nodup_groups := by simp
  descending := by simp
  on_stack := by simp
  followed x hx := by simp [Entered, Assoc.keys] at hx
  leads := by simp
  returns := by simp
  nonempty := by simp
  classes := by simp
  ordered pre c post h := by simp at h

section
variable {g : ModuleGraph} {path : List String} {s : Search} {v : String}

theorem Inv.entered_of_stack (h : Inv g path s) {x : String} (hx : x ∈ s.stack) : s.Entered x :=
  (h.entered_iff x).2 (Or.inl hx)

theorem Inv.nodup_stack (h : Inv g path s) : s.stack.Nodup := by
  refine List.Pairwise.imp ?_ h.descending
  rintro x y hxy rfl
  exact Nat.lt_irrefl _ hxy

/-- What stands above a module on the stack has a higher number, and what stands below a lower one. -/
theorem Inv.split_rank (h : Inv g path s) {new rest : List String} (hs : s.stack = new ++ v :: rest) :
    (∀ x ∈ new, s.rank v < s.rank x) ∧ (∀ x ∈ rest, s.rank x < s.rank v) := by
  have hd := h.descending
  rw [hs, List.pairwise_append, List.pairwise_cons] at hd
  exact ⟨fun x hx => hd.2.2 x hx v (by simp), hd.2.1.1⟩

/-- The bound of the search is not reached before a new module. -/
theorem Inv.next_lt (h : Inv g path s) (hv : ¬ s.Entered v) (hg : g.has v = true) :
    s.next < g.modules.length := by
  have hsub : v :: s.index.keys ⊆ g.modules := by
    intro x hx
    rcases List.mem_cons.1 hx with rfl | hx
    · exact (mem_modules g x).2 hg
    · exact (mem_modules g x).2 (h.has x hx)
  have hlen := (List.Nodup.subperm (List.nodup_cons.2 ⟨hv, h.nodup_index⟩) hsub).length_le
  simpa [next, Assoc.keys] using hlen

/-! ### Entering a module -/

/-- The invariant holds after a module is entered below the path that reaches it. -/
theorem Inv.enter (h : Inv g path s) (hv : ¬ s.Entered v) (hg : g.has v = true)
    (hp : ∀ x ∈ path, g.Reaches x v) : Inv g (v :: path) (s.enter v) where
  has x hx := by
    rcases (entered_enter s v x).1 hx with rfl | hx
    · exact hg
    · exact h.has x hx
  nodup_index := Assoc.nodup_keys_set s.index v s.next h.nodup_index
  rank_lt x hx := by
    rw [next_enter hv]
    rcases (entered_enter s v x).1 hx with rfl | hx
    · rw [rank_enter_self]
      omega
    · rw [(extends_enter hv).rank x hx]
      have := h.rank_lt x hx
      omega
  entered_iff x := by
    rw [entered_enter, h.entered_iff]
    simp only [Search.enter, List.mem_cons]
    tauto
  disjoint x hx := by
    rcases List.mem_cons.1 hx with rfl | hx
    · intro hx'
      exact hv ((h.entered_iff x).2 (Or.inr hx'))
    · exact h.disjoint x hx
  nodup_groups := h.nodup_groups
  descending := by
    have hrank : ∀ x ∈ s.stack, (s.enter v).rank x = s.rank x := fun x hx =>
      (extends_enter hv).rank x (h.entered_of_stack hx)
    refine List.pairwise_cons.2 ⟨?_, List.Pairwise.imp_of_mem ?_ h.descending⟩
    · intro x hx
      rw [rank_enter_self, hrank x hx]
      exact h.rank_lt x (h.entered_of_stack hx)
    · intro x y hx hy hxy
      rw [hrank x hx, hrank y hy]
      exact hxy
  on_stack x hx := by
    rcases List.mem_cons.1 hx with rfl | hx
    · exact List.mem_cons_self
    · exact List.mem_cons_of_mem _ (h.on_stack x hx)
  followed x hx hxp y hxy := by
    rw [List.mem_cons, not_or] at hxp
    have hx' : s.Entered x := ((entered_enter s v x).1 hx).resolve_left hxp.1
    exact (extends_enter hv).entered y (h.followed x hx' hxp.2 y hxy)
  leads x hx y hy hxy := by
    rcases List.mem_cons.1 hy with rfl | hy
    · rcases List.mem_cons.1 hx with rfl | hx
      · exact ReflTransGen.refl
      · exact hp x hx
    · have hye := h.entered_of_stack hy
      rw [(extends_enter hv).rank y hye] at hxy
      rcases List.mem_cons.1 hx with rfl | hx
      · rw [rank_enter_self] at hxy
        have := h.rank_lt y hye
        omega
      · rw [(extends_enter hv).rank x (h.entered_of_stack (h.on_stack x hx))] at hxy
        exact h.leads x hx y hy hxy
  returns y hy := by
    rcases List.mem_cons.1 hy with rfl | hy
    · exact ⟨y, List.mem_cons_self, le_refl _, ReflTransGen.refl⟩
    · obtain ⟨x, hx, hxy, hyx⟩ := h.returns y hy
      refine ⟨x, List.mem_cons_of_mem _ hx, ?_, hyx⟩
      rw [(extends_enter hv).rank x (h.entered_of_stack (h.on_stack x hx)),
        (extends_enter hv).rank y (h.entered_of_stack hy)]
      exact hxy
  nonempty := h.nonempty
  classes := h.classes
  ordered := h.ordered

/-! ### Visits -/

/-- **What a visit gives.**  The visit of `v` starts in `s` and ends with the pair `r`.  Either the
group of `v` was closed on the way, and nothing is left above the old stack, or the returned number is
that of a module of the old stack, which `v` leads to.  No import from what the visit left on the stack
leads further down. -/
structure Visited (g : ModuleGraph) (path : List String) (s : Search) (v : String)
    (r : Search × Nat) : Prop where
  inv : Inv g path r.1
  grows : Extends s r.1
  entered : r.1.Entered v
  low : (r.2 = r.1.rank v ∧ r.1.stack = s.stack) ∨ ∃ y ∈ s.stack, s.rank y = r.2 ∧ g.Reaches v y
  bound : ∀ x ∈ r.1.stack, x ∉ s.stack → ∀ y ∈ s.stack, g.Edge x y → r.2 ≤ s.rank y

/-- **The middle of a visit.**  The visit of `v` started in `s`; the imports `ws` have been
followed. -/
structure Following (g : ModuleGraph) (path : List String) (s : Search) (v : String)
    (ws : List String) (r : Search × Nat) : Prop where
  inv : Inv g (v :: path) r.1
  grows : Extends (s.enter v) r.1
  entered : ∀ w ∈ ws, r.1.Entered w
  le_next : r.2 ≤ s.next
  low : r.2 = s.next ∨ ∃ y ∈ s.stack, s.rank y = r.2 ∧ g.Reaches v y
  bound : ∀ x ∈ r.1.stack, x ∉ s.stack → x ≠ v → ∀ y ∈ s.stack, g.Edge x y → r.2 ≤ s.rank y
  bound_self : ∀ w ∈ ws, w ∈ s.stack → r.2 ≤ s.rank w

/-- No import has been followed right after a module is entered. -/
theorem following_enter (h : Inv g path s) (hv : ¬ s.Entered v) (hg : g.has v = true)
    (hp : ∀ x ∈ path, g.Reaches x v) : Following g path s v [] (s.enter v, s.next) where
  inv := h.enter hv hg hp
  grows := {
    entered := fun _ hx => hx
    rank := fun _ _ => rfl
    fresh := fun _ hx hn => absurd hx hn
    next := le_refl _
    stack := List.suffix_refl _ }
  entered := by simp
  le_next := le_refl _
  low := Or.inl rfl
  bound x hx hxs hxv := by
    rcases List.mem_cons.1 hx with rfl | hx
    · exact absurd rfl hxv
    · exact absurd hx hxs
  bound_self := by simp

section
variable {ws : List String} {r : Search × Nat}

/-- The number of the module under way. -/
theorem Following.rank_self (h : Following g path s v ws r) : r.1.rank v = s.next := by
  have hv : (s.enter v).Entered v := (entered_enter s v v).2 (Or.inl rfl)
  rw [h.grows.rank v hv, rank_enter_self]

/-- Modules entered before keep their rank while imports are followed. -/
theorem Following.rank_old (h : Following g path s v ws r) (hv : ¬ s.Entered v) {x : String}
    (hx : s.Entered x) : r.1.rank x = s.rank x :=
  ((extends_enter hv).trans h.grows).rank x hx

/-- The stack is the old one, with `v` on it and what has been entered since above. -/
theorem Following.split (h : Following g path s v ws r) :
    ∃ new, r.1.stack = new ++ v :: s.stack ∧ v ∉ new ∧ ∀ x ∈ new, x ∉ s.stack := by
  obtain ⟨new, hnew⟩ := h.grows.stack
  have hsplit : r.1.stack = new ++ v :: s.stack := hnew.symm
  have hrank := h.inv.split_rank hsplit
  refine ⟨new, hsplit, fun hv => Nat.lt_irrefl _ (hrank.1 v hv), ?_⟩
  intro x hx hxs
  exact Nat.lt_asymm (hrank.1 x hx) (hrank.2 x hxs)

/-- A module of the stack with a lower number than `v` was there before `v`. -/
theorem Following.mem_old (h : Following g path s v ws r) {y : String} (hy : y ∈ r.1.stack)
    (hlt : r.1.rank y < s.next) : y ∈ s.stack := by
  obtain ⟨new, hsplit, _, _⟩ := h.split
  have hrank := h.inv.split_rank hsplit
  rw [h.rank_self] at hrank
  rw [hsplit, List.mem_append, List.mem_cons] at hy
  rcases hy with hy | rfl | hy
  · have := hrank.1 y hy
    omega
  · rw [h.rank_self] at hlt
    omega
  · exact hy

/-- An import that was not entered is visited, and the lower of the two numbers is kept. -/
theorem Following.step_visit (h : Following g path s v ws r) (hs : Inv g path s) (hv : ¬ s.Entered v)
    {w : String} (hvw : g.Edge v w) (hw : ¬ r.1.Entered w) {below : Search × Nat}
    (hb : Visited g (v :: path) r.1 w below) :
    Following g path s v (ws ++ [w]) (below.1, min r.2 below.2) where
  inv := hb.inv
  grows := h.grows.trans hb.grows
  entered x hx := by
    rcases List.mem_append.1 hx with hx | hx
    · exact hb.grows.entered x (h.entered x hx)
    · rw [List.mem_singleton.1 hx]
      exact hb.entered
  le_next := (Nat.min_le_left _ _).trans h.le_next
  low := by
    rcases Nat.le_total r.2 below.2 with hle | hle
    · rw [Nat.min_eq_left hle]
      exact h.low
    · rw [Nat.min_eq_right hle]
      rcases hb.low with ⟨hlow, _⟩ | ⟨y, hy, hylow, hwy⟩
      · -- the group of `w` is closed, and its number is above that of `v`
        have hfresh := hb.grows.fresh w hb.entered hw
        have hnext := h.grows.next
        rw [next_enter hv] at hnext
        have := h.le_next
        omega
      · rcases Nat.lt_or_ge (r.1.rank y) s.next with hlt | hge
        · have hys := h.mem_old hy hlt
          rw [h.rank_old hv (hs.entered_of_stack hys)] at hylow
          exact Or.inr ⟨y, hys, hylow, ReflTransGen.head hvw hwy⟩
        · have := h.le_next
          exact Or.inl (by omega)
  bound x hx hxs hxv y hy hxy := by
    by_cases hxr : x ∈ r.1.stack
    · exact (Nat.min_le_left _ _).trans (h.bound x hxr hxs hxv y hy hxy)
    · have hyr : y ∈ r.1.stack := h.grows.stack.subset (List.mem_cons_of_mem v hy)
      have hle := hb.bound x hx hxr y hyr hxy
      rw [h.rank_old hv (hs.entered_of_stack hy)] at hle
      exact (Nat.min_le_right _ _).trans hle
  bound_self x hx hxs := by
    rcases List.mem_append.1 hx with hx | hx
    · exact (Nat.min_le_left _ _).trans (h.bound_self x hx hxs)
    · rw [List.mem_singleton.1 hx] at hxs
      have hwr : w ∈ r.1.stack := h.grows.stack.subset (List.mem_cons_of_mem v hxs)
      exact absurd (h.inv.entered_of_stack hwr) hw

/-- An import that was entered before: on the stack its number counts, off the stack it does not. -/
theorem Following.step_seen (h : Following g path s v ws r) (hv : ¬ s.Entered v) {w : String}
    (hvw : g.Edge v w) (hw : r.1.Entered w) {low : Nat}
    (hlow : low = if r.1.stack.contains w then min r.2 (r.1.rank w) else r.2)
    (hs : Inv g path s) : Following g path s v (ws ++ [w]) (r.1, low) := by
  have hle : low ≤ r.2 := by
    rw [hlow]
    split
    · exact Nat.min_le_left _ _
    · exact le_refl _
  refine ⟨h.inv, h.grows, ?_, hle.trans h.le_next, ?_, ?_, ?_⟩
  · intro x hx
    rcases List.mem_append.1 hx with hx | hx
    · exact h.entered x hx
    · rw [List.mem_singleton.1 hx]
      exact hw
  · by_cases hmem : w ∈ r.1.stack ∧ r.1.rank w < r.2
    · have hlt : r.1.rank w < s.next := lt_of_lt_of_le hmem.2 h.le_next
      have hws := h.mem_old hmem.1 hlt
      refine Or.inr ⟨w, hws, ?_, ReflTransGen.single hvw⟩
      rw [hlow, if_pos (by simpa using hmem.1), Nat.min_eq_right hmem.2.le,
        h.rank_old hv (hs.entered_of_stack hws)]
    · have hsame : low = r.2 := by
        rw [hlow]
        split
        · rename_i hc
          have hc' : w ∈ r.1.stack := by simpa using hc
          exact Nat.min_eq_left (Nat.le_of_not_lt fun hlt => hmem ⟨hc', hlt⟩)
        · rfl
      rw [hsame]
      exact h.low
  · intro x hx hxs hxv y hy hxy
    exact hle.trans (h.bound x hx hxs hxv y hy hxy)
  · intro x hx hxs
    rcases List.mem_append.1 hx with hx | hx
    · exact hle.trans (h.bound_self x hx hxs)
    · rw [List.mem_singleton.1 hx] at hxs ⊢
      have hwr : w ∈ r.1.stack := h.grows.stack.subset (List.mem_cons_of_mem v hxs)
      rw [hlow, if_pos (by simpa using hwr), h.rank_old hv (hs.entered_of_stack hxs)]
      exact Nat.min_le_right _ _

/-- **One import.**  Following an import keeps the middle of a visit, for any way of visiting that
gives what a visit gives. -/
theorem Following.follow (h : Following g path s v ws r) (hs : Inv g path s) (hv : ¬ s.Entered v)
    {visit : Search → String → Search × Nat}
    (hvisit : ∀ s' w, s.next < s'.next → Inv g (v :: path) s' → ¬ s'.Entered w → g.Edge v w →
      Visited g (v :: path) s' w (visit s' w))
    {w : String} (hvw : g.Edge v w) : Following g path s v (ws ++ [w]) (Search.follow visit r w) := by
  unfold Search.follow
  cases hn : r.1.number? w with
  | none =>
      have hw : ¬ r.1.Entered w := (number?_eq_none_iff r.1 w).1 hn
      have hnext := h.grows.next
      rw [next_enter hv] at hnext
      exact h.step_visit hs hv hvw hw (hvisit r.1 w (by omega) h.inv hw hvw)
  | some n =>
      obtain ⟨hw, hrank⟩ := entered_of_number? hn
      have hstep := h.step_seen hv hvw hw rfl hs
      rw [hrank] at hstep
      show Following g path s v (ws ++ [w]) (if r.1.stack.contains w then (r.1, min r.2 n) else r)
      split at hstep
      · rename_i hc
        rw [if_pos hc]
        exact hstep
      · rename_i hc
        rw [if_neg hc]
        exact hstep

/-- Following the rest of the imports, one visit at a time, keeps what following promises. -/
theorem Following.foldl (hs : Inv g path s) (hv : ¬ s.Entered v)
    {visit : Search → String → Search × Nat}
    (hvisit : ∀ s' w, s.next < s'.next → Inv g (v :: path) s' → ¬ s'.Entered w → g.Edge v w →
      Visited g (v :: path) s' w (visit s' w))
    (todo : List String) (htodo : ∀ w ∈ todo, g.Edge v w) (h : Following g path s v ws r) :
    Following g path s v (ws ++ todo) (todo.foldl (Search.follow visit) r) := by
  induction todo generalizing ws r with
  | nil => simpa using h
  | cons w todo ih =>
      have hstep := h.follow hs hv hvisit (htodo w List.mem_cons_self)
      have hrest := ih (fun x hx => htodo x (List.mem_cons_of_mem _ hx)) hstep
      simpa only [List.append_assoc, List.singleton_append, List.foldl_cons] using hrest

/-! ### The end of a visit -/

/-- When all imports of `v` are followed, everything but the modules on the way has its imports
entered. -/
theorem Following.followed (h : Following g path s v (g.edges v) r) :
    ∀ x, r.1.Entered x → x ∉ path → ∀ y, g.Edge x y → r.1.Entered y := by
  intro x hx hxp y hxy
  by_cases hxv : x = v
  · subst hxv
    exact h.entered y ((mem_edges g x y).2 hxy)
  · exact h.inv.followed x hx (by simp [hxv, hxp]) y hxy

/-- If an import of `v` leads below it, `v` stays on the stack and is no longer on the way. -/
theorem Following.stay (h : Following g path s v (g.edges v) r) (hs : Inv g path s)
    (hv : ¬ s.Entered v) (hlt : r.2 < s.next) : Visited g path s v r := by
  obtain ⟨y₀, hy₀, hrank₀, hreach₀⟩ := h.low.resolve_left (Nat.ne_of_lt hlt)
  have hold : ∀ x ∈ s.stack, r.1.rank x = s.rank x := fun x hx =>
    h.rank_old hv (hs.entered_of_stack hx)
  -- the way without `v` is still below `y₀`, and all that leads back to `v` leads on to `y₀`
  obtain ⟨x₀, hx₀, hle₀, hback₀⟩ : ∃ x ∈ path, r.1.rank x ≤ r.1.rank y₀ ∧ g.Reaches y₀ x := by
    obtain ⟨x, hx, hle, hback⟩ :=
      h.inv.returns y₀ (h.grows.stack.subset (List.mem_cons_of_mem v hy₀))
    rcases List.mem_cons.1 hx with rfl | hx
    · rw [h.rank_self, hold y₀ hy₀] at hle
      omega
    · exact ⟨x, hx, hle, hback⟩
  have hinv : Inv g path r.1 := {
    has := h.inv.has
    nodup_index := h.inv.nodup_index
    rank_lt := h.inv.rank_lt
    entered_iff := h.inv.entered_iff
    disjoint := h.inv.disjoint
    nodup_groups := h.inv.nodup_groups
    descending := h.inv.descending
    on_stack := fun x hx => h.inv.on_stack x (List.mem_cons_of_mem v hx)
    followed := h.followed
    leads := fun x hx => h.inv.leads x (List.mem_cons_of_mem v hx)
    returns := by
      intro y hy
      obtain ⟨x, hx, hle, hback⟩ := h.inv.returns y hy
      rcases List.mem_cons.1 hx with rfl | hx
      · refine ⟨x₀, hx₀, ?_, (hback.trans hreach₀).trans hback₀⟩
        rw [h.rank_self] at hle
        rw [hold y₀ hy₀] at hle₀
        omega
      · exact ⟨x, hx, hle, hback⟩
    nonempty := h.inv.nonempty
    classes := h.inv.classes
    ordered := h.inv.ordered }
  refine ⟨hinv, (extends_enter hv).trans h.grows, ?_, Or.inr ⟨y₀, hy₀, hrank₀, hreach₀⟩, ?_⟩
  · exact h.grows.entered v ((entered_enter s v v).2 (Or.inl rfl))
  · intro x hx hxs y hy hxy
    by_cases hxv : x = v
    · subst hxv
      exact h.bound_self y ((mem_edges g x y).2 hxy) hy
    · exact h.bound x hx hxs hxv y hy hxy

section
variable {new : List String}

/-- What stands on the stack down to `v` and `v` lead to each other. -/
theorem Following.mutual_self (h : Following g path s v (g.edges v) r)
    (hp : ∀ x ∈ path, g.Reaches x v) (hsplit : r.1.stack = new ++ v :: s.stack) {x : String}
    (hx : x ∈ new ++ [v]) : g.Mutual v x := by
  have hxs : x ∈ r.1.stack := (mem_stack_split hsplit x).2 (Or.inl hx)
  have hle : r.1.rank v ≤ r.1.rank x := by
    rcases List.mem_append.1 hx with hx | hx
    · exact ((h.inv.split_rank hsplit).1 x hx).le
    · rw [List.mem_singleton.1 hx]
  refine ⟨h.inv.leads v List.mem_cons_self x hxs hle, ?_⟩
  obtain ⟨z, hz, _, hxz⟩ := h.inv.returns x hxs
  rcases List.mem_cons.1 hz with rfl | hz
  · exact hxz
  · exact hxz.trans (hp z hz)

/-- If no import leads below `v`, what stands on the stack down to `v` imports only itself and closed
groups. -/
theorem Following.closed_above (h : Following g path s v (g.edges v) r) (hs : Inv g path s)
    (hsplit : r.1.stack = new ++ v :: s.stack) (hnew : ∀ x ∈ new, x ∉ s.stack)
    (hlow : r.2 = s.next) {x y : String} (hx : x ∈ new ++ [v]) (hxy : g.Edge x y) :
    y ∈ new ++ [v] ∨ y ∈ r.1.groups.flatten := by
  have hxv : x ∈ new ∨ x = v := by simpa using hx
  have hxs : x ∈ r.1.stack := (mem_stack_split hsplit x).2 (Or.inl hx)
  have hye : r.1.Entered y := by
    rcases hxv with hx | rfl
    · exact h.followed x (h.inv.entered_of_stack hxs)
        (fun hxp => hnew x hx (hs.on_stack x hxp)) y hxy
    · exact h.entered y ((mem_edges g x y).2 hxy)
  rcases (h.inv.entered_iff y).1 hye with hy | hy
  · rcases (mem_stack_split hsplit y).1 hy with hy | hy
    · exact Or.inl hy
    · -- an import into the old stack would have lowered the number
      have hle : r.2 ≤ s.rank y := by
        by_cases hxv' : x = v
        · subst hxv'
          exact h.bound_self y ((mem_edges g x y).2 hxy) hy
        · exact h.bound x hxs (hnew x (hxv.resolve_right hxv')) hxv' y hy hxy
      have hlt := hs.rank_lt y (hs.entered_of_stack hy)
      omega
  · exact Or.inr hy

/-- **A closed group is a class.**  If no import leads below `v`, the modules that lead to `v` and that
`v` leads to are those on the stack down to `v`. -/
theorem Following.mem_above_iff (h : Following g path s v (g.edges v) r) (hs : Inv g path s)
    (hp : ∀ x ∈ path, g.Reaches x v) (hsplit : r.1.stack = new ++ v :: s.stack)
    (hnew : ∀ x ∈ new, x ∉ s.stack) (hlow : r.2 = s.next) (y : String) :
    y ∈ new ++ [v] ↔ g.Mutual v y := by
  constructor
  · exact h.mutual_self hp hsplit
  · rintro ⟨hvy, hyv⟩
    have hclosed : ∀ x, x ∈ new ++ [v] ∨ x ∈ r.1.groups.flatten → ∀ z, g.Edge x z →
        z ∈ new ++ [v] ∨ z ∈ r.1.groups.flatten := by
      rintro x (hx | hx) z hxz
      · exact h.closed_above hs hsplit hnew hlow hx hxz
      · exact Or.inr (h.inv.ordered.mem_flatten hx hxz)
    rcases Reaches.mem_of_closed hclosed hvy (Or.inl (by simp)) with hy | hy
    · exact hy
    · -- a closed group does not lead to an open one
      have hvg : v ∈ r.1.groups.flatten :=
        Reaches.mem_of_closed (S := (· ∈ r.1.groups.flatten))
          (fun x hx z hxz => h.inv.ordered.mem_flatten hx hxz) hyv hy
      exact absurd hvg (h.inv.disjoint v (h.inv.on_stack v List.mem_cons_self))

/-- No module of a new group was in a group before, and none is in it twice. -/
theorem Following.nodup_groups_close (h : Following g path s v (g.edges v) r)
    (hsplit : r.1.stack = new ++ v :: s.stack) (hv : v ∉ new) : (r.1.close v).groups.flatten.Nodup := by
  have hnodup : (new ++ v :: s.stack).Nodup := hsplit ▸ h.inv.nodup_stack
  rw [groups_close hsplit hv, List.flatten_append, List.flatten_singleton, List.nodup_append]
  refine ⟨h.inv.nodup_groups, ?_, ?_⟩
  · rw [(sortedNames_perm _).nodup_iff, List.nodup_append]
    refine ⟨(List.nodup_append.1 hnodup).1, by simp, ?_⟩
    intro a ha b hb hab
    rw [List.mem_singleton.1 hb] at hab
    exact hv (hab ▸ ha)
  · intro a ha b hb hab
    rw [mem_sortedNames] at hb
    exact h.inv.disjoint b ((mem_stack_split hsplit b).2 (Or.inl hb)) (hab ▸ ha)

/-- The new group is a class like the others. -/
theorem Following.classes_close (h : Following g path s v (g.edges v) r) (hs : Inv g path s)
    (hp : ∀ x ∈ path, g.Reaches x v) (hsplit : r.1.stack = new ++ v :: s.stack) (hv : v ∉ new)
    (hnew : ∀ x ∈ new, x ∉ s.stack) (hlow : r.2 = s.next) :
    ∀ c ∈ (r.1.close v).groups, c ≠ [] ∧ ∀ x ∈ c, ∀ y, y ∈ c ↔ g.Mutual x y := by
  have hclass := h.mem_above_iff hs hp hsplit hnew hlow
  intro c hc
  rw [groups_close hsplit hv, List.mem_append, List.mem_singleton] at hc
  rcases hc with hc | rfl
  · exact ⟨h.inv.nonempty c hc, h.inv.classes c hc⟩
  · constructor
    · intro he
      have hvc : v ∈ sortedNames (new ++ [v]) := by simp
      rw [he] at hvc
      cases hvc
    · intro x hx y
      rw [mem_sortedNames] at hx ⊢
      have hvx := (hclass x).1 hx
      rw [hclass]
      exact ⟨fun hvy => hvx.symm.trans hvy, fun hxy => hvx.trans hxy⟩

/-- The invariant when the group of `v` is closed. -/
theorem Following.inv_close (h : Following g path s v (g.edges v) r) (hs : Inv g path s)
    (hp : ∀ x ∈ path, g.Reaches x v) (hsplit : r.1.stack = new ++ v :: s.stack) (hv : v ∉ new)
    (hnew : ∀ x ∈ new, x ∉ s.stack) (hlow : r.2 = s.next) : Inv g path (r.1.close v) := by
  have hstack : (r.1.close v).stack = s.stack := stack_close hsplit hv
  have hmem := mem_stack_split hsplit
  have hsub : ∀ x ∈ s.stack, x ∈ r.1.stack := fun x hx => (hmem x).2 (Or.inr hx)
  have hflat : ∀ x, x ∈ (r.1.close v).groups.flatten ↔
      x ∈ r.1.groups.flatten ∨ x ∈ new ++ [v] := by
    intro x
    rw [groups_close hsplit hv, List.flatten_append, List.mem_append, List.flatten_singleton,
      mem_sortedNames]
  have hclasses := h.classes_close hs hp hsplit hv hnew hlow
  refine ⟨h.inv.has, h.inv.nodup_index, h.inv.rank_lt, ?_, ?_, h.nodup_groups_close hsplit hv, ?_, ?_,
    h.followed, ?_, ?_, fun c hc => (hclasses c hc).1, fun c hc => (hclasses c hc).2, ?_⟩
  · intro x
    rw [hstack, hflat]
    refine (h.inv.entered_iff x).trans ?_
    rw [hmem]
    tauto
  · intro x hx
    rw [hstack] at hx
    rw [hflat, not_or]
    refine ⟨h.inv.disjoint x (hsub x hx), fun hx' => ?_⟩
    rcases List.mem_append.1 hx' with hx' | hx'
    · exact hnew x hx' hx
    · rw [List.mem_singleton.1 hx'] at hx
      exact Nat.lt_irrefl _ ((h.inv.split_rank hsplit).2 v hx)
  · rw [hstack]
    exact h.inv.descending.sublist (by rw [hsplit]; simp)
  · intro x hx
    rw [hstack]
    exact hs.on_stack x hx
  · intro x hx y hy
    rw [hstack] at hy
    exact h.inv.leads x (List.mem_cons_of_mem v hx) y (hsub y hy)
  · intro y hy
    rw [hstack] at hy
    obtain ⟨x, hx, hle, hback⟩ := h.inv.returns y (hsub y hy)
    rcases List.mem_cons.1 hx with rfl | hx
    · exact absurd ((h.inv.split_rank hsplit).2 y hy) (Nat.not_lt.2 hle)
    · exact ⟨x, hx, hle, hback⟩
  · rw [groups_close hsplit hv]
    refine h.inv.ordered.snoc ?_
    intro x hx y hxy
    rw [mem_sortedNames] at hx ⊢
    exact h.closed_above hs hsplit hnew hlow hx hxy

/-- If no import of `v` leads below it, its group is closed. -/
theorem Following.visited_close (h : Following g path s v (g.edges v) r) (hs : Inv g path s)
    (hv : ¬ s.Entered v) (hp : ∀ x ∈ path, g.Reaches x v) (hlow : r.2 = s.next) :
    Visited g path s v (r.1.close v, r.2) := by
  obtain ⟨new, hsplit, hvnew, hnew⟩ := h.split
  have hstack : (r.1.close v).stack = s.stack := stack_close hsplit hvnew
  have hgrows := (extends_enter hv).trans h.grows
  refine ⟨h.inv_close hs hp hsplit hvnew hnew hlow, ?_, ?_, Or.inl ⟨?_, hstack⟩, ?_⟩
  · exact ⟨hgrows.entered, hgrows.rank, hgrows.fresh, hgrows.next, hstack ▸ List.suffix_refl _⟩
  · exact h.grows.entered v ((entered_enter s v v).2 (Or.inl rfl))
  · show r.2 = r.1.rank v
    rw [h.rank_self, hlow]
  · intro x hx hxs
    rw [hstack] at hx
    exact absurd hx hxs

end

end

end

end Search

/-! ### Whole searches -/

/-- **Every visit is sound.**  The bound counts the modules that may still be entered, and it is not
reached before there are none. -/
theorem visit_visited (g : ModuleGraph) (n : Nat) {path : List String} {s : Search} {v : String}
    (hs : s.Inv g path) (hv : ¬ s.Entered v) (hg : g.has v = true)
    (hp : ∀ x ∈ path, g.Reaches x v) (hn : g.modules.length ≤ n + s.next) :
    Search.Visited g path s v (g.visit n s v) := by
  induction n generalizing path s v with
  | zero =>
      have := hs.next_lt hv hg
      omega
  | succ n ih =>
      have hvisit : ∀ s' w, s.next < s'.next → s'.Inv g (v :: path) → ¬ s'.Entered w → g.Edge v w →
          Search.Visited g (v :: path) s' w (g.visit n s' w) := by
        intro s' w hnext hs' hw hvw
        refine ih hs' hw hvw.target ?_ (by omega)
        intro x hx
        rcases List.mem_cons.1 hx with rfl | hx
        · exact ReflTransGen.single hvw
        · exact (hp x hx).tail hvw
      have hfold := Search.Following.foldl hs hv hvisit (g.edges v)
        (fun w hw => (mem_edges g v w).1 hw) (Search.following_enter hs hv hg hp)
      rw [List.nil_append] at hfold
      rw [visit]
      split
      · rename_i hlow
        exact hfold.visited_close hs hv hp hlow
      · rename_i hlow
        exact hfold.stay hs hv (lt_of_le_of_ne hfold.le_next hlow)

/-- A visit from the top closes the module and keeps the invariant. -/
theorem visitRoot_inv (g : ModuleGraph) {s : Search} (hs : s.Inv g []) {v : String}
    (hg : g.has v = true) :
    (g.visitRoot s v).Inv g [] ∧ (g.visitRoot s v).Entered v ∧
      ∀ x, s.Entered x → (g.visitRoot s v).Entered x := by
  rw [visitRoot]
  cases hn : s.number? v with
  | none =>
      have hv := (Search.number?_eq_none_iff s v).1 hn
      have hvisited := visit_visited g g.modules.length hs hv hg (by simp) (by omega)
      exact ⟨hvisited.inv, hvisited.entered, hvisited.grows.entered⟩
  | some n => exact ⟨hs, (Search.entered_of_number? hn).1, fun _ hx => hx⟩

/-- Visits from the top close every module of the list. -/
theorem foldl_visitRoot_inv (g : ModuleGraph) (ids : List String) (hids : ∀ v ∈ ids, g.has v = true)
    {s : Search} (hs : s.Inv g []) :
    (ids.foldl g.visitRoot s).Inv g [] ∧ (∀ v ∈ ids, (ids.foldl g.visitRoot s).Entered v) ∧
      ∀ x, s.Entered x → (ids.foldl g.visitRoot s).Entered x := by
  induction ids generalizing s with
  | nil => exact ⟨hs, by simp, fun _ hx => hx⟩
  | cons v ids ih =>
      obtain ⟨hroot, hv, hkeep⟩ := visitRoot_inv g hs (hids v List.mem_cons_self)
      obtain ⟨hinv, hall, hkeep'⟩ := ih (fun x hx => hids x (List.mem_cons_of_mem _ hx)) hroot
      refine ⟨hinv, ?_, fun x hx => hkeep' x (hkeep x hx)⟩
      intro x hx
      rcases List.mem_cons.1 hx with rfl | hx
      · exact hkeep' x hv
      · exact hall x hx

/-- **The search ends with its invariant**, every module entered and no group open. -/
theorem search_inv (g : ModuleGraph) :
    g.searched.Inv g [] ∧ g.searched.stack = [] ∧
      ∀ x, g.searched.Entered x ↔ g.has x = true := by
  obtain ⟨hinv, hall, _⟩ :=
    foldl_visitRoot_inv g g.modules (fun v hv => (mem_modules g v).1 hv) (Search.inv_empty g)
  refine ⟨hinv, ?_, fun x => ⟨hinv.has x, fun hx => hall x ((mem_modules g x).2 hx)⟩⟩
  rw [List.eq_nil_iff_forall_not_mem]
  intro y hy
  obtain ⟨x, hx, _⟩ := hinv.returns y hy
  cases hx

end TreeCheck.ModuleGraph
