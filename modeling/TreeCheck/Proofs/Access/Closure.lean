import Mathlib.Order.Defs.Unbundled
import TreeCheck.Proofs.Access.Growth

/-!
# The hierarchy upwards and downwards

What stands above a class is found along the parent links, and what stands below it by a search through
the lists of direct subclasses.  The lists are kept apart from the links, and the list of the empty name
is no list of subclasses: a class that is put under the empty name has no parent.

* `ClassTable.mem_ancestors_iff`, `ClassTable.isSubclass_iff` — upwards, by the parent links;
* `ClassTable.mem_descendants_iff` — the search downwards finds what the lists lead to;
* `ClassTable.BlankApart` — the list of the empty name is not met on the way down from a class;
* `ClassTable.views_agree` — both directions agree, and being a subclass is a partial order;
* `ClassTable.not_views_agree_blank` — a class with the empty name can bring foreign classes in.
-/

namespace TreeCheck

namespace ClassTable

open Relation (TransGen ReflTransGen)

variable {t : ClassTable} {a b name : String}

/-! ### Upwards -/

/-- The search upwards leaves nothing out: no name that it met before stands above. -/
theorem Acyclic.mem_ancestorsFrom (h : t.Acyclic) (hab : TransGen t.Extends a b) {n : ℕ} (hn : t.height a ≤ n)
    {seen : List String} (hseen : ∀ s ∈ seen, t.Descends s a) : b ∈ t.ancestorsFrom n seen a := by
  induction n generalizing a seen with
  | zero =>
      obtain ⟨c, hlink, -⟩ := TransGen.head'_iff.1 hab
      have := h.height_lt hlink
      omega
  | succ n ih =>
      obtain ⟨c, hlink, hcb⟩ := TransGen.head'_iff.1 hab
      have hheight := h.height_lt hlink
      obtain ⟨k, hk, rfl, hne⟩ := id hlink
      have hfresh : ¬ seen.contains k.parent = true := fun hmem =>
        h a (TransGen.head' hlink (hseen _ (List.contains_iff_mem.1 hmem)))
      rw [ancestorsFrom, hk]
      simp only [hne, hfresh, false_or, if_false, Bool.false_eq_true]
      rw [List.mem_cons]
      rcases Relation.reflTransGen_iff_eq_or_transGen.1 hcb with rfl | hcb
      · exact Or.inl rfl
      · refine Or.inr (ih hcb (by omega) fun s hs => ?_)
        rcases List.mem_cons.1 hs with rfl | hs
        · exact ReflTransGen.refl
        · exact (hseen s hs).tail hlink

/-- **The names above a class are those that its parent links lead to.** -/
theorem Acyclic.mem_ancestors_iff (h : t.Acyclic) : b ∈ t.ancestors a ↔ TransGen t.Extends a b := by
  refine ⟨transGen_of_mem_ancestorsFrom, fun hab => h.mem_ancestorsFrom hab ?_ fun s hs => ?_⟩
  · have := t.height_le a
    omega
  · rw [List.mem_singleton.1 hs]
    exact ReflTransGen.refl

theorem Acyclic.isSubclass_iff (h : t.Acyclic) : t.isSubclass a b = true ↔ t.Descends a b := by
  rw [isSubclass, Bool.or_eq_true, beq_iff_eq, List.contains_iff_mem, h.mem_ancestors_iff, Descends,
    Relation.reflTransGen_iff_eq_or_transGen, eq_comm]

/-- **Being a subclass is a partial order**, on any names. -/
theorem Acyclic.antisymm (h : t.Acyclic) (hab : t.Descends a b) (hba : t.Descends b a) : a = b := by
  rcases Relation.reflTransGen_iff_eq_or_transGen.1 hab with heq | hab
  · exact heq.symm
  · exact absurd (hab.trans_left hba) (h a)

/-! ### Downwards -/

/-- The list of `b` holds `a`. -/
def Lists (t : ClassTable) (b a : String) : Prop := a ∈ t.linked b

/-- The names of a list that are new to a search, each once. -/
def unseen (found names : List String) : List String :=
  names.foldl (fun acc k => if found.contains k || acc.contains k then acc else acc ++ [k]) []

/-- The unseen names of a list are those that are not found yet, each once. -/
theorem unseen_spec (found names : List String) :
    (unseen found names).Nodup ∧ ∀ k, k ∈ unseen found names ↔ k ∈ names ∧ k ∉ found := by
  suffices hfold : ∀ acc : List String, acc.Nodup →
      (names.foldl (fun acc k => if found.contains k || acc.contains k then acc else acc ++ [k]) acc).Nodup ∧
      ∀ k, k ∈ names.foldl (fun acc k => if found.contains k || acc.contains k then acc else acc ++ [k]) acc ↔
        k ∈ acc ∨ k ∈ names ∧ k ∉ found by
    simpa [unseen] using hfold [] List.nodup_nil
  induction names with
  | nil => simp
  | cons n names ih =>
      intro acc hacc
      rw [List.foldl_cons]
      split
      · next hold =>
          rw [Bool.or_eq_true, List.contains_iff_mem, List.contains_iff_mem] at hold
          refine ⟨(ih acc hacc).1, fun k => ((ih acc hacc).2 k).trans ?_⟩
          rw [List.mem_cons]
          by_cases hk : k = n
          · subst hk
            tauto
          · simp [hk]
      · next hnew =>
          rw [Bool.or_eq_true, List.contains_iff_mem, List.contains_iff_mem, not_or] at hnew
          have hacc' : (acc ++ [n]).Nodup :=
            List.nodup_append.2 ⟨hacc, List.nodup_singleton n, fun x hx y hy hxy =>
              hnew.2 (List.mem_singleton.1 hy ▸ hxy ▸ hx)⟩
          refine ⟨(ih _ hacc').1, fun k => ((ih _ hacc').2 k).trans ?_⟩
          rw [List.mem_append, List.mem_singleton, List.mem_cons]
          by_cases hk : k = n
          · subst hk
            tauto
          · simp [hk]

/-- One step of the search: the names below `cur` that are new are found and wait in the queue. -/
theorem descend_cons (t : ClassTable) (n : ℕ) (found queue : List String) (cur : String) :
    t.descend (n + 1) found (cur :: queue) =
      t.descend n (found ++ unseen found (t.linked cur)) (queue ++ unseen found (t.linked cur)) := rfl

/-- A search downwards under way: what was found is reached from the root, and what the lists of found
names hold was found too, except for the names in the queue. -/
structure Searching (t : ClassTable) (root : String) (found queue : List String) : Prop where
  nodup : found.Nodup
  begun : root ∈ found
  reached : ∀ a ∈ found, ReflTransGen t.Lists root a
  queued : ∀ a ∈ queue, a ∈ found
  closed : ∀ a ∈ found, a ∉ queue → ∀ b, t.Lists a b → b ∈ found

namespace Searching

variable {root cur : String} {found queue : List String}

theorem start (t : ClassTable) (root : String) : t.Searching root [root] [root] where
  nodup := List.nodup_singleton root
  begun := List.mem_singleton_self root
  reached a ha := by rw [List.mem_singleton.1 ha]
  queued _ ha := ha
  closed a ha hqueue := absurd ha hqueue

/-- One name is looked at. -/
theorem step (h : t.Searching root found (cur :: queue)) :
    t.Searching root (found ++ unseen found (t.linked cur)) (queue ++ unseen found (t.linked cur)) := by
  obtain ⟨hnodup, hmem⟩ := unseen_spec found (t.linked cur)
  have hcur := h.queued cur List.mem_cons_self
  refine ⟨?_, List.mem_append_left _ h.begun, fun a ha => ?_, fun a ha => ?_, fun a ha hqueue b hab => ?_⟩
  · refine List.nodup_append.2 ⟨h.nodup, hnodup, ?_⟩
    rintro x hx y hy rfl
    exact ((hmem x).1 hy).2 hx
  · rcases List.mem_append.1 ha with ha | ha
    · exact h.reached a ha
    · exact (h.reached cur hcur).tail ((hmem a).1 ha).1
  · rcases List.mem_append.1 ha with ha | ha
    · exact List.mem_append_left _ (h.queued a (List.mem_cons_of_mem cur ha))
    · exact List.mem_append_right _ ha
  · rw [List.mem_append, not_or] at hqueue
    by_cases hb : b ∈ found
    · exact List.mem_append_left _ hb
    · have ha := (List.mem_append.1 ha).resolve_right hqueue.2
      by_cases hacur : a = cur
      · subst hacur
        exact List.mem_append_right _ ((hmem b).2 ⟨hab, hb⟩)
      · refine absurd (h.closed a ha ?_ b hab) hb
        rw [List.mem_cons, not_or]
        exact ⟨hacur, hqueue.1⟩

/-- A search with nothing to look at has found all. -/
theorem mem_iff (h : t.Searching root found []) : a ∈ found ↔ ReflTransGen t.Lists root a := by
  refine ⟨h.reached a, fun hreach => ?_⟩
  induction hreach with
  | refl => exact h.begun
  | tail _ hlist ih => exact h.closed _ ih List.not_mem_nil _ hlist

end Searching

def listed (t : ClassTable) : List String := t.below.flatMap (·.2)

theorem mem_listed (h : t.Lists b a) : a ∈ t.listed := by
  rw [Lists, linked] at h
  cases hkids : t.below.get? b with
  | none =>
      rw [hkids] at h
      cases h
  | some kids =>
      rw [hkids] at h
      exact List.mem_flatMap.2 ⟨(b, kids), Assoc.mem_of_get? hkids, h⟩

/-- **The search downwards finds what the lists lead to**, each name once and the root first.  It takes a
step for each name in the queue and for each name that it has not found yet. -/
theorem Searching.descend {root : String} {found queue : List String} (h : t.Searching root found queue)
    {n : ℕ} (hn : (t.listed.toFinset \ found.toFinset).card + queue.length < n) :
    (t.descend n found queue).Nodup ∧ found <+: t.descend n found queue ∧
      ∀ a, a ∈ t.descend n found queue ↔ ReflTransGen t.Lists root a := by
  induction n generalizing found queue with
  | zero => omega
  | succ n ih =>
      cases queue with
      | nil => exact ⟨h.nodup, List.prefix_refl found, fun a => h.mem_iff⟩
      | cons cur queue =>
          rw [descend_cons]
          obtain ⟨hnodup, hmem⟩ := unseen_spec found (t.linked cur)
          generalize hnew : unseen found (t.linked cur) = new at hnodup hmem
          -- the new names move from the open ones to the queue
          have hcard : (t.listed.toFinset \ (found ++ new).toFinset).card + new.length =
              (t.listed.toFinset \ found.toFinset).card := by
            rw [← List.toFinset_card_of_nodup hnodup, List.toFinset_append, ← Finset.sup_eq_union,
              ← sdiff_sdiff]
            refine Finset.card_sdiff_add_card_eq_card fun k hk => ?_
            rw [List.mem_toFinset, hmem] at hk
            rw [Finset.mem_sdiff, List.mem_toFinset, List.mem_toFinset]
            exact ⟨mem_listed (b := cur) hk.1, hk.2⟩
          have hstep := h.step
          rw [hnew] at hstep
          obtain ⟨hnodup', hprefix, hiff⟩ := ih hstep (by
            rw [List.length_append]
            rw [List.length_cons] at hn
            omega)
          exact ⟨hnodup', (List.prefix_append found new).trans hprefix, hiff⟩

/-- **The names below a name are those that the lists lead to.** -/
theorem mem_descendants_iff : a ∈ t.descendants name ↔ a ≠ name ∧ ReflTransGen t.Lists name a := by
  have hfuel : (t.listed.toFinset \ [name].toFinset).card + [name].length < t.listed.length + 2 := by
    have hle : (t.listed.toFinset \ [name].toFinset).card ≤ t.listed.length :=
      (Finset.card_le_card Finset.sdiff_subset).trans (List.toFinset_card_le t.listed)
    rw [List.length_singleton]
    omega
  obtain ⟨hnodup, ⟨rest, hrest⟩, hmem⟩ := (Searching.start t name).descend hfuel
  rw [← hmem, descendants, mem_sortedNames]
  change a ∈ (t.descend (t.listed.length + 2) [name] [name]).drop 1 ↔ _
  rw [← hrest] at hnodup ⊢
  rw [List.singleton_append, List.nodup_cons] at hnodup
  simp only [List.singleton_append, List.drop_succ_cons, List.drop_zero, List.mem_cons]
  refine ⟨fun ha => ⟨?_, Or.inr ha⟩, fun ⟨hne, ha⟩ => ha.resolve_left hne⟩
  rintro rfl
  exact hnodup.1 ha

/-! ### Both directions -/

/-- No class stands in the list of the empty name, or a class of that name has no parent. -/
def BlankApart (t : ClassTable) : Prop := t.linked "" = [] ∨ ∀ b, ¬ t.Extends "" b

/-- The lists lead from a class to what descends from it. -/
theorem Linked.lists_iff_descends (h : t.Linked) (hblank : t.BlankApart) (hname : name ≠ "") :
    ReflTransGen t.Lists name a ↔ t.Descends a name := by
  constructor
  · intro hlists
    induction hlists with
    | refl => exact ReflTransGen.refl
    | @tail b a _ hlist ih =>
        by_cases hb : b = ""
        · -- the list of the empty name is empty, or the empty name is not below `name`
          subst hb
          rcases hblank with hnone | hroot
          · rw [Lists, hnone] at hlist
            cases hlist
          · rcases ReflTransGen.cases_head ih with heq | ⟨c, hlink, -⟩
            · exact absurd heq.symm hname
            · exact absurd hlink (hroot c)
        · exact ReflTransGen.head ((h.mem_linked_iff b hb a).1 hlist) ih
  · intro hdesc
    induction hdesc using ReflTransGen.head_induction_on with
    | refl => exact ReflTransGen.refl
    | @head a b hlink _ ih =>
        have hb : b ≠ "" := (extends_iff.1 hlink).2
        exact ih.tail ((h.mem_linked_iff b hb a).2 hlink)

/-- The search downwards finds the classes that stand below a name. -/
theorem Linked.mem_descendants_iff (h : t.Linked) (hblank : t.BlankApart) (hname : name ≠ "") :
    a ∈ t.descendants name ↔ TransGen t.Extends a name := by
  rw [ClassTable.mem_descendants_iff, h.lists_iff_descends hblank hname, Descends,
    Relation.reflTransGen_iff_eq_or_transGen]
  constructor
  · exact fun ⟨hne, hor⟩ => hor.resolve_left (Ne.symm hne)
  · refine fun hlinks => ⟨?_, Or.inr hlinks⟩
    rintro rfl
    exact h.acyclic a hlinks

/-- **The two directions of the hierarchy agree.**  What is below a class is what it is above of, a
subclass is the class itself or leads to it by parent links, and being a subclass is a partial order on
the classes of the table. -/
theorem views_agree (rs : List Request) :
    ((after rs).BlankApart → ∀ c, c ≠ "" → ∀ d,
        d ∈ (after rs).descendants c ↔ c ∈ (after rs).ancestors d) ∧
      (∀ d c, (after rs).isSubclass d c = true ↔ d = c ∨ TransGen (after rs).Extends d c) ∧
      IsPartialOrder {n // ((after rs).class? n).isSome = true}
        fun a b => (after rs).isSubclass a b = true := by
  have h := linked_after rs
  refine ⟨fun hblank c hc d => ?_, fun d c => ?_, ?_⟩
  · rw [h.mem_descendants_iff hblank hc, h.acyclic.mem_ancestors_iff]
  · rw [h.acyclic.isSubclass_iff, Descends, Relation.reflTransGen_iff_eq_or_transGen, eq_comm]
  · simp only [h.acyclic.isSubclass_iff]
    exact
      { refl := fun a => ReflTransGen.refl
        trans := fun a b c hab hbc => hab.trans hbc
        antisymm := fun a b hab hba => Subtype.ext (h.acyclic.antisymm hab hba) }

/-- A disc is entered before its parents, and gets another one later. -/
def shapeRequests : List Request :=
  [.register "Disc" "Circle" false false, .register "Circle" "Shape" false false,
    .register "Shape" "" false true, .register "Round" "Shape" false false, .setParent "Circle" "Round",
    .setParent "Shape" "Disc"]

/-- Two links up, past the link that was replaced and the one that was refused. -/
theorem views_agree_shapes :
    (after shapeRequests).BlankApart ∧ "Round" ≠ "" ∧ "Disc" ∈ (after shapeRequests).descendants "Round" := by
  have hblank : (after shapeRequests).BlankApart := Or.inl rfl
  refine ⟨hblank, by decide, ?_⟩
  rw [(views_agree shapeRequests).1 hblank "Round" (by decide) "Disc"]
  decide

/-- A class with the empty name stands below `A`, and `X` is put under the empty name. -/
def blankRequests : List Request :=
  [.register "A" "" false false, .register "" "A" false false, .register "X" "" false false,
    .setParent "X" ""]

/-- **`X` has no parent, and is found below `A`**: the search downwards passes through the list of the
empty name, where `X` was entered. -/
theorem not_views_agree_blank :
    "X" ∈ (after blankRequests).descendants "A" ∧ "A" ∉ (after blankRequests).ancestors "X" := by
  refine ⟨?_, by decide⟩
  rw [ClassTable.mem_descendants_iff]
  refine ⟨by decide, ReflTransGen.head (b := "") ?_ (ReflTransGen.single ?_)⟩
  · rw [Lists]
    decide
  · rw [Lists]
    decide

end ClassTable

end TreeCheck
