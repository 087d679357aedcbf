import Mathlib.Data.Finset.Card
import Mathlib.Data.List.Dedup
import TreeCheck.Proofs.Access.Hierarchy

/-!
# How the class table grows

A table starts empty and grows by requests, some of which it refuses.  The parent links and the lists of
direct subclasses are kept apart, and a class may get its parent before that name is a class, or get
another parent later.

* `ClassTable.Request`, `ClassTable.after` — requests, and the table after a run of them;
* `ClassTable.Walk` — the walk upwards that looks for a cycle, without a bound on its steps;
* `ClassTable.Linked` — what every run keeps: no way up leads back, and the lists of subclasses agree
  with the parent links;
* `ClassTable.linked_after` — a run keeps it, by one step lemma for each request;
* `ClassTable.graph_after` — the same for the table, with the walk that finds its end.
-/

namespace TreeCheck

namespace ClassTable

open Relation (TransGen ReflTransGen)

variable {t t' : ClassTable} {a b name parent : String}

/-! ### Requests -/

/-- A request to change the table. -/
inductive Request where
  | register (name parent : String) (final abstract : Bool)
  | setParent (name parent : String)
  | addMember (name : String) (m : AccessMember)
  | markFinal (name : String)
  | markFinalMethod (name method : String)

/-- The table after a request, which it may have refused. -/
def answer (t : ClassTable) : Request → ClassTable
  | .register name parent final abstract => (t.register name parent final abstract).1
  | .setParent name parent => (t.setParent name parent).toOption.getD t
  | .addMember name m => (t.addMember name m).toOption.getD t
  | .markFinal name => t.markFinal name
  | .markFinalMethod name method => t.markFinalMethod name method

def after (rs : List Request) : ClassTable := rs.foldl answer {}

/-! ### Parents -/

/-- The parent that a class names, empty if it has none. -/
def parent? (t : ClassTable) (name : String) : Option String := (t.class? name).map (·.parent)

theorem extends_iff : t.Extends a b ↔ t.parent? a = some b ∧ b ≠ "" := by
  rw [parent?, Option.map_eq_some_iff]
  constructor
  · rintro ⟨c, hc, hparent, hne⟩
    exact ⟨⟨c, hc, hparent⟩, hne⟩
  · rintro ⟨⟨c, hc, hparent⟩, hne⟩
    exact ⟨c, hc, hparent, hne⟩

theorem extends_congr (h : t'.parent? = t.parent?) : t'.Extends = t.Extends := by
  funext a b
  rw [extends_iff, extends_iff, h]

theorem Extends.unique {c : String} (hb : t.Extends a b) (hc : t.Extends a c) : b = c := by
  rw [extends_iff] at hb hc
  exact Option.some.inj (hb.1.symm.trans hc.1)

theorem Extends.mem_keys (h : t.Extends a b) : a ∈ t.classes.keys := by
  obtain ⟨c, hc, -⟩ := h
  rw [← Assoc.has_iff_mem_keys, Assoc.has]
  exact Option.isSome_of_eq_some hc

/-- A class is entered with another record. -/
theorem parent?_set (t : ClassTable) (name : String) (c : AccessClass) (below : Assoc (List String))
    (n : String) : parent? { classes := t.classes.set name c, below } n =
      if name = n then some c.parent else t.parent? n := by
  rw [parent?, class?, Assoc.get?_set]
  split <;> rfl

/-- The record of a class changes, but not its parent. -/
theorem parent?_set_same {c c' : AccessClass} (hc : t.class? name = some c) (hparent : c'.parent = c.parent) :
    parent? { t with classes := t.classes.set name c' } = t.parent? := by
  funext n
  rw [parent?_set]
  split
  · next h => rw [← h, parent?, hc, hparent, Option.map_some]
  · rfl

/-! ### The walk upwards -/

/-- The walk from `cur` upwards that looks for `name`, with the way so far and what it finds.  It ends
where there is no parent and at a name that is no class. -/
inductive Walk (t : ClassTable) (name : String) : String → List String → Option (List String) → Prop
  | top {path : List String} : Walk t name "" path none
  | met {path : List String} (hname : name ≠ "") : Walk t name name path (some path)
  | stray {cur : String} {path : List String} (hcur : cur ≠ "") (hname : cur ≠ name)
      (hnone : t.class? cur = none) : Walk t name cur path none
  | up {cur : String} {path : List String} {c : AccessClass} {found : Option (List String)} (hcur : cur ≠ "")
      (hname : cur ≠ name) (hc : t.class? cur = some c)
      (h : Walk t name c.parent (if c.parent = "" then path else path ++ [c.parent]) found) :
      Walk t name cur path found

/-- A walk that finds nothing started at no descendant. -/
theorem Walk.not_descends {path : List String} (h : t.Walk name a path none) (ha : a ≠ "") :
    ¬ t.Descends a name := by
  generalize hfound : (none : Option (List String)) = found at h
  induction h with
  | top => exact absurd rfl ha
  | met _ => cases hfound
  | stray _ hname hnone =>
      intro hdesc
      rcases ReflTransGen.cases_head hdesc with rfl | ⟨b, ⟨c, hc, -⟩, -⟩
      · exact hname rfl
      · cases hnone.symm.trans hc
  | @up cur path c found _ hname hc _ ih =>
      intro hdesc
      rcases ReflTransGen.cases_head hdesc with rfl | ⟨b, hlink, hdesc⟩
      · exact hname rfl
      · obtain ⟨c', hc', rfl, hne⟩ := hlink
        cases hc.symm.trans hc'
        exact ih hne hfound hdesc

/-! ### Tables without cycles -/

open Classical in
/-- The number of classes that are a class or stand above it. -/
noncomputable def height (t : ClassTable) (a : String) : ℕ :=
  (t.classes.keys.toFinset.filter fun b => t.Descends a b).card

theorem height_le (t : ClassTable) (a : String) : t.height a ≤ t.classes.length := by
  classical
  calc t.height a ≤ t.classes.keys.toFinset.card := Finset.card_filter_le _ _
    _ ≤ t.classes.keys.length := List.toFinset_card_le _
    _ = t.classes.length := List.length_map _

/-- The way up from a class leads back to it nowhere. -/
def Acyclic (t : ClassTable) : Prop := ∀ a, ¬ TransGen t.Extends a a

/-- Where no way up goes round, a parent has fewer classes above it. -/
theorem Acyclic.height_lt (h : t.Acyclic) (hlink : t.Extends a b) : t.height b < t.height a := by
  classical
  refine Finset.card_lt_card ⟨fun c hc => ?_, fun hback => ?_⟩
  · rw [Finset.mem_filter] at hc ⊢
    exact ⟨hc.1, ReflTransGen.head hlink hc.2⟩
  · have ha : a ∈ t.classes.keys.toFinset.filter fun c => t.Descends a c :=
      Finset.mem_filter.2 ⟨List.mem_toFinset.2 hlink.mem_keys, ReflTransGen.refl⟩
    exact h a (TransGen.head' hlink (Finset.mem_filter.1 (hback ha)).2)

theorem climb_empty (t : ClassTable) (name : String) (n : ℕ) (path : List String) :
    t.climb name n "" path = none := by
  cases n with
  | zero => rfl
  | succ n => rw [climb, if_pos rfl]

/-- **The walk upwards ends**, within as many steps as there are classes above its start. -/
theorem Acyclic.walk_climb (h : t.Acyclic) {n : ℕ} (hn : t.height a < n) (path : List String) :
    t.Walk name a path (t.climb name n a path) := by
  induction n generalizing a path with
  | zero => omega
  | succ n ih =>
      rw [climb]
      split
      · next hempty => exact hempty ▸ .top
      · next hempty =>
          split
          · next hname =>
              subst hname
              exact .met hempty
          · next hname =>
              cases hc : t.class? a with
              | none => exact .stray hempty hname hc
              | some c =>
                  refine .up hempty hname hc ?_
                  by_cases hparent : c.parent = ""
                  · simp only [hparent, climb_empty]
                    exact .top
                  · have hlink : t.Extends a c.parent := ⟨c, hc, rfl, hparent⟩
                    have := h.height_lt hlink
                    exact ih (by omega) _

/-- A way along old links and one new link goes along old links, or uses the new one once. -/
theorem transGen_of_link {E F : String → String → Prop} {x y : String}
    (hF : ∀ a b, F a b → E a b ∨ a = x ∧ b = y) (hback : ¬ ReflTransGen E y x) (h : TransGen F a b) :
    TransGen E a b ∨ ReflTransGen E a x ∧ ReflTransGen E y b := by
  induction h with
  | single hab =>
      rcases hF _ _ hab with hab | ⟨rfl, rfl⟩
      · exact Or.inl (TransGen.single hab)
      · exact Or.inr ⟨ReflTransGen.refl, ReflTransGen.refl⟩
  | @tail b c _ hbc ih =>
      rcases hF _ _ hbc with hbc | ⟨rfl, rfl⟩
      · exact ih.imp (fun hab => hab.tail hbc) fun ⟨hax, hyb⟩ => ⟨hax, hyb.tail hbc⟩
      · rcases ih with hab | ⟨-, hyb⟩
        · exact Or.inr ⟨hab.to_reflTransGen, ReflTransGen.refl⟩
        · exact absurd hyb hback

/-! ### What every request keeps -/

/-- The ways up have no cycles, and the lists of subclasses hold what the parent links say. -/
structure Linked (t : ClassTable) : Prop where
  acyclic : t.Acyclic
  nodup : ∀ p, p ≠ "" → (t.linked p).Nodup
  mem_linked_iff : ∀ p, p ≠ "" → ∀ a, a ∈ t.linked p ↔ t.Extends a p

/-- Being linked is a matter of parents and lists alone. -/
theorem Linked.congr (h : t.Linked) (hparent : t'.parent? = t.parent?) (hbelow : t'.below = t.below) :
    t'.Linked where
  acyclic a hcycle := h.acyclic a (extends_congr hparent ▸ hcycle)
  nodup p hp := by
    rw [linked, hbelow]
    exact h.nodup p hp
  mem_linked_iff p hp a := by
    rw [linked, hbelow, extends_congr hparent]
    exact h.mem_linked_iff p hp a

/-- The direct subclasses of a name once `name` has left the parent `old`. -/
def unlinked (t : ClassTable) (name old p : String) : List String :=
  if old ≠ "" ∧ p = old then (t.linked p).erase name else t.linked p

/-- What a new parent link changes. -/
theorem setParent_eq_ok (h : t.setParent name parent = .ok t') :
    t.climb name (t.classes.length + 2) parent [name, parent] = none ∧
      ∃ old, t.parent? name = some old ∧
        (∀ n, t'.parent? n = if name = n then some parent else t.parent? n) ∧
        ∀ p, t'.linked p = t.unlinked name old p ++ if p = parent then [name] else [] := by
  rw [setParent] at h
  split at h
  · cases h
  · next c hc =>
      split at h
      · cases h
      · next hclimb =>
          cases h
          refine ⟨hclimb, c.parent, by rw [parent?, hc, Option.map_some], parent?_set t name _ _, fun p => ?_⟩
          -- the lists after `name` has left its old parent
          generalize hbelow : (if c.parent = "" then t.below
            else t.below.set c.parent ((t.linked c.parent).erase name)) = below
          have hunlinked : ∀ q, (below.get? q).getD [] = t.unlinked name c.parent q := by
            intro q
            rw [← hbelow, unlinked]
            by_cases hempty : c.parent = ""
            · simp [hempty, linked]
            · rw [if_neg hempty, Assoc.get?_set]
              by_cases hq : c.parent = q
              · subst hq
                simp [hempty]
              · simp [hq, Ne.symm hq, linked]
          rw [← hunlinked, linked, Assoc.get?_set]
          by_cases hp : parent = p
          · simp [hp]
          · simp [hp, Ne.symm hp]

/-- A list without `name` holds the other classes that it held before. -/
theorem Linked.mem_unlinked_iff (h : t.Linked) {old p : String} (hold : t.parent? name = some old)
    (hp : p ≠ "") : a ∈ t.unlinked name old p ↔ a ≠ name ∧ t.Extends a p := by
  have hname : t.Extends name p ↔ old = p := by
    rw [extends_iff, hold, Option.some.injEq]
    exact and_iff_left hp
  rw [unlinked]
  split
  · rw [(h.nodup p hp).mem_erase_iff, h.mem_linked_iff p hp]
  · next hother =>
      rw [h.mem_linked_iff p hp]
      refine ⟨fun hlink => ⟨?_, hlink⟩, And.right⟩
      rintro rfl
      have hpold := hname.1 hlink
      exact hother ⟨hpold ▸ hp, hpold.symm⟩

theorem Linked.nodup_unlinked (h : t.Linked) {old p : String} (hp : p ≠ "") :
    (t.unlinked name old p).Nodup := by
  rw [unlinked]
  split
  · exact (h.nodup p hp).erase name
  · exact h.nodup p hp

/-- **A new parent link closes no cycle and puts the class into one list.** -/
theorem Linked.setParent (h : t.Linked) (hset : t.setParent name parent = .ok t') : t'.Linked := by
  obtain ⟨hclimb, old, hold, hparent, hlinked⟩ := setParent_eq_ok hset
  have hlink : ∀ a b, t'.Extends a b ↔ a ≠ name ∧ t.Extends a b ∨ a = name ∧ b = parent ∧ b ≠ "" := by
    intro a b
    rw [extends_iff, extends_iff, hparent]
    by_cases ha : name = a
    · simp [ha, eq_comm]
    · simp [ha, Ne.symm ha]
  have hback : parent ≠ "" → ¬ t.Descends parent name := by
    have hwalk : t.Walk name parent [name, parent] _ :=
      h.acyclic.walk_climb (n := t.classes.length + 2) (by have := t.height_le parent; omega) _
    rw [hclimb] at hwalk
    exact hwalk.not_descends
  refine ⟨fun a hcycle => ?_, fun p hp => ?_, fun p hp a => ?_⟩
  · by_cases hempty : parent = ""
    · refine h.acyclic a (TransGen.mono (fun x y hxy => ?_) _ _ hcycle)
      rcases (hlink x y).1 hxy with ⟨-, hxy⟩ | ⟨-, hy, hne⟩
      · exact hxy
      · exact absurd (hy.trans hempty) hne
    · have hold : ∀ x y, t'.Extends x y → t.Extends x y ∨ x = name ∧ y = parent := fun x y hxy =>
        ((hlink x y).1 hxy).imp And.right fun hnew => ⟨hnew.1, hnew.2.1⟩
      rcases transGen_of_link hold (hback hempty) hcycle with hcycle | ⟨hname, hparent⟩
      · exact h.acyclic a hcycle
      · exact hback hempty (hparent.trans hname)
  · rw [hlinked]
    split
    · refine (List.nodup_append.2 ⟨h.nodup_unlinked hp, List.nodup_singleton name, ?_⟩)
      rintro x hx y hy rfl
      exact ((h.mem_unlinked_iff hold hp).1 hx).1 (List.mem_singleton.1 hy)
    · rw [List.append_nil]
      exact h.nodup_unlinked hp
  · rw [hlinked, List.mem_append, h.mem_unlinked_iff hold hp, hlink]
    refine or_congr_right ?_
    split
    · next hparent => simp [hparent, hparent ▸ hp]
    · next hparent => simp [hparent]

/-- **Entering a class keeps the table linked**, also when its parent is refused. -/
theorem Linked.register (h : t.Linked) (name parent : String) (final abstract : Bool) :
    (t.register name parent final abstract).1.Linked := by
  rw [ClassTable.register]
  split
  · exact h
  · next hnew =>
      have hnone : t.class? name = none := by simpa using hnew
      have hentered : Linked { t with classes := t.classes.set name { name, final, abstract } } := by
        have hlink : ∀ a b, Extends { t with classes := t.classes.set name { name, final, abstract } } a b ↔
            t.Extends a b := by
          intro a b
          rw [extends_iff, extends_iff, parent?_set]
          split
          · next ha =>
              subst ha
              simp [parent?, hnone, eq_comm]
          · rfl
        refine ⟨fun a hcycle => h.acyclic a (TransGen.mono (fun x y => (hlink x y).1) _ _ hcycle), h.nodup, ?_⟩
        intro p hp a
        rw [hlink]
        exact h.mem_linked_iff p hp a
      dsimp only
      split
      · exact hentered
      · split
        · next hset => exact hentered.setParent hset
        · exact hentered

/-- Recording a member changes no link. -/
theorem Linked.addMember {m : AccessMember} (h : t.Linked) (hadd : t.addMember name m = .ok t') :
    t'.Linked := by
  rw [ClassTable.addMember] at hadd
  split at hadd
  · cases hadd
  · next c hc =>
      cases hadd
      exact h.congr (parent?_set_same hc rfl) rfl

theorem Linked.markFinal (h : t.Linked) (name : String) : (t.markFinal name).Linked := by
  rw [ClassTable.markFinal]
  split
  · exact h
  · next c hc => exact h.congr (parent?_set_same hc rfl) rfl

theorem Linked.markFinalMethod (h : t.Linked) (name method : String) :
    (t.markFinalMethod name method).Linked := by
  rw [ClassTable.markFinalMethod]
  split
  · exact h
  · next c hc =>
      split
      · exact h
      · exact h.congr (parent?_set_same hc rfl) rfl

/-- A refused request changes nothing. -/
theorem linked_getD {r : Except AccessError ClassTable} (h : t.Linked) (hr : ∀ t', r = .ok t' → t'.Linked) :
    (r.toOption.getD t).Linked := by
  cases r with
  | ok t' => exact hr t' rfl
  | error _ => exact h

theorem Linked.answer (h : t.Linked) (r : Request) : (t.answer r).Linked := by
  cases r with
  | register name parent final abstract => exact h.register name parent final abstract
  | setParent name parent => exact linked_getD h fun _ => h.setParent
  | addMember name m => exact linked_getD h fun _ => h.addMember
  | markFinal name => exact h.markFinal name
  | markFinalMethod name method => exact h.markFinalMethod name method

theorem linked_empty : Linked {} where
  acyclic a hcycle := by
    obtain ⟨b, hlink, -⟩ := TransGen.head'_iff.1 hcycle
    obtain ⟨c, hc, -⟩ := hlink
    cases hc
  nodup _ _ := List.nodup_nil
  mem_linked_iff p _ a := by
    refine iff_of_false List.not_mem_nil ?_
    rintro ⟨c, hc, -⟩
    cases hc

/-- **Every run of requests keeps the table linked.** -/
theorem linked_after (rs : List Request) : (after rs).Linked := by
  have hrun : ∀ t : ClassTable, t.Linked → (rs.foldl ClassTable.answer t).Linked := by
    induction rs with
    | nil => exact fun _ h => h
    | cons r rs ih => exact fun t h => ih _ (h.answer r)
  exact hrun {} linked_empty

/-- **The classes of a run form a graph without cycles**: following parents from a class never leads back
to it, the walk that looks for a cycle ends by itself before its bound does, and the list of a name holds
once each class that has it as its parent, and nothing else. -/
theorem graph_after (rs : List Request) :
    (∀ a, ¬ TransGen (after rs).Extends a a) ∧
      (∀ name a path, (after rs).Walk name a path
        ((after rs).climb name ((after rs).classes.length + 2) a path)) ∧
      ∀ p, p ≠ "" → ∀ a,
        ((after rs).Extends a p → ((after rs).linked p).count a = 1) ∧
          (¬ (after rs).Extends a p → a ∉ (after rs).linked p) := by
  have h := linked_after rs
  refine ⟨h.acyclic, fun name a path => ?_, fun p hp a => ⟨fun hlink => ?_, fun hlink => ?_⟩⟩
  · have := (after rs).height_le a
    exact h.acyclic.walk_climb (by omega) path
  · exact List.count_eq_one_of_mem (h.nodup p hp) ((h.mem_linked_iff p hp a).2 hlink)
  · rwa [h.mem_linked_iff p hp a]

end ClassTable

end TreeCheck
