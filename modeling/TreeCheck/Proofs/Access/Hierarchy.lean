import Mathlib.Data.List.Perm.Subperm
import Mathlib.Logic.Relation
import TreeCheck.Access

/-!
# The class hierarchy as a relation

The table of classes searches upwards with a bound on the number of steps and with a list of the
names met before.  Neither cuts a search short: a way up that repeats no class is no longer than the
table.

* `ClassTable.Extends` — the parent links; a class `Descends` from another one along them;
* `ClassTable.Nearest` — the nearest declaration of a member on the way up from a class;
* `ClassTable.owner?_of_nearest` — the search finds the nearest declaration;
* `ClassTable.Refuses` — the access rules as a statement about parent links, with
  `ClassTable.checkMember_of_refuses`: the table refuses what they refuse.
-/

namespace TreeCheck

namespace ClassTable

variable {t : ClassTable} {name : String}

/-! ### Parent links -/

/-- The class `a` has `b` as its parent. -/
def Extends (t : ClassTable) (a b : String) : Prop :=
  ∃ c, t.class? a = some c ∧ c.parent = b ∧ b ≠ ""

/-- The name `b` is `a` or stands above it. -/
def Descends (t : ClassTable) : String → String → Prop := Relation.ReflTransGen t.Extends

/-- The search upwards follows parent links. -/
theorem transGen_of_mem_ancestorsFrom {n : Nat} {seen : List String} {a b : String}
    (h : b ∈ t.ancestorsFrom n seen a) : Relation.TransGen t.Extends a b := by
  induction n generalizing seen a with
  | zero => cases h
  | succ n ih =>
      rw [ancestorsFrom] at h
      split at h
      · cases h
      · next c hc =>
          split at h
          · cases h
          · next hparent =>
              have hlink : t.Extends a c.parent := ⟨c, hc, rfl, fun h => hparent (Or.inl h)⟩
              rcases List.mem_cons.1 h with rfl | h
              · exact Relation.TransGen.single hlink
              · exact Relation.TransGen.head hlink (ih h)

/-- What the table takes for a subclass descends from the other class. -/
theorem descends_of_isSubclass {a b : String} (h : t.isSubclass a b = true) : t.Descends a b := by
  rw [isSubclass, Bool.or_eq_true, beq_iff_eq, List.contains_iff_mem] at h
  rcases h with rfl | h
  · exact Relation.ReflTransGen.refl
  · exact (transGen_of_mem_ancestorsFrom h).to_reflTransGen

/-! ### Declarations -/

/-- The nearest declaration of a member on the way up from a class, with the number of links to the
class that declares it. -/
inductive NearestAt (t : ClassTable) (name : String) :
    Nat → String → String → AccessMember → Prop where
  | here {a : String} {c : AccessClass} {m : AccessMember} (hc : t.class? a = some c)
      (hm : c.members.get? name = some m) : NearestAt t name 0 a a m
  | up {k : Nat} {a owner : String} {c : AccessClass} {m : AccessMember} (hc : t.class? a = some c)
      (hm : c.members.get? name = none) (hp : c.parent ≠ "")
      (h : NearestAt t name k c.parent owner m) : NearestAt t name (k + 1) a owner m

/-- The nearest declaration of a member on the way up from a class. -/
def Nearest (t : ClassTable) (name a owner : String) (m : AccessMember) : Prop :=
  ∃ k, t.NearestAt name k a owner m

namespace NearestAt

variable {k : Nat} {a owner : String} {m : AccessMember}

/-- The number of links to a declaration depends on the class alone. -/
theorem unique (h : t.NearestAt name k a owner m) {k' : Nat} {owner' : String} {m' : AccessMember}
    (h' : t.NearestAt name k' a owner' m') : k = k' := by
  induction h generalizing k' owner' m' with
  | here hc hm =>
      cases h' with
      | here _ _ => rfl
      | up hc' hm' _ _ =>
          cases hc.symm.trans hc'
          cases hm.symm.trans hm'
  | up hc hm _ _ ih =>
      cases h' with
      | here hc' hm' =>
          cases hc.symm.trans hc'
          cases hm.symm.trans hm'
      | up hc' _ _ h' =>
          cases hc.symm.trans hc'
          rw [ih h']

/-- The owner declares the member. -/
theorem declared (h : t.NearestAt name k a owner m) :
    (t.class? owner).bind (·.members.get? name) = some m := by
  induction h with
  | here hc hm => rw [hc, Option.bind_some, hm]
  | up _ _ _ _ ih => exact ih

theorem mem_keys (h : t.NearestAt name k a owner m) : a ∈ t.classes.keys := by
  have hmem : ∀ {c : AccessClass}, t.class? a = some c → a ∈ t.classes.keys := by
    intro c hc
    rw [← Assoc.has_iff_mem_keys, Assoc.has]
    exact Option.isSome_of_eq_some hc
  cases h with
  | here hc _ => exact hmem hc
  | up hc _ _ _ => exact hmem hc

/-- The classes on the way to a declaration are different names of the table. -/
theorem exists_path (h : t.NearestAt name k a owner m) :
    ∃ path : List String, path.length = k + 1 ∧ path.Nodup ∧ path ⊆ t.classes.keys ∧
      ∀ b ∈ path, ∃ j ≤ k, t.NearestAt name j b owner m := by
  induction h with
  | @here a c m hc hm =>
      have h := NearestAt.here hc hm
      refine ⟨[a], rfl, List.pairwise_singleton _ a, ?_, ?_⟩
      · rintro b hb
        rw [List.mem_singleton.1 hb]
        exact h.mem_keys
      · rintro b hb
        rw [List.mem_singleton.1 hb]
        exact ⟨0, Nat.le_refl 0, h⟩
  | @up k a owner c m hc hm hp h ih =>
      obtain ⟨path, hlength, hnodup, hkeys, hpath⟩ := ih
      have h' := NearestAt.up hc hm hp h
      refine ⟨a :: path, by rw [List.length_cons, hlength], ?_, ?_, ?_⟩
      · -- a class that came again would be at two distances from the declaration
        refine List.nodup_cons.2 ⟨fun ha => ?_, hnodup⟩
        obtain ⟨j, hj, hat⟩ := hpath a ha
        have := h'.unique hat
        omega
      · exact List.cons_subset.2 ⟨h'.mem_keys, hkeys⟩
      · intro b hb
        rcases List.mem_cons.1 hb with rfl | hb
        · exact ⟨k + 1, Nat.le_refl _, h'⟩
        · obtain ⟨j, hj, hat⟩ := hpath b hb
          exact ⟨j, by omega, hat⟩

/-- A declaration is no further away than the table has classes. -/
theorem lt_length (h : t.NearestAt name k a owner m) : k < t.classes.length := by
  obtain ⟨path, hlength, hnodup, hkeys, -⟩ := h.exists_path
  have hle := (List.Nodup.subperm hnodup hkeys).length_le
  rw [hlength, Assoc.keys, List.length_map] at hle
  omega

/-- The search upwards finds a declaration within its bound, if the names met before are those of
classes further away from it. -/
theorem ownerIn_ancestorsFrom (h : t.NearestAt name k a owner m) {n : Nat} (hn : k ≤ n)
    {seen : List String} (hseen : ∀ b ∈ seen, ∃ j, k ≤ j ∧ t.NearestAt name j b owner m) :
    t.ownerIn name (a :: t.ancestorsFrom n seen a) = some (owner, m) := by
  induction h generalizing n seen with
  | here hc hm => rw [ownerIn, hc]; simp only [hm]
  | @up k a owner c m hc hm hp h ih =>
      obtain ⟨n, rfl⟩ : ∃ n', n = n' + 1 := ⟨n - 1, by omega⟩
      have hfresh : ¬ seen.contains c.parent = true := by
        intro hmem
        obtain ⟨j, hj, hat⟩ := hseen _ (List.contains_iff_mem.1 hmem)
        have := h.unique hat
        omega
      have hstep : t.ancestorsFrom (n + 1) seen a =
          c.parent :: t.ancestorsFrom n (c.parent :: seen) c.parent := by
        rw [ancestorsFrom, hc]
        simp only [hp, hfresh, false_or, if_false, Bool.false_eq_true]
      rw [ownerIn, hc]
      simp only [hm]
      rw [hstep]
      refine ih (by omega) fun b hb => ?_
      rcases List.mem_cons.1 hb with rfl | hb
      · exact ⟨k, Nat.le_refl k, h⟩
      · obtain ⟨j, hj, hat⟩ := hseen b hb
        exact ⟨j, by omega, hat⟩

end NearestAt

variable {a owner : String} {m : AccessMember}

/-- **The search finds the nearest declaration.** -/
theorem owner?_of_nearest (h : t.Nearest name a owner m) : t.owner? a name = some (owner, m) := by
  obtain ⟨k, h⟩ := h
  refine h.ownerIn_ancestorsFrom (by have := h.lt_length; omega) fun b hb => ?_
  rw [List.mem_singleton.1 hb]
  exact ⟨k, Nat.le_refl k, h⟩

/-! ### Access -/

/-- Code in the class `accessing`, empty outside any class, may not use a member as it is declared:
it is private to another class, or protected in a class that `accessing` does not descend from. -/
def Refuses (t : ClassTable) (accessing owner : String) (m : AccessMember) : Prop :=
  (m.access = .priv ∧ owner ≠ accessing) ∨ (m.access = .prot ∧ ¬ t.Descends accessing owner)

/-- **The table refuses what the rules refuse**, with the level of the declaration. -/
theorem checkMember_of_refuses (h : t.Nearest name a owner m) {accessing : String}
    (hr : t.Refuses accessing owner m) :
    t.checkMember accessing owner name = .error (.access m.access name owner) := by
  obtain ⟨k, h⟩ := h
  rw [checkMember, h.declared]
  rcases hr with ⟨hlevel, howner⟩ | ⟨hlevel, hdescends⟩
  · simp only [hlevel]
    rw [if_neg fun h => howner h.symm]
  · simp only [hlevel]
    rw [if_neg]
    rintro ⟨-, hsub⟩
    exact hdescends (descends_of_isSubclass hsub)

end ClassTable

end TreeCheck
