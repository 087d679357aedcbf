import TreeCheck.Proofs.Access.Closure
import TreeCheck.Proofs.Env.Expansion
import TreeCheck.Proofs.Env.Registration

/-!
# Class shapes and access records

A class is entered twice: with the types of its members in the environment, and with their access in the
class table.  Members of an instance come together by resolving the reference to the parent, static
members by replaying the chain of classes from its root, and the owner of a member by a walk over names.

* `ObjectOf.last?` — the declaration of a name that counts when members are inserted in turn;
* `Env.Chain` — the classes on the way up from a class;
* `SameClasses` — the environment and the class table hold the same classes;
* `SameClasses.ancestors_of_chain`, `SameClasses.resolveUpTo_of_chain` and the like — each walk goes along
  the chain;
* `tables_agree` — subclasses, owners and the types of members agree;
* `not_tables_agree_partial` — instances inherit nothing from a class that is named like a utility type.
-/

namespace TreeCheck

open Relation (TransGen ReflTransGen)

/-! ### Members that are inserted in turn -/

namespace ObjectOf

variable {τ : Type}

/-- The last member of a name: where members are inserted in turn, it takes the place of the others. -/
def last? (o : ObjectOf τ) (name : String) : Option (MemberOf τ) :=
  o.members.reverse.find? fun m => m.name == name

theorem last?_eq_none_iff {o : ObjectOf τ} {name : String} : o.last? name = none ↔ name ∉ o.names := by
  simp [last?, names]

theorem isSome_last?_iff {o : ObjectOf τ} {name : String} :
    (o.last? name).isSome = true ↔ name ∈ o.names := by
  rw [Option.isSome_iff_ne_none, ne_eq, last?_eq_none_iff, not_not]

/-- Of the members inserted and those there before, the last one of a name is found. -/
theorem find?_insertAll (o : ObjectOf τ) (ms : List (MemberOf τ)) (name : String) :
    (o.insertAll ms).find? name = (ms.reverse.find? fun m => m.name == name).or (o.find? name) := by
  induction ms generalizing o with
  | nil => rfl
  | cons m ms ih =>
      change ((o.insert m).insertAll ms).find? name = _
      rw [ih, List.reverse_cons, List.find?_append, Option.or_assoc]
      congr 1
      by_cases hm : name = m.name
      · subst hm
        rw [find?_insert_self]
        simp
      · rw [find?_insert_of_ne o m hm]
        simp [Ne.symm hm]

theorem find?_extend (o p : ObjectOf τ) (name : String) :
    (o.extend p).find? name = (p.last? name).or (o.find? name) := by
  rw [last?, ← find?_insertAll, extend]
  split <;> rfl

/-- Replacing type variables changes the type of a member only. -/
theorem last?_apply (s : Subst) (o : Object) (name : String) :
    (ObjectOf.apply s o).last? name = (o.last? name).map fun m => { m with type := m.type.apply s } := by
  rw [ObjectOf.apply, last?, Ty.applyMembersWith_eq_map, last?, ← List.map_reverse, List.find?_map]
  rfl

end ObjectOf

/-- The class declares the member, on either side. -/
def ClassShape.Declares (c : ClassShape) (m : String) : Prop :=
  m ∈ c.instanceSide.names ∨ m ∈ c.staticSide.names

/-! ### Chains of classes -/

namespace Env

/-- The classes on the way up from a class, nearest first, with their names. -/
inductive Chain (e : Env) : String → List (String × ClassShape) → Prop
  | root {a : String} {c : ClassShape} (hc : e.class? a = some c) (hparent : c.parent = none) :
      Chain e a [(a, c)]
  | sub {a : String} {c : ClassShape} {p : TypeRef} {cs : List (String × ClassShape)}
      (hc : e.class? a = some c) (hparent : c.parent = some p) (h : Chain e p.name cs) :
      Chain e a ((a, c) :: cs)

/-- The members of an instance of the first class of a chain. -/
def instanceMembers (cs : List (String × ClassShape)) : Object :=
  cs.foldr (fun c o => o.extend (c.2.instanceSide.apply [])) {}

/-- The static members of the first class of a chain. -/
def staticMembers (cs : List (String × ClassShape)) : Object :=
  cs.foldr (fun c o => o.insertAll c.2.staticSide.members) {}

/-- An instance has the member of the nearest class that declares the name. -/
theorem find?_instanceMembers (cs : List (String × ClassShape)) (m : String) :
    (instanceMembers cs).find? m = cs.findSome? fun c => (c.2.instanceSide.apply []).last? m := by
  induction cs with
  | nil => rfl
  | cons c cs ih =>
      change ((instanceMembers cs).extend _).find? m = _
      rw [ObjectOf.find?_extend, ih, List.findSome?_cons]
      cases (c.2.instanceSide.apply []).last? m <;> rfl

/-- A class has the static member of the nearest class that declares the name. -/
theorem find?_staticMembers (cs : List (String × ClassShape)) (m : String) :
    (staticMembers cs).find? m = cs.findSome? fun c => c.2.staticSide.last? m := by
  induction cs with
  | nil => rfl
  | cons c cs ih =>
      change ((staticMembers cs).insertAll _).find? m = _
      rw [ObjectOf.find?_insertAll, ih, List.findSome?_cons, ObjectOf.last?]
      cases c.2.staticSide.members.reverse.find? fun d => d.name == m <;> rfl

namespace Chain

variable {e : Env} {a : String} {cs : List (String × ClassShape)}

theorem isClass (h : e.Chain a cs) : e.isClass a = true := by
  cases h with
  | root hc _ => exact Option.isSome_of_eq_some hc
  | sub hc _ _ => exact Option.isSome_of_eq_some hc

theorem class? (h : e.Chain a cs) : ∀ c ∈ cs, e.class? c.1 = some c.2 := by
  induction h with
  | root hc _ =>
      intro c hmem
      rw [List.mem_singleton.1 hmem]
      exact hc
  | sub hc _ _ ih =>
      intro c hmem
      rcases List.mem_cons.1 hmem with rfl | hmem
      · exact hc
      · exact ih c hmem

end Chain

end Env

/-! ### The same classes in both tables -/

open ClassTable in
/-- The environment and the class table hold the same classes: none is generic, each parent is a class,
both name the same parents and members, and no name is static in one class of a chain and belongs to the
instances of another. -/
structure SameClasses (e : Env) (t : ClassTable) : Prop where
  entered : ∀ n, e.isClass n = (t.class? n).isSome
  named : e.isClass "" = false
  params : ∀ n c, e.class? n = some c → c.params = []
  parents : ∀ n c p, e.class? n = some c → c.parent = some p → p.args = [] ∧ e.isClass p.name = true
  parent? : ∀ n c, e.class? n = some c → t.parent? n = some ((c.parent.map (·.name)).getD "")
  declares : ∀ n c k, e.class? n = some c → t.class? n = some k → ∀ m, k.members.has m = true ↔ c.Declares m
  apart : ∀ a b c d, t.Descends a b ∨ t.Descends b a → a ≠ b → e.class? a = some c → e.class? b = some d →
    ∀ m, ¬ (m ∈ c.instanceSide.names ∧ m ∈ d.staticSide.names)

namespace SameClasses

open ClassTable

variable {e : Env} {t : ClassTable} {a b : String} {c : ClassShape} {cs : List (String × ClassShape)}

section

variable (h : SameClasses e t)

include h

/-- Where both sides hold the same classes, the parent in the table is the base of the shape. -/
theorem extends_iff (hc : e.class? a = some c) : t.Extends a b ↔ ∃ p, c.parent = some p ∧ p.name = b := by
  rw [ClassTable.extends_iff, h.parent? a c hc]
  cases hparent : c.parent with
  | none => simp [eq_comm]
  | some p =>
      have hne : p.name ≠ "" := by
        intro hempty
        have hclass := (h.parents a c p hc hparent).2
        rw [hempty, h.named] at hclass
        cases hclass
      simp only [Option.map_some, Option.getD_some, Option.some.injEq, exists_eq_left']
      refine ⟨And.left, fun heq => ⟨heq, ?_⟩⟩
      rwa [← heq]

theorem ne_empty (ha : e.isClass a = true) : a ≠ "" := by
  rintro rfl
  rw [h.named] at ha
  cases ha

/-- Each class has a way up. -/
theorem exists_chain (hacyclic : t.Acyclic) (ha : e.isClass a = true) : ∃ cs, e.Chain a cs := by
  induction hk : t.height a using Nat.strong_induction_on generalizing a with
  | _ k ih =>
      subst hk
      obtain ⟨c, hc⟩ := Option.isSome_iff_exists.1 ha
      cases hparent : c.parent with
      | none => exact ⟨_, .root hc hparent⟩
      | some p =>
          have hlink : t.Extends a p.name := (h.extends_iff hc).2 ⟨p, hparent, rfl⟩
          obtain ⟨cs, hcs⟩ := ih _ (hacyclic.height_lt hlink) (h.parents a c p hc hparent).2 rfl
          exact ⟨_, .sub hc hparent hcs⟩

/-- The names on the way up are those that stand above. -/
theorem mem_names_iff (hcs : e.Chain a cs) : b ∈ cs.map (·.1) ↔ t.Descends a b := by
  induction hcs with
  | @root a c hc hparent =>
      rw [List.map_singleton, List.mem_singleton]
      refine ⟨fun heq => heq ▸ ReflTransGen.refl, fun hdesc => ?_⟩
      rcases ReflTransGen.cases_head hdesc with heq | ⟨p, hlink, -⟩
      · exact heq.symm
      · obtain ⟨q, hq, -⟩ := (h.extends_iff hc).1 hlink
        cases hparent.symm.trans hq
  | @sub a c p cs hc hparent _ ih =>
      rw [List.map_cons, List.mem_cons, ih]
      constructor
      · rintro (rfl | hdesc)
        · exact ReflTransGen.refl
        · exact ReflTransGen.head ((h.extends_iff hc).2 ⟨p, hparent, rfl⟩) hdesc
      · intro hdesc
        rcases ReflTransGen.cases_head hdesc with heq | ⟨q, hlink, hdesc⟩
        · exact Or.inl heq.symm
        · obtain ⟨q', hq', rfl⟩ := (h.extends_iff hc).1 hlink
          cases hparent.symm.trans hq'
          exact Or.inr hdesc

/-- Later classes of a chain stand above the earlier ones. -/
theorem pairwise (hcs : e.Chain a cs) : cs.Pairwise fun c d => TransGen t.Extends c.1 d.1 := by
  induction hcs with
  | root _ _ => exact List.pairwise_singleton _ _
  | @sub a c p cs hc hparent hcs ih =>
      refine List.pairwise_cons.2 ⟨fun d hd => ?_, ih⟩
      have hlink : t.Extends a p.name := (h.extends_iff hc).2 ⟨p, hparent, rfl⟩
      exact TransGen.head' hlink ((h.mem_names_iff hcs).1 (List.mem_map_of_mem hd))

/-- A chain is no longer than either table. -/
theorem length_le (hacyclic : t.Acyclic) (hcs : e.Chain a cs) :
    cs.length ≤ e.classes.length ∧ cs.length ≤ t.classes.length := by
  have hnodup : (cs.map (·.1)).Nodup := by
    rw [List.Nodup, List.pairwise_map]
    refine (h.pairwise hcs).imp ?_
    intro c d hlinks heq
    exact hacyclic c.1 (heq ▸ hlinks)
  have hclass : ∀ n ∈ cs.map (·.1), e.isClass n = true := by
    intro n hn
    obtain ⟨c, hc, rfl⟩ := List.mem_map.1 hn
    exact Option.isSome_of_eq_some (hcs.class? c hc)
  have hle : ∀ {β : Type} (table : Assoc β), (∀ n ∈ cs.map (·.1), table.has n = true) →
      cs.length ≤ table.length := by
    intro β table hhas
    have hsub : cs.map (·.1) ⊆ table.keys := fun n hn => (Assoc.has_iff_mem_keys table n).1 (hhas n hn)
    simpa [Assoc.keys] using (List.Nodup.subperm hnodup hsub).length_le
  refine ⟨hle e.classes hclass, hle t.classes fun n hn => ?_⟩
  have hentered := h.entered n
  rw [hclass n hn] at hentered
  exact hentered.symm

/-! ### Four walks along a chain -/

omit h in
/-- On a way up, no name is met again. -/
theorem fresh (hacyclic : t.Acyclic) {seen : List String} (hseen : ∀ s ∈ seen, TransGen t.Extends s a) :
    seen.contains a = false := by
  rw [Bool.eq_false_iff]
  exact fun hmem => hacyclic a (hseen a (List.contains_iff_mem.1 hmem))

/-- The names behind a class are met on the way to its parent. -/
theorem seen_parent {p : TypeRef} (hc : e.class? a = some c) (hparent : c.parent = some p) {seen : List String}
    (hseen : ∀ s ∈ seen, TransGen t.Extends s a) : ∀ s ∈ a :: seen, TransGen t.Extends s p.name := by
  have hlink : t.Extends a p.name := (h.extends_iff hc).2 ⟨p, hparent, rfl⟩
  intro s hs
  rcases List.mem_cons.1 hs with rfl | hs
  · exact TransGen.single hlink
  · exact (hseen s hs).tail hlink

/-- Walking over names finds a class exactly on the chain. -/
theorem isSubclassFrom_of_chain (hacyclic : t.Acyclic) (hcs : e.Chain a cs) {n : ℕ} (hn : cs.length ≤ n)
    {seen : List String} (hseen : ∀ s ∈ seen, TransGen t.Extends s a) :
    e.isSubclassFrom b n seen a = (cs.map (·.1)).contains b := by
  induction hcs generalizing n seen with
  | @root a c hc hparent =>
      obtain ⟨n, rfl⟩ : ∃ n', n = n' + 1 := ⟨n - 1, by rw [List.length_singleton] at hn; omega⟩
      have hne := h.ne_empty (Option.isSome_of_eq_some hc)
      rw [Env.isSubclassFrom, hc, Option.bind_some, hparent, fresh hacyclic hseen]
      rcases eq_or_ne a b with rfl | hab
      · simp [hne]
      · simp [hne, hab, hab.symm]
  | @sub a c p cs hc hparent _ ih =>
      obtain ⟨n, rfl⟩ : ∃ n', n = n' + 1 := ⟨n - 1, by rw [List.length_cons] at hn; omega⟩
      have hne := h.ne_empty (Option.isSome_of_eq_some hc)
      rw [Env.isSubclassFrom, hc, Option.bind_some, hparent, fresh hacyclic hseen]
      simp only [hne, Bool.false_eq_true, or_self, if_false]
      rw [ih (by rw [List.length_cons] at hn; omega) (h.seen_parent hc hparent hseen)]
      rcases eq_or_ne a b with rfl | hab
      · simp
      · simp [hab, hab.symm]

/-- The walk over the environment goes along the chain. -/
theorem chainFrom_of_chain (hacyclic : t.Acyclic) (hcs : e.Chain a cs) {n : ℕ} (hn : cs.length ≤ n)
    {seen : List String} (hseen : ∀ s ∈ seen, TransGen t.Extends s a) :
    e.chainFrom n seen a = cs.map (·.2) := by
  induction hcs generalizing n seen with
  | @root a c hc hparent =>
      obtain ⟨n, rfl⟩ : ∃ n', n = n' + 1 := ⟨n - 1, by rw [List.length_singleton] at hn; omega⟩
      have hne := h.ne_empty (Option.isSome_of_eq_some hc)
      rw [Env.chainFrom, hc, fresh hacyclic hseen]
      simp [hne, hparent]
  | @sub a c p cs hc hparent _ ih =>
      obtain ⟨n, rfl⟩ : ∃ n', n = n' + 1 := ⟨n - 1, by rw [List.length_cons] at hn; omega⟩
      have hne := h.ne_empty (Option.isSome_of_eq_some hc)
      rw [Env.chainFrom, hc, fresh hacyclic hseen]
      simp only [hne, Bool.false_eq_true, or_self, if_false, hparent]
      rw [ih (by rw [List.length_cons] at hn; omega) (h.seen_parent hc hparent hseen), List.map_cons]

/-- The walk over the table goes along the chain as well. -/
theorem ancestorsFrom_of_chain (hacyclic : t.Acyclic) (hcs : e.Chain a cs) {n : ℕ} (hn : cs.length ≤ n)
    {seen : List String} (hseen : ∀ s ∈ seen, t.Descends s a) :
    a :: t.ancestorsFrom n seen a = cs.map (·.1) := by
  induction hcs generalizing n seen with
  | @root a c hc hparent =>
      have hnone : ∀ b, b ∉ t.ancestorsFrom n seen a := by
        intro b hb
        obtain ⟨p, hlink, -⟩ := TransGen.head'_iff.1 (transGen_of_mem_ancestorsFrom hb)
        obtain ⟨q, hq, -⟩ := (h.extends_iff hc).1 hlink
        cases hparent.symm.trans hq
      rw [List.eq_nil_iff_forall_not_mem.2 hnone, List.map_singleton]
  | @sub a c p cs hc hparent _ ih =>
      obtain ⟨n, rfl⟩ : ∃ n', n = n' + 1 := ⟨n - 1, by rw [List.length_cons] at hn; omega⟩
      have hlink : t.Extends a p.name := (h.extends_iff hc).2 ⟨p, hparent, rfl⟩
      have hseen' : ∀ s ∈ seen, TransGen t.Extends s p.name := fun s hs =>
        TransGen.tail' (hseen s hs) hlink
      obtain ⟨k, hk, hkparent, hne⟩ := id hlink
      rw [ancestorsFrom, hk]
      simp only [hkparent, hne, fresh hacyclic hseen', Bool.false_eq_true, or_self, if_false]
      rw [ih (by rw [List.length_cons] at hn; omega), List.map_cons]
      intro s hs
      rcases List.mem_cons.1 hs with rfl | hs
      · exact ReflTransGen.refl
      · exact (hseen' s hs).to_reflTransGen

/-- The ancestors of a class are the rest of its chain. -/
theorem ancestors_of_chain (hacyclic : t.Acyclic) (hcs : e.Chain a cs) : a :: t.ancestors a = cs.map (·.1) := by
  have hle := (h.length_le hacyclic hcs).2
  refine h.ancestorsFrom_of_chain hacyclic hcs (by omega) fun s hs => ?_
  rw [List.mem_singleton.1 hs]
  exact ReflTransGen.refl

/-- A class without type parameters puts its members over those of its parent. -/
theorem instanceWith_eq (resolve : String → List Ty → Lookup Ty) (hc : e.class? a = some c) :
    Env.instanceWith resolve c [] =
      (do
        let inherited ← match c.parent with
          | none => pure {}
          | some p =>
            match ← resolve p.name [] with
            | .object o => pure o
            | _ => pure {}
        return inherited.extend (c.instanceSide.apply [])) := by
  have hbind : bindNamed c.name c.params [] = pure [] := by
    rw [h.params a c hc]
    rfl
  rw [Env.instanceWith, hbind, h.params a c hc]
  simp only [List.isEmpty_nil, Bool.not_true, Bool.and_false, Bool.false_eq_true, if_false, pure_bind]
  cases hparent : c.parent with
  | none => rfl
  | some p =>
      have happly : p.apply [] = ⟨p.name, []⟩ := by
        rw [TypeRef.apply, (h.parents a c p hc hparent).1]
        rfl
      have hresolve : resolve (p.apply []).name (p.apply []).args = resolve p.name [] := by rw [happly]
      exact congrArg (· >>= _) hresolve

/-- **Resolving the name of a class goes along its chain**, if no name of the chain is a utility type. -/
theorem resolveUpTo_of_chain (he : e.Grown) (hacyclic : t.Acyclic) (hcs : e.Chain a cs)
    (hutility : ∀ c ∈ cs, isUtility c.1 = false) {n : ℕ} (hn : cs.length ≤ n) {active : List String}
    (hactive : ∀ s ∈ active, TransGen t.Extends s a) :
    e.resolveUpTo n active a [] = pure (.object (Env.instanceMembers cs)) := by
  have hstep : ∀ {n : ℕ} {active : List String} {a : String} {c : ClassShape}, e.class? a = some c →
      isUtility a = false → (∀ s ∈ active, TransGen t.Extends s a) →
      e.resolveUpTo (n + 1) active a [] =
        .object <$> Env.instanceWith (e.resolveUpTo n (a :: active)) c [] := by
    intro n active a c hc hutility hactive
    obtain ⟨hbuiltin, halias, hinterface⟩ := he.of_class (Option.isSome_of_eq_some hc)
    rw [Env.resolveUpTo, hbuiltin]
    simp only [hutility, fresh hacyclic hactive, halias, hinterface, hc, Bool.false_eq_true, if_false]
  induction hcs generalizing n active with
  | @root a c hc hparent =>
      obtain ⟨n, rfl⟩ : ∃ n', n = n' + 1 := ⟨n - 1, by rw [List.length_singleton] at hn; omega⟩
      rw [hstep hc (hutility _ List.mem_cons_self) hactive, h.instanceWith_eq _ hc, hparent]
      rfl
  | @sub a c p cs hc hparent _ ih =>
      obtain ⟨n, rfl⟩ : ∃ n', n = n' + 1 := ⟨n - 1, by rw [List.length_cons] at hn; omega⟩
      rw [hstep hc (hutility _ List.mem_cons_self) hactive, h.instanceWith_eq _ hc, hparent]
      simp only []
      rw [ih (fun c hc => hutility c (List.mem_cons_of_mem _ hc)) (by rw [List.length_cons] at hn; omega)
        (h.seen_parent hc hparent hactive)]
      rfl

/-- The type of an instance is built from the shapes on the chain. -/
theorem instanceType_of_chain (he : e.Grown) (hacyclic : t.Acyclic) (hcs : e.Chain a cs)
    (hutility : ∀ n c p, e.class? n = some c → c.parent = some p → isUtility p.name = false) :
    e.instanceType a [] = pure (Env.instanceMembers cs) := by
  cases hcs with
  | @root _ c hc hparent =>
      rw [Env.instanceType, hc]
      simp only []
      rw [h.instanceWith_eq _ hc, hparent]
      rfl
  | @sub _ c p cs hc hparent hcs =>
      -- every name of the rest of the chain is that of a parent
      have hrest : ∀ d ∈ cs, isUtility d.1 = false := by
        intro d hd
        have hlinks := List.rel_of_pairwise_cons (h.pairwise (.sub hc hparent hcs)) hd
        obtain ⟨b, -, hlink⟩ := TransGen.tail'_iff.1 hlinks
        obtain ⟨k, hk⟩ : ∃ k, e.class? b = some k := by
          obtain ⟨k, hk, -⟩ := hlink
          exact Option.isSome_iff_exists.1 ((h.entered b).trans (Option.isSome_of_eq_some hk))
        obtain ⟨q, hq, hname⟩ := (h.extends_iff hk).1 hlink
        exact hname ▸ hutility b k q hk hq
      have hresolve : e.resolve p.name [] = pure (.object (Env.instanceMembers cs)) := by
        refine h.resolveUpTo_of_chain he hacyclic hcs hrest ?_ (fun s hs => absurd hs List.not_mem_nil)
        have := (h.length_le hacyclic hcs).1
        unfold Env.depthFor Env.definitions
        omega
      rw [Env.instanceType, hc]
      simp only []
      rw [h.instanceWith_eq _ hc, hparent]
      simp only [hresolve]
      rfl

/-- So is the type of the class itself. -/
theorem staticType_of_chain (hacyclic : t.Acyclic) (hcs : e.Chain a cs) :
    e.staticType a = .ok (Env.staticMembers cs) := by
  have hne := h.ne_empty hcs.isClass
  have hle := (h.length_le hacyclic hcs).1
  rw [Env.staticType, hcs.isClass, Env.chain, h.chainFrom_of_chain hacyclic hcs (by omega)
    (fun s hs => absurd hs List.not_mem_nil)]
  simp only [hne, ne_eq, not_false_eq_true, decide_true, Bool.and_self, if_true]
  congr 1
  rw [List.foldl_flatMap, List.foldl_reverse, List.foldr_map]
  rfl

end

/-! ### Owners -/

/-- The walk over names stops at the first class of the chain that declares the member. -/
theorem ownerIn_of_classes (h : SameClasses e t) (m : String) (hcs : ∀ c ∈ cs, e.class? c.1 = some c.2) :
    (∀ c ∈ cs, ¬ c.2.Declares m) ∧ t.ownerIn m (cs.map (·.1)) = none ∨
      ∃ below o c above k, cs = below ++ (o, c) :: above ∧ (∀ b ∈ below, ¬ b.2.Declares m) ∧
        c.Declares m ∧ t.ownerIn m (cs.map (·.1)) = some (o, k) := by
  induction cs with
  | nil => exact Or.inl ⟨fun c hc => absurd hc List.not_mem_nil, rfl⟩
  | cons c cs ih =>
      obtain ⟨n, c⟩ := c
      have hc : e.class? n = some c := hcs (n, c) List.mem_cons_self
      obtain ⟨k, hk⟩ := Option.isSome_iff_exists.1 ((h.entered n).symm.trans (Option.isSome_of_eq_some hc))
      have hdeclares := h.declares n c k hc hk m
      rw [List.map_cons, ownerIn, hk]
      dsimp only
      cases hm : k.members.get? m with
      | some d =>
          refine Or.inr ⟨[], n, c, cs, d, rfl, fun b hb => absurd hb List.not_mem_nil, ?_, rfl⟩
          exact hdeclares.1 (Option.isSome_of_eq_some hm)
      | none =>
          have hnot : ¬ c.Declares m := by
            rw [← hdeclares, Assoc.has, hm]
            exact Bool.false_ne_true
          rcases ih fun d hd => hcs d (List.mem_cons_of_mem _ hd) with
            ⟨hnone, howner⟩ | ⟨below, o, d, above, l, rfl, hbelow, hd, howner⟩
          · refine Or.inl ⟨fun d hd => ?_, howner⟩
            rcases List.mem_cons.1 hd with rfl | hd
            · exact hnot
            · exact hnone d hd
          · refine Or.inr ⟨(n, c) :: below, o, d, above, l, rfl, fun b hb => ?_, hd, howner⟩
            rcases List.mem_cons.1 hb with rfl | hb
            · exact hnot
            · exact hbelow b hb

/-- The first declaration on a side is found, if no class before it declares the name and, where the
class itself does not declare it on that side, no class after it does. -/
theorem findSome?_side (side : ClassShape → Option Member) {o : String}
    {below above : List (String × ClassShape)} (hbelow : ∀ b ∈ below, side b.2 = none)
    (habove : side c = none → ∀ b ∈ above, side b.2 = none) :
    (below ++ (o, c) :: above).findSome? (fun d => side d.2) = side c := by
  rw [List.findSome?_append, List.findSome?_eq_none_iff.2 hbelow, Option.none_or, List.findSome?_cons]
  cases hside : side c with
  | some d => rfl
  | none => exact List.findSome?_eq_none_iff.2 (habove hside)

/-- **What comes together along the chain is what the owner declares.** -/
theorem find?_of_owner (h : SameClasses e t) (hacyclic : t.Acyclic) {m o : String}
    {below above : List (String × ClassShape)} (hcs : e.Chain a (below ++ (o, c) :: above))
    (hbelow : ∀ b ∈ below, ¬ b.2.Declares m) (hc : c.Declares m) :
    (Env.instanceMembers (below ++ (o, c) :: above)).find? m =
        (c.instanceSide.last? m).map (fun d => { d with type := d.type.apply [] }) ∧
      (Env.staticMembers (below ++ (o, c) :: above)).find? m = c.staticSide.last? m := by
  have hclass : e.class? o = some c := hcs.class? (o, c) (List.mem_append_right _ List.mem_cons_self)
  -- a class above the owner declares the name on no other side than the owner
  have habove : ∀ b ∈ above, (t.Descends o b.1 ∨ t.Descends b.1 o) ∧ o ≠ b.1 ∧ e.class? b.1 = some b.2 := by
    intro b hb
    have hlinks := List.rel_of_pairwise_cons (List.pairwise_append.1 (h.pairwise hcs)).2.1 hb
    refine ⟨Or.inl hlinks.to_reflTransGen, ?_,
      hcs.class? b (List.mem_append_right _ (List.mem_cons_of_mem _ hb))⟩
    rintro heq
    exact hacyclic o (heq ▸ hlinks)
  rw [Env.find?_instanceMembers, Env.find?_staticMembers, ← ObjectOf.last?_apply]
  constructor
  · refine findSome?_side (fun d => (d.instanceSide.apply []).last? m) (fun b hb => ?_) fun hnone b hb => ?_
    · rw [ObjectOf.last?_apply, Option.map_eq_none_iff, ObjectOf.last?_eq_none_iff]
      exact fun hm => hbelow b hb (Or.inl hm)
    · rw [ObjectOf.last?_apply, Option.map_eq_none_iff, ObjectOf.last?_eq_none_iff] at hnone ⊢
      obtain ⟨hdesc, hne, hb⟩ := habove b hb
      exact fun hm => h.apart b.1 o b.2 c hdesc.symm hne.symm hb hclass m ⟨hm, hc.resolve_left hnone⟩
  · refine findSome?_side (fun d => d.staticSide.last? m) (fun b hb => ?_) fun hnone b hb => ?_
    · rw [ObjectOf.last?_eq_none_iff]
      exact fun hm => hbelow b hb (Or.inr hm)
    · rw [ObjectOf.last?_eq_none_iff] at hnone ⊢
      obtain ⟨hdesc, hne, hb⟩ := habove b hb
      exact fun hm => h.apart o b.1 c b.2 hdesc hne hclass hb m ⟨hc.resolve_right hnone, hm⟩

end SameClasses

open ClassTable

/-- **The environment and the class table agree about classes.**  Subclasses are the same.  If no parent
is named like a utility type, a member has an owner if and only if the instances or the class itself have
it, and what they have is the owner's own declaration; resolving it only brings its type into normal
form. -/
theorem tables_agree {e : Env} (he : e.Grown) (rs : List Request) (h : SameClasses e (after rs)) :
    (∀ a b, e.isClass a = true → e.isClass b = true → e.isSubclass a b = (after rs).isSubclass a b) ∧
      ((∀ n c p, e.class? n = some c → c.parent = some p → isUtility p.name = false) →
        ∀ a, e.isClass a = true → ∃ inst stat, e.instanceType a [] = pure inst ∧ e.staticType a = .ok stat ∧
          ∀ m,
            (((after rs).owner? a m).isSome = true ↔
              (inst.find? m).isSome = true ∨ (stat.find? m).isSome = true) ∧
            ∀ o k, (after rs).owner? a m = some (o, k) → ∃ c, e.class? o = some c ∧
              inst.find? m = (c.instanceSide.last? m).map (fun d => { d with type := d.type.apply [] }) ∧
              stat.find? m = c.staticSide.last? m ∧
              ∀ d ∈ c.instanceSide.last? m, d.type.Normal → inst.find? m = some d) := by
  have hacyclic := (linked_after rs).acyclic
  refine ⟨fun a b ha _ => ?_, fun hutility a ha => ?_⟩
  · obtain ⟨cs, hcs⟩ := h.exists_chain hacyclic ha
    have hle := (h.length_le hacyclic hcs).1
    rw [Env.isSubclass, h.isSubclassFrom_of_chain hacyclic hcs (by omega)
      (fun s hs => absurd hs List.not_mem_nil), ← h.ancestors_of_chain hacyclic hcs, isSubclass,
      List.contains_cons]
    congr 1
    exact Bool.beq_comm
  · obtain ⟨cs, hcs⟩ := h.exists_chain hacyclic ha
    refine ⟨_, _, h.instanceType_of_chain he hacyclic hcs hutility, h.staticType_of_chain hacyclic hcs,
      fun m => ?_⟩
    rw [owner?, h.ancestors_of_chain hacyclic hcs]
    rcases h.ownerIn_of_classes m hcs.class? with
      ⟨hnone, howner⟩ | ⟨below, o, c, above, k, rfl, hbelow, hc, howner⟩
    · refine ⟨iff_of_false (by simp [howner]) ?_, fun o k hk => by simp [howner] at hk⟩
      rw [Env.find?_instanceMembers, Env.find?_staticMembers, List.findSome?_eq_none_iff.2 fun c hc => ?_,
        List.findSome?_eq_none_iff.2 fun c hc => ?_]
      · simp
      · rw [ObjectOf.last?_eq_none_iff]
        exact fun hm => hnone c hc (Or.inr hm)
      · rw [ObjectOf.last?_apply, Option.map_eq_none_iff, ObjectOf.last?_eq_none_iff]
        exact fun hm => hnone c hc (Or.inl hm)
    · obtain ⟨hinst, hstat⟩ := h.find?_of_owner hacyclic hcs hbelow hc
      rw [howner, hinst, hstat]
      refine ⟨iff_of_true rfl ?_, ?_⟩
      · rw [Option.isSome_map, ObjectOf.isSome_last?_iff, ObjectOf.isSome_last?_iff]
        exact hc
      · rintro _ _ ⟨⟩
        refine ⟨c, hcs.class? (o, c) (List.mem_append_right _ List.mem_cons_self), rfl, rfl, fun d hd hnormal => ?_⟩
        rw [Option.mem_def.1 hd, Option.map_some, hnormal.apply_nil]

/-! ### Two classes -/

/-- A class with a member on each side. -/
def baseShape (base : String) : ClassShape :=
  { name := base
    instanceSide := { members := [{ name := "x", type := .number }] }
    staticSide := { members := [{ name := "of", type := .string }] } }

/-- A class below it, with a member of its own. -/
def subShape (base : String) : ClassShape :=
  { name := "Sub", parent := some { name := base }
    instanceSide := { members := [{ name := "y", type := .string }] } }

def twoShapes (base : String) : Env := (Env.setClass {} (baseShape base)).setClass (subShape base)

/-- The requests that enter both classes with their members. -/
def twoRequests (base : String) : List Request :=
  [.register base "" false false, .register "Sub" base false false, .addMember base { name := "x" },
    .addMember base { name := "of", static := true }, .addMember "Sub" { name := "y" }]

/-- The records that the requests leave. -/
def twoRecords (base : String) : Assoc AccessClass :=
  [(base, { name := base, members := [("x", { name := "x" }), ("of", { name := "of", static := true })] }),
    ("Sub", { name := "Sub", parent := base, members := [("y", { name := "y" })] })]

section

variable {base : String}

theorem class?_twoShapes (base n : String) : (twoShapes base).class? n =
    if "Sub" = n then some (subShape base) else if base = n then some (baseShape base) else none := by
  rw [twoShapes, Env.class?_setClass, Env.class?_setClass]
  rfl

theorem shape_cases {n : String} {c : ClassShape} (h : (twoShapes base).class? n = some c) :
    n = "Sub" ∧ c = subShape base ∨ n = base ∧ c = baseShape base := by
  rw [class?_twoShapes] at h
  split at h
  · next hn => exact Or.inl ⟨hn.symm, (Option.some.inj h).symm⟩
  · split at h
    · next hn => exact Or.inr ⟨hn.symm, (Option.some.inj h).symm⟩
    · cases h

theorem grown_twoShapes (hfree : Env.isFree {} base = true) (hsub : base ≠ "Sub") : (twoShapes base).Grown := by
  have hbase : Env.addClass {} (baseShape base) = .ok (Env.setClass {} (baseShape base)) := if_pos hfree
  have hfree' : (Env.setClass {} (baseShape base)).isFree "Sub" = true := by
    rw [Env.isFree, Env.isRegistered_setClass, decide_eq_false (show (baseShape base).name ≠ "Sub" from hsub)]
    decide
  have hadd : (Env.setClass {} (baseShape base)).addClass (subShape base) = .ok (twoShapes base) := if_pos hfree'
  exact .addClass (.addClass .empty hbase) hadd

/-- The two example classes are the same in the environment and in the table. -/
theorem sameClasses_two (hbase : base ≠ "") (hsub : base ≠ "Sub") {t : ClassTable}
    (ht : t.classes = twoRecords base) : SameClasses (twoShapes base) t := by
  have hrecord : ∀ n, t.class? n = (twoRecords base).get? n := fun n => by rw [ClassTable.class?, ht]
  have hsubRecord : t.class? "Sub" = some { name := "Sub", parent := base, members := [("y", { name := "y" })] } := by
    rw [hrecord, twoRecords, Assoc.get?, if_neg hsub]
    rfl
  have hbaseRecord : t.class? base =
      some { name := base, members := [("x", { name := "x" }), ("of", { name := "of", static := true })] } := by
    rw [hrecord, twoRecords, Assoc.get?, if_pos rfl]
  have hsubShape : (twoShapes base).class? "Sub" = some (subShape base) := by
    rw [class?_twoShapes, if_pos rfl]
  have hbaseShape : (twoShapes base).class? base = some (baseShape base) := by
    rw [class?_twoShapes, if_neg hsub.symm, if_pos rfl]
  refine
    { entered := fun n => ?_
      named := ?_
      params := fun n c hc => ?_
      parents := fun n c p hc hp => ?_
      parent? := fun n c hc => ?_
      declares := fun n c k hc hk m => ?_
      apart := fun a b c d _ _ hc hd m => ?_ }
  · rw [Env.isClass, Assoc.has, ← Env.class?, class?_twoShapes, hrecord, twoRecords, Assoc.get?, Assoc.get?]
    by_cases h₁ : base = n <;> by_cases h₂ : "Sub" = n <;> simp [h₁, h₂]
  · rw [Env.isClass, Assoc.has, ← Env.class?, class?_twoShapes]
    simp [hbase]
  · rcases shape_cases hc with ⟨-, rfl⟩ | ⟨-, rfl⟩ <;> rfl
  · rcases shape_cases hc with ⟨-, rfl⟩ | ⟨-, rfl⟩
    · cases hp
      exact ⟨rfl, Option.isSome_of_eq_some hbaseShape⟩
    · cases hp
  · rw [ClassTable.parent?]
    rcases shape_cases hc with ⟨rfl, rfl⟩ | ⟨rfl, rfl⟩
    · rw [hsubRecord]
      rfl
    · rw [hbaseRecord]
      rfl
  · rcases shape_cases hc with ⟨rfl, rfl⟩ | ⟨rfl, rfl⟩
    · cases hsubRecord.symm.trans hk
      simp [Assoc.has_iff_mem_keys, Assoc.keys, ClassShape.Declares, ObjectOf.names, subShape]
    · cases hbaseRecord.symm.trans hk
      simp [Assoc.has_iff_mem_keys, Assoc.keys, ClassShape.Declares, ObjectOf.names, baseShape]
  · -- the names of the instances are not those of static members
    have hinst : m ∈ c.instanceSide.names → m = "x" ∨ m = "y" := by
      rcases shape_cases hc with ⟨-, rfl⟩ | ⟨-, rfl⟩ <;>
        simp +contextual [ObjectOf.names, subShape, baseShape]
    have hstat : m ∈ d.staticSide.names → m = "of" := by
      rcases shape_cases hd with ⟨-, rfl⟩ | ⟨-, rfl⟩ <;> simp [ObjectOf.names, subShape, baseShape]
    rintro ⟨hm, hm'⟩
    have hof := hstat hm'
    subst hof
    exact absurd (hinst hm) (by decide)

end

/-- No utility type is called `Shape`. -/
theorem tables_agree_shape :
    (twoShapes "Shape").isSubclass "Sub" "Shape" = (after (twoRequests "Shape")).isSubclass "Sub" "Shape" ∧
      ∃ inst, (twoShapes "Shape").instanceType "Sub" [] = pure inst ∧
        inst.find? "x" = some { name := "x", type := .number } := by
  have hgrown : (twoShapes "Shape").Grown := grown_twoShapes (by decide) (by decide)
  obtain ⟨hsubclass, hmembers⟩ :=
    tables_agree hgrown (twoRequests "Shape") (sameClasses_two (by decide) (by decide) rfl)
  have hutility : ∀ n c p, (twoShapes "Shape").class? n = some c → c.parent = some p →
      isUtility p.name = false := by
    intro n c p hc hp
    rcases shape_cases hc with ⟨-, rfl⟩ | ⟨-, rfl⟩
    · cases hp
      decide
    · cases hp
  obtain ⟨inst, stat, hinst, -, hall⟩ := hmembers hutility "Sub" rfl
  obtain ⟨c, hc, -, -, hfind⟩ := (hall "x").2 "Shape" { name := "x" } rfl
  cases hc
  exact ⟨hsubclass "Sub" "Shape" rfl rfl, inst, hinst, hfind _ rfl (Ty.normal_prim _)⟩

/-- **A parent that is named like a utility type is no parent for instances**: its reference is taken for
the utility type without an argument, while the class table finds the member there. -/
theorem not_tables_agree_partial :
    (twoShapes "Partial").Grown ∧ SameClasses (twoShapes "Partial") (after (twoRequests "Partial")) ∧
      (after (twoRequests "Partial")).owner? "Sub" "x" = some ("Partial", { name := "x" }) ∧
      (twoShapes "Partial").instanceType "Sub" [] = throw (.arity "Partial" 1 1 0) := by
  have h : SameClasses (twoShapes "Partial") (after (twoRequests "Partial")) :=
    sameClasses_two (by decide) (by decide) rfl
  have hresolve : (twoShapes "Partial").resolve "Partial" [] = throw (.arity "Partial" 1 1 0) := by
    obtain ⟨n, hn⟩ : ∃ n, (twoShapes "Partial").depthFor (.ref "Partial" []) = n + 1 :=
      ⟨_, (Nat.sub_add_cancel (by unfold Env.depthFor queryDepth; omega)).symm⟩
    rw [Env.resolve, hn, Env.resolveUpTo]
    rfl
  refine ⟨grown_twoShapes (by decide) (by decide), h, rfl, ?_⟩
  rw [Env.instanceType, show (twoShapes "Partial").class? "Sub" = some (subShape "Partial") from rfl]
  dsimp only
  rw [h.instanceWith_eq _ (a := "Sub") rfl]
  simp only [subShape, hresolve]
  rfl

end TreeCheck
