import TreeCheck.Flow.Narrow
import TreeCheck.Proofs.Env.Resolution
import Mathlib.Order.WellFounded

/-!
# Classifying types

The word for the values of a type, and the record behind it, are found by going from a name to what it
stands for and from a type parameter to its bound.  Nothing keeps track of the types met, so the walk
ends only if it makes progress.  There are two ways in which it does not: a reference may stand for a
reference, as a utility type over a type parameter in scope stands for itself, and bounds may go round in
a circle.  Where references stand for no references, the circles decide.

* `Env.Expands`, `Env.Goes` — what a reference stands for, and one step of the walk;
* `Env.Classifies` — the walk from a type ends, for the word and for the record;
* `Env.Progresses` — the references met stand for no references;
* `Env.classifies_iff` — the walk ends exactly when no parameter that it meets leads back to itself;
* `Env.progresses_of_utilityFree` — references stand for no references where there are no utility types;
* `not_classifies_waiting` — a utility type that waits for a type argument.
-/

namespace TreeCheck

namespace Env

/-! ### The walk -/

/-- What comes of expanding a reference, with names resolved as deep as need be. -/
def Expands (e : Env) (t : Ty) (q : Query (Option Ty)) : Prop :=
  ∃ K, ∀ k ≥ K, (e.resolverAt k).expand t = q

/-- One step of the walk. -/
inductive Goes (e : Env) : Ty → Ty → Prop
  | name {x : String} {args : List Ty} {u : Ty} :
      e.Expands (.ref x args) (.ok (some u)) → Goes e (.ref x args) u
  | bound {v : String} {b : Ty} : e.bound? v = some b → Goes e (.tvar v) b

abbrev Meets (e : Env) : Ty → Ty → Prop := Relation.ReflTransGen e.Goes

/-- The classification of the type ends, with names resolved as deep as need be: the word for its values
is found, or there is none, and likewise the record behind it. -/
def Classifies (e : Env) (t : Ty) : Prop :=
  ∃ N, ∀ k ≥ N, ∀ n ≥ N, runtimeTypeUpTo (e.resolverAt k) n t ≠ .error .outOfFuel ∧
    recordUpTo (e.resolverAt k) n t ≠ .error .outOfFuel

/-- Resolution ends for each reference that the walk meets, and gives no reference. -/
structure Progresses (e : Env) (t : Ty) : Prop where
  resolves : ∀ x args, e.Meets t (.ref x args) → ∃ q, q ≠ .error .outOfFuel ∧ e.Expands (.ref x args) q
  unwraps : ∀ x args u, e.Meets t (.ref x args) → e.Goes (.ref x args) u → ∀ y as, u ≠ .ref y as

variable {e : Env} {t u : Ty} {v x : String} {args : List Ty}
  {q : Query (Option Ty)}

theorem Progresses.of_meets (h : e.Progresses t) (hu : e.Meets t u) : e.Progresses u where
  resolves x args hx := h.resolves x args (hu.trans hx)
  unwraps x args w hx := h.unwraps x args w (hu.trans hx)

/-! ### Steps -/

/-- A name is classified as what it expands to. -/
theorem classifies_of_expands (hq : e.Expands (.ref x args) q) (hends : q ≠ .error .outOfFuel)
    (h : ∀ u, q = .ok (some u) → e.Classifies u) : e.Classifies (.ref x args) := by
  obtain ⟨K, hK⟩ := hq
  cases q with
  | error f =>
      refine ⟨K + 1, fun k hk n hn => ?_⟩
      obtain ⟨n, rfl⟩ : ∃ m, n = m + 1 := ⟨n - 1, by omega⟩
      rw [runtimeTypeUpTo, recordUpTo, hK k (by omega)]
      exact ⟨fun heq => hends (congrArg Except.error (Except.error.inj heq)),
        fun heq => hends (congrArg Except.error (Except.error.inj heq))⟩
  | ok o =>
      cases o with
      | none =>
          refine ⟨K + 1, fun k hk n hn => ?_⟩
          obtain ⟨n, rfl⟩ : ∃ m, n = m + 1 := ⟨n - 1, by omega⟩
          rw [runtimeTypeUpTo, recordUpTo, hK k (by omega)]
          exact ⟨nofun, nofun⟩
      | some u =>
          obtain ⟨N, hN⟩ := h u rfl
          refine ⟨max K N + 1, fun k hk n hn => ?_⟩
          obtain ⟨n, rfl⟩ : ∃ m, n = m + 1 := ⟨n - 1, by omega⟩
          rw [runtimeTypeUpTo, recordUpTo, hK k (by omega)]
          exact hN k (by omega) n (by omega)

/-- A type variable is classified as its bound. -/
theorem classifies_tvar (h : ∀ b, e.bound? v = some b → e.Classifies b) : e.Classifies (.tvar v) := by
  cases hb : e.bound? v with
  | none =>
      refine ⟨1, fun k _ n hn => ?_⟩
      obtain ⟨n, rfl⟩ : ∃ m, n = m + 1 := ⟨n - 1, by omega⟩
      rw [runtimeTypeUpTo, show (e.resolverAt k).bound v = none from hb]
      exact ⟨nofun, nofun⟩
  | some b =>
      obtain ⟨N, hN⟩ := h b hb
      refine ⟨N + 1, fun k hk n hn => ?_⟩
      obtain ⟨n, rfl⟩ : ∃ m, n = m + 1 := ⟨n - 1, by omega⟩
      rw [runtimeTypeUpTo, show (e.resolverAt k).bound v = some b from hb]
      exact ⟨(hN k (by omega) n (by omega)).1, nofun⟩

/-- Every other type is classified at once. -/
theorem classifies_of_structure (href : ∀ x args, t ≠ .ref x args) (htvar : ∀ v, t ≠ .tvar v) :
    e.Classifies t := by
  refine ⟨1, fun k _ n hn => ?_⟩
  obtain ⟨n, rfl⟩ : ∃ m, n = m + 1 := ⟨n - 1, by omega⟩
  cases t with
  | ref x args => exact absurd rfl (href x args)
  | tvar v => exact absurd rfl (htvar v)
  | inter ts =>
      rw [runtimeTypeUpTo, recordUpTo]
      refine ⟨nofun, ?_⟩
      split <;> exact nofun
  | _ => exact ⟨nofun, nofun⟩

/-! ### Where the walk ends -/

/-- A walk with a next step from each of its types does not end. -/
theorem not_classifies_of_endless {S : Set Ty} (hnext : ∀ u ∈ S, ∃ w ∈ S, e.Goes u w) (ht : t ∈ S) :
    ¬ e.Classifies t := by
  have hdeep : ∀ n, ∀ u ∈ S, ∃ K, ∀ k ≥ K, runtimeTypeUpTo (e.resolverAt k) n u = .error .outOfFuel := by
    intro n
    induction n with
    | zero => exact fun u _ => ⟨0, fun k _ => rfl⟩
    | succ n ih =>
        intro u hu
        obtain ⟨w, hw, hgoes⟩ := hnext u hu
        obtain ⟨L, hL⟩ := ih w hw
        cases hgoes with
        | name hexpands =>
            obtain ⟨K, hK⟩ := hexpands
            refine ⟨max K L, fun k hk => ?_⟩
            rw [runtimeTypeUpTo, hK k (by omega)]
            exact hL k (by omega)
        | @bound v _ hb =>
            refine ⟨L, fun k hk => ?_⟩
            rw [runtimeTypeUpTo, show (e.resolverAt k).bound v = some w from hb]
            exact hL k hk
  rintro ⟨N, hN⟩
  obtain ⟨K, hK⟩ := hdeep N t ht
  exact (hN (max N K) (le_max_left _ _) N le_rfl).1 (hK _ (le_max_right _ _))

def scopeNames (e : Env) : List String := e.bounds.flatMap Assoc.keys

theorem mem_scopeNames_of_bound? {b : Ty} (h : e.bound? v = some b) : v ∈ e.scopeNames := by
  rw [bound?, Option.join_eq_some_iff] at h
  obtain ⟨s, hs, hget⟩ := List.exists_of_findSome?_eq_some h
  exact List.mem_flatMap.2 ⟨s, hs, (Assoc.has_iff_mem_keys _ _).1 (by rw [Assoc.has, hget]; rfl)⟩

/-- The type parameters with a bound that the walk from a type meets. -/
def Bounded (e : Env) (t : Ty) : Type := {v : String // e.Meets t (.tvar v) ∧ ∃ b, e.bound? v = some b}

instance (e : Env) (t : Ty) : Finite (e.Bounded t) :=
  Set.Finite.subset (List.finite_toSet e.scopeNames) fun _ ⟨_, _, hb⟩ => mem_scopeNames_of_bound? hb

/-- Without circles there is no endless walk from parameter to parameter. -/
theorem wellFounded_bounded (h : ∀ v, e.Meets t (.tvar v) → ¬ Relation.TransGen e.Goes (.tvar v) (.tvar v)) :
    WellFounded fun w v : e.Bounded t => Relation.TransGen e.Goes (.tvar v.1) (.tvar w.1) := by
  have htrans : IsTrans (e.Bounded t) fun w v => Relation.TransGen e.Goes (.tvar v.1) (.tvar w.1) :=
    ⟨fun _ _ _ hab hbc => hbc.trans hab⟩
  have hirrefl : Std.Irrefl fun w v : e.Bounded t => Relation.TransGen e.Goes (.tvar v.1) (.tvar w.1) :=
    ⟨fun v => h v.1 v.2.1⟩
  exact Finite.wellFounded_of_trans_of_irrefl _

/-- A type is classified if the bounded parameters are that it leads to: in between there is at most one
reference. -/
theorem classifies_of_params (h : e.Progresses t)
    (hparam : ∀ v, e.Meets t (.tvar v) → (∃ b, e.bound? v = some b) → e.Classifies (.tvar v)) :
    e.Classifies t := by
  have hother : ∀ u, e.Meets t u → (∀ x args, u ≠ .ref x args) → e.Classifies u := by
    intro u hu href
    by_cases htvar : ∃ v, u = .tvar v
    · obtain ⟨v, rfl⟩ := htvar
      by_cases hb : ∃ b, e.bound? v = some b
      · exact hparam v hu hb
      · exact classifies_tvar fun b hbound => absurd ⟨b, hbound⟩ hb
    · exact classifies_of_structure href fun v hv => htvar ⟨v, hv⟩
  by_cases href : ∃ x args, t = .ref x args
  · obtain ⟨x, args, rfl⟩ := href
    obtain ⟨q, hends, hq⟩ := h.resolves x args .refl
    refine classifies_of_expands hq hends fun u hu => ?_
    have hgoes : e.Goes (.ref x args) u := .name (hu ▸ hq)
    exact hother u (.single hgoes) (h.unwraps x args u .refl hgoes)
  · exact hother t .refl fun x args hx => href ⟨x, args, hx⟩

/-- **Where classification ends.**  If the references that are met stand for no references, the type is
classified exactly when no type parameter that is met leads back to itself. -/
theorem classifies_iff (h : e.Progresses t) :
    e.Classifies t ↔ ∀ v, e.Meets t (.tvar v) → ¬ Relation.TransGen e.Goes (.tvar v) (.tvar v) := by
  constructor
  · intro hends v hmeets hcircle
    -- from each type before the circle and on it the walk goes on to the parameter
    refine not_classifies_of_endless (S := {u | e.Meets u (.tvar v)}) (fun u hu => ?_) hmeets hends
    obtain rfl | ⟨w, hgoes, hw⟩ := Relation.ReflTransGen.cases_head hu
    · obtain ⟨w, hgoes, hw⟩ := Relation.TransGen.head'_iff.1 hcircle
      exact ⟨w, hw, hgoes⟩
    · exact ⟨w, hw, hgoes⟩
  · intro hcircle
    have hparam : ∀ v : e.Bounded t, e.Classifies (.tvar v.1) := by
      intro v
      induction v using (wellFounded_bounded hcircle).induction with
      | _ v ih =>
          refine classifies_tvar fun b hb => ?_
          have hmeets : e.Meets t b := v.2.1.tail (.bound hb)
          exact classifies_of_params (h.of_meets hmeets) fun w hw hbound =>
            ih ⟨w, hmeets.trans hw, hbound⟩ (.head' (.bound hb) hw)
    exact classifies_of_params h fun v hv hbound => hparam ⟨v, hv, hbound⟩

/-! ### References that stand for no references -/

/-- A lookup that finds something after another one. -/
theorem exists_of_lookup_bind {α β : Type} {l : Lookup α} {f : α → Lookup β} {b : β}
    (h : (l >>= f).run = .ok (.ok b)) : ∃ a, l.run = .ok (.ok a) ∧ (f a).run = .ok (.ok b) := by
  rw [ExceptT.run_bind] at h
  cases hl : l.run with
  | error f =>
      rw [hl] at h
      cases h
  | ok r =>
      rw [hl] at h
      cases r with
      | error err => cases h
      | ok a => exact ⟨a, rfl, h⟩

/-- What a name stands for is no reference, unless a utility type gives one: an alias of a reference stands
for what that one stands for. -/
theorem not_ref_of_resolveUpTo (h : e.UtilityFree) {n : ℕ} {active : List String}
    (href : (Ty.ref x args).UtilityFree) (hu : (e.resolveUpTo n active x args).run = .ok (.ok u))
    (y : String) (as : List Ty) : u ≠ .ref y as := by
  induction n generalizing active x args with
  | zero => cases hu
  | succ n ih =>
      obtain ⟨hx, hargs⟩ := Ty.utilityFree_ref_iff.1 href
      rw [resolveUpTo] at hu
      cases hbuiltin : builtin? x with
      | some t =>
          obtain ⟨p, -, rfl⟩ := prim_of_builtin? hbuiltin
          simp only [hbuiltin] at hu
          split at hu
          · cases hu
            exact fun heq => by cases heq
          · cases hu
      | none =>
          simp only [hbuiltin, hx, Bool.false_eq_true, if_false] at hu
          split at hu
          · cases hu
          cases halias : e.alias? x with
          | some a =>
              simp only [halias] at hu
              obtain ⟨s, hs, hu⟩ := exists_of_lookup_bind hu
              obtain ⟨hps, hbody⟩ := h.aliases x a halias
              have hfinds := (bindNamed_settles x hps hargs).finds
              rw [Finds, hs] at hfinds
              have happly := hbody.apply hfinds
              cases hbodyref : a.body.apply s with
              | ref z bs =>
                  rw [hbodyref] at hu happly
                  exact ih happly hu
              | _ =>
                  rw [hbodyref] at hu
                  cases hu
                  exact fun heq => by cases heq
          | none =>
              cases hinterface : e.interface? x with
              | some i =>
                  simp only [halias, hinterface] at hu
                  obtain ⟨o, -, hu⟩ := exists_of_lookup_bind hu
                  cases hu
                  exact fun heq => by cases heq
              | none =>
                  cases hclass : e.class? x with
                  | some c =>
                      simp only [halias, hinterface, hclass] at hu
                      obtain ⟨o, -, hu⟩ := exists_of_lookup_bind hu
                      cases hu
                      exact fun heq => by cases heq
                  | none =>
                      simp only [halias, hinterface, hclass] at hu
                      cases hu

/-- Resolution ends where there are no utility types. -/
theorem expands_of_utilityFree (h : e.UtilityFree) (href : (Ty.ref x args).UtilityFree) :
    ∃ q, q ≠ .error .outOfFuel ∧ e.Expands (.ref x args) q :=
  ⟨_, (open_resolverAt h (Nat.lt_succ_self _) (Nat.lt_succ_self _) href).2.1, e.unresolved [] + 1, fun _ hk =>
    (open_resolverAt h (by omega) (Nat.lt_succ_self _) href).1⟩

/-- The walk stays among types without utility types. -/
theorem Goes.utilityFree (h : e.UtilityFree) (hgoes : e.Goes t u) (ht : t.UtilityFree) : u.UtilityFree := by
  cases hgoes with
  | name hexpands =>
      obtain ⟨K, hK⟩ := hexpands
      have hk : e.unresolved [] < max K (e.unresolved [] + 1) := by omega
      exact (open_resolverAt h hk hk ht).2.2 u (hK _ (le_max_left _ _))
  | bound hb => exact h.bounds _ _ hb

/-- **Without utility types references stand for no references**, and resolution ends. -/
theorem progresses_of_utilityFree (h : e.UtilityFree) (ht : t.UtilityFree) : e.Progresses t := by
  have hmeets : ∀ u, e.Meets t u → u.UtilityFree := by
    intro u hu
    induction hu with
    | refl => exact ht
    | tail _ hgoes ih => exact hgoes.utilityFree h ih
  refine ⟨fun x args hx => expands_of_utilityFree h (hmeets _ hx), fun x args u hx hgoes => ?_⟩
  cases hgoes with
  | name hexpands =>
      obtain ⟨K, hK⟩ := hexpands
      exact not_ref_of_resolveUpTo h (hmeets _ hx) (open_ref_eq_some_iff.1 (hK K le_rfl))

end Env

/-! ### An argument and a bound -/

/-- Two type parameters, the first bounded by a utility type over a record and the second by the first. -/
def partialEnv : Env :=
  ({} : Env).pushParams
    [{ name := "T", constraint := some (.ref "Partial" [.object {}]) },
      { name := "U", constraint := some (.tvar "T") }]

theorem expand_partial (k : ℕ) :
    (partialEnv.resolverAt (k + 2)).expand (.ref "Partial" [.object {}]) = .ok (some (.object {})) := rfl

/-- The types that are met from the second parameter. -/
def partialTypes : List Ty := [.tvar "U", .tvar "T", .ref "Partial" [.object {}], .object {}]

/-- The steps of the walk in the example. -/
theorem goes_partial {t u : Ty} (ht : t ∈ partialTypes) (h : partialEnv.Goes t u) :
    t = .tvar "U" ∧ u = .tvar "T" ∨ t = .tvar "T" ∧ u = .ref "Partial" [.object {}] ∨
      t = .ref "Partial" [.object {}] ∧ u = .object {} := by
  simp only [partialTypes, List.mem_cons, List.not_mem_nil, or_false] at ht
  obtain rfl | rfl | rfl | rfl := ht
  · cases h with
    | bound hb =>
        cases hb
        exact Or.inl ⟨rfl, rfl⟩
  · cases h with
    | bound hb =>
        cases hb
        exact Or.inr (Or.inl ⟨rfl, rfl⟩)
  · cases h with
    | name hexpands =>
        obtain ⟨K, hK⟩ := hexpands
        cases (expand_partial K).symm.trans (hK (K + 2) (by omega))
        exact Or.inr (Or.inr ⟨rfl, rfl⟩)
  · cases h

theorem mem_of_meets_partial {u : Ty} (h : partialEnv.Meets (.tvar "U") u) : u ∈ partialTypes := by
  induction h with
  | refl => simp [partialTypes]
  | tail _ hgoes ih =>
      obtain ⟨-, rfl⟩ | ⟨-, rfl⟩ | ⟨-, rfl⟩ := goes_partial ih hgoes
      · simp [partialTypes]
      · simp [partialTypes]
      · simp [partialTypes]

theorem progresses_partial : partialEnv.Progresses (.tvar "U") where
  resolves x args hx := by
    have hmem := mem_of_meets_partial hx
    simp only [partialTypes, List.mem_cons, reduceCtorEq, List.not_mem_nil, or_false, false_or] at hmem
    rw [hmem]
    refine ⟨.ok (some (.object {})), nofun, 2, fun k hk => ?_⟩
    obtain ⟨k, rfl⟩ : ∃ m, k = m + 2 := ⟨k - 2, by omega⟩
    exact expand_partial k
  unwraps x args u hx hgoes := by
    obtain ⟨h, -⟩ | ⟨h, -⟩ | ⟨-, rfl⟩ := goes_partial (mem_of_meets_partial hx) hgoes
    · cases h
    · cases h
    · exact nofun

/-- The second parameter is classified by way of the first one and of the utility type. -/
theorem classifies_iff_partial : partialEnv.Progresses (.tvar "U") ∧ partialEnv.Classifies (.tvar "U") := by
  refine ⟨progresses_partial, (Env.classifies_iff progresses_partial).2 fun v hv hcircle => ?_⟩
  obtain ⟨w, hw, hgoes⟩ := Relation.TransGen.tail'_iff.1 hcircle
  obtain ⟨rfl, hT⟩ | ⟨-, h⟩ | ⟨-, h⟩ := goes_partial (mem_of_meets_partial (hv.trans hw)) hgoes
  · cases hT
    -- nothing leads back to the second parameter
    obtain h | ⟨u, hu, hgoes⟩ := Relation.ReflTransGen.cases_tail hw
    · simp at h
    · obtain ⟨-, h⟩ | ⟨-, h⟩ | ⟨-, h⟩ := goes_partial (mem_of_meets_partial (hv.trans hu)) hgoes
      · simp at h
      · cases h
      · cases h
  · cases h
  · cases h

/-! ### A utility type that waits -/

/-- A type parameter without a bound. -/
def waitingEnv : Env := ({} : Env).pushParams [{ name := "T" }]

/-- A utility type over the parameter stands for itself until the parameter is known, and is expanded again
and again. -/
theorem not_classifies_waiting : ¬ waitingEnv.Classifies (.ref "Partial" [.tvar "T"]) := by
  have hself : waitingEnv.Goes (.ref "Partial" [.tvar "T"]) (.ref "Partial" [.tvar "T"]) := by
    refine .name ⟨1, fun k hk => ?_⟩
    obtain ⟨k, rfl⟩ : ∃ m, k = m + 1 := ⟨k - 1, by omega⟩
    rfl
  exact Env.not_classifies_of_endless (S := {.ref "Partial" [.tvar "T"]})
    (fun u hu => ⟨_, rfl, Set.mem_singleton_iff.1 hu ▸ hself⟩) rfl

end TreeCheck
