import Mathlib
import TreeCheck.Env.Flatten
import TreeCheck.Proofs.Ty.Names

/-!
# What a flattened type names

Flattening replaces each reference by what it stands for, except those to classes and those to a name
that is being replaced already.

* `Env.Settles` — resolving a name gives a type that names classes and lower names;
* `Env.Recurs` — definitions that also name themselves;
* `Env.flatten_settled` — where both hold, a flattened type refers to classes and to own names only.
-/

namespace TreeCheck

open Ty Std.Do

set_option mvcgen.warning false

namespace Env

def classSet (e : Env) : Set String := {x | e.isClass x = true}

/-- The waiting names below a rank. -/
def Lower (Q : String → ℕ → Prop) (rank : String → ℕ) (k : ℕ) (x : String) (n : ℕ) : Prop :=
  Q x n ∧ rank x < k

/-- **Resolving goes down.**  A name with arguments that refer to classes only stands for a type that
names classes and lower names. -/
def Settles (e : Env) (Q : String → ℕ → Prop) (rank : String → ℕ) : Prop :=
  ∀ x args r, Q x args.length → (∀ a ∈ args, Refers e.classSet a) → (e.resolve x args).run = .ok r →
    ∃ t, r = .ok t ∧ Names e.classSet (Lower Q rank (rank x)) ∅ t

/-- Definitions that name themselves, classes, and lower names. -/
def Recurs (e : Env) (Q : String → ℕ → Prop) (rank : String → ℕ) (k : ℕ) (own : Set String) : Prop :=
  ∀ x ∈ own, k ≤ rank x ∧ ∀ args t, (∀ a ∈ args, Refers e.classSet a) →
    (e.resolve x args).run = .ok (.ok t) → Names e.classSet (Lower Q rank k) own t

variable {e : Env} {Q : String → ℕ → Prop} {rank : String → ℕ}

/-- A triple about a query speaks of its answer. -/
theorem query_spec_iff {α : Type} {q : Query α} {P : α → Prop} :
    ⦃⌜True⌝⦄ q ⦃⇓? a => ⌜P a⌝⦄ ↔ ∀ a, q = .ok a → P a := by
  cases q with
  | ok a =>
      refine ⟨fun h b hb => ?_, fun h _ => h a rfl⟩
      cases hb
      exact h trivial
  | error f => exact ⟨nofun, fun _ _ => trivial⟩

theorem settled_empty_iff {C : Set String} {t : Ty} : Settled C ∅ t ↔ Refers C t := by
  refine ⟨fun h => ?_, Refers.names⟩
  simpa using h.refers

theorem recurs_empty {k : ℕ} : e.Recurs Q rank k ∅ := fun _ hx => hx.elim

/-- What flattening does at a reference, given how it goes on. -/
def flattenName (e : Env) (flatten : List String → Ty → Query Ty) (active : List String) (name : String)
    (args : List Ty) : Query Ty :=
  match builtin? name, args with
  | some b, [] => pure b
  | _, _ =>
    if active.contains name || e.isClass name then pure (.ref name args)
    else do
      match ← (e.resolve name args).run with
      | .error _ => return .ref name args
      | .ok body => flatten (name :: active) body

/-- What flattening does at a node. -/
def flattenNode (e : Env) (flatten : List String → Ty → Query Ty) (active : List String) :
    Ty → Query Ty
  | .ref name args => e.flattenName flatten active name args
  | u => pure u

theorem flattenUpTo_succ (n : ℕ) (active : List String) (t : Ty) :
    e.flattenUpTo (n + 1) active t = t.rebuildM (e.flattenNode (e.flattenUpTo n) active) := rfl

theorem exists_prim_of_builtin? {x : String} {b : Ty} (h : builtin? x = some b) : ∃ p, b = .prim p := by
  unfold builtin? at h
  split at h
  · cases h
    exact ⟨_, rfl⟩
  · obtain ⟨p, -, rfl⟩ := Option.map_eq_some_iff.1 h
    exact ⟨p, rfl⟩

/-- What becomes of a reference: it is a built-in type, it stays, or it is replaced. -/
theorem flattenName_cases {flatten : List String → Ty → Query Ty} {active : List String} {x : String}
    {args : List Ty} {v : Ty} (h : e.flattenName flatten active x args = .ok v) :
    (∃ p, v = .prim p) ∨
    (v = .ref x args ∧
      (x ∈ active ∨ e.isClass x = true ∨ ∃ err, (e.resolve x args).run = .ok (.error err))) ∨
    (e.isClass x = false ∧
      ∃ body, (e.resolve x args).run = .ok (.ok body) ∧ flatten (x :: active) body = .ok v) := by
  unfold flattenName at h
  split at h
  · next b hb =>
      cases h
      exact Or.inl (exists_prim_of_builtin? hb)
  · rename_i args _ _ _
    split at h
    · next hkept =>
        cases h
        simp only [Bool.or_eq_true, List.contains_iff_mem] at hkept
        exact Or.inr (Or.inl ⟨rfl, hkept.imp_right Or.inl⟩)
    · next hkept =>
        cases hr : (e.resolve x args).run with
        | error f =>
            rw [hr] at h
            cases h
        | ok r =>
            rw [hr] at h
            cases r with
            | error err =>
                cases h
                exact Or.inr (Or.inl ⟨rfl, Or.inr (Or.inr ⟨err, rfl⟩)⟩)
            | ok body =>
                have hclass : e.isClass x = false := by
                  simp only [Bool.or_eq_true, not_or, Bool.not_eq_true] at hkept
                  exact hkept.2
                exact Or.inr (Or.inr ⟨hclass, body, rfl, h⟩)

/-- **Flattening settles a type.**  The names being replaced are not below those that the type may
name, so none of the latter is met again before it is replaced. -/
theorem flattenUpTo_spec (h : e.Settles Q rank) {n k : ℕ} {active : List String} {own : Set String}
    {t : Ty} (hown : e.Recurs Q rank k own) (ht : Names e.classSet (Lower Q rank k) own t)
    (hactive : ∀ y ∈ active, k ≤ rank y) :
    ⦃⌜True⌝⦄ e.flattenUpTo n active t ⦃⇓? u => ⌜Settled e.classSet own u⌝⦄ := by
  induction n generalizing k active own t with
  | zero => exact query_spec_iff.2 nofun
  | succ n ih =>
      have hkeep : ∀ {own : Set String}, e.Recurs Q rank k own → ∀ u, Settled e.classSet own u →
          ⦃⌜True⌝⦄ e.flattenNode (e.flattenUpTo n) active u ⦃⇓? v => ⌜Settled e.classSet own v⌝⦄ := by
        intro own hown u hu
        rw [query_spec_iff]
        intro v hv
        cases u with
        | ref x args =>
            obtain ⟨hx, hargs⟩ := hu.of_ref
            rcases flattenName_cases hv with ⟨p, rfl⟩ | ⟨rfl, -⟩ | ⟨hclass, body, hbody, hv⟩
            · exact names_prim p
            · exact hu
            · have hx : x ∈ own := by
                rcases hx with hx | hx | hx
                · rw [show e.isClass x = true from hx] at hclass
                  cases hclass
                · exact hx.elim
                · exact hx
              have hnames := (hown x hx).2 args body (fun a ha => settled_empty_iff.1 (hargs a ha)) hbody
              refine query_spec_iff.1 (ih hown hnames fun y hy => ?_) v hv
              rcases List.mem_cons.1 hy with rfl | hy
              · exact (hown y hx).1
              · exact hactive y hy
        | _ =>
            cases hv
            exact hu
      rw [flattenUpTo_succ]
      refine rebuildM_names own ht (hkeep recurs_empty) (hkeep hown) (fun x args hx hargs => ?_)
        fun x args hx hargs => hkeep hown _ (names_ref (Or.inr (Or.inr hx)) hargs)
      rw [query_spec_iff]
      intro v hv
      have hargs' : ∀ a ∈ args, Refers e.classSet a := fun a ha => settled_empty_iff.1 (hargs a ha)
      rcases flattenName_cases hv with ⟨p, rfl⟩ | ⟨rfl, hkept⟩ | ⟨-, body, hbody, hv⟩
      · exact names_prim p
      · rcases hkept with hmem | hclass | ⟨err, herr⟩
        · exact absurd (hactive x hmem) (by have := hx.2; omega)
        · exact names_ref (Or.inl hclass) hargs
        · obtain ⟨t, ht, -⟩ := h x args _ hx.1 hargs' herr
          cases ht
      · obtain ⟨t, ht, hnames⟩ := h x args _ hx.1 hargs' hbody
        cases ht
        refine query_spec_iff.1 (ih recurs_empty hnames fun y hy => ?_) v hv
        rcases List.mem_cons.1 hy with rfl | hy
        · exact le_refl _
        · exact hx.2.le.trans (hactive y hy)

/-- A flattened type refers to classes, and to own names. -/
theorem flatten_settled (h : e.Settles Q rank) {k : ℕ} {own : Set String} {t u : Ty}
    (hown : e.Recurs Q rank k own) (ht : Names e.classSet (Lower Q rank k) own t)
    (hu : e.flatten t = .ok u) : Settled e.classSet own u :=
  query_spec_iff.1 (flattenUpTo_spec h hown ht (by simp)) u hu

end Env

end TreeCheck
