import TreeCheck.Proofs.Ty.Permute
import TreeCheck.Ty.Print

/-!
# What the search for free variables leaves out

Substitution goes everywhere in a type.  The search for free variables does not: it passes by the keys of
index signatures and the constraints and defaults of type parameters.  The variables that stand in a type
are therefore those that the search finds and those that stand in one of these places.  A substitution
that binds neither leaves the type as it is.

* `Ty.Skipped`, `Ty.Veiled` — where the search does not go, and the variables that stand there;
* `Ty.stands_iff` — what stands in a type is free or veiled;
* `Ty.Canonical.equal_self` — types in normal form are equal to themselves, generic signatures included;
* `Ty.Canonical.apply_of_disjoint` — substitutions that bind no variable of a type; for a veiled one,
  `Ty.apply_key_of_not_free` is the exception.
-/

namespace TreeCheck

namespace Ty

/-! ### Places that are not searched -/

/-- `u` stands directly below a type where free variables are not searched for. -/
inductive Skipped (u : Ty) : Ty → Prop
  | key {o : Object} {i : Index} : o.index = some i → i.key = u → Skipped u (.object o)
  | constraint {f : Func} {p : TypeParam} : p ∈ f.tparams → p.constraint = some u → Skipped u (.func f)
  | default {f : Func} {p : TypeParam} : p ∈ f.tparams → p.default = some u → Skipped u (.func f)

theorem Skipped.child {u t : Ty} (h : Skipped u t) : Child u t := by
  cases h with
  | key hi hu => exact .part (.key hi hu)
  | constraint hp hu => exact .constraint hp hu
  | default hp hu => exact .default hp hu

/-- The variable stands in a place of the type that is not searched, out of reach of the signatures that
declare its name. -/
inductive Veiled (v : String) : Ty → Prop
  | skipped {t u : Ty} : Skipped u t → v ∉ t.declared → Stands v u → Veiled v t
  | child {t u : Ty} : Child u t → v ∉ t.declared → Veiled v u → Veiled v t

section Variables

variable {v : String} {t u : Ty}

theorem Veiled.stands (h : Veiled v t) : Stands v t := by
  induction h with
  | skipped hu hown hv => exact .child hu.child hown hv
  | child hu hown _ ih => exact .child hu hown ih

/-- The variables of a child are variables of the type, where they are searched for. -/
theorem mem_vars_of_child (hu : Child u t) (hown : v ∉ t.declared) (hv : v ∈ u.vars) :
    v ∈ t.vars ∨ Skipped u t := by
  cases hu with
  | constraint hp hu => exact Or.inr (.constraint hp hu)
  | default hp hu => exact Or.inr (.default hp hu)
  | part hu =>
      cases hu with
      | array | pred => exact Or.inl hv
      | tuple hu | union hu | inter hu | arg hu => exact Or.inl ((mem_varsList _ v).2 ⟨u, hu, hv⟩)
      | key hi hu => exact Or.inr (.key hi hu)
      | member hm hu =>
          exact Or.inl (List.mem_append_left _ ((mem_varsMembers _ v).2 ⟨_, hm, hu ▸ hv⟩))
      | value hi hu =>
          exact Or.inl (List.mem_append_right _ ((mem_varsIndex _ v).2 ⟨_, hi, hu ▸ hv⟩))
      | param hp hu =>
          exact Or.inl ((mem_varsFunc _ v).2 ⟨Or.inl ⟨_, hp, hu ▸ hv⟩, hown⟩)
      | ret hr => exact Or.inl ((mem_varsFunc _ v).2 ⟨Or.inr ⟨u, hr, hv⟩, hown⟩)

theorem stands_of_mem_vars (hv : v ∈ t.vars) : Stands v t := by
  induction t using child_induction with
  | _ t ih =>
      have hbelow : (∀ f, t ≠ .func f) → ∀ u, Part u t → v ∈ u.vars → Stands v t := fun hfunc u hu hv =>
        (ih u (.part hu) hv).of_child (.part hu) hfunc
      cases t with
      | prim p | lit l | classRef x => cases hv
      | tvar w => exact stands_tvar_iff.2 (List.mem_singleton.1 hv)
      | array e => exact hbelow (by simp) e .array hv
      | pred x e => exact hbelow (by simp) e .pred hv
      | tuple es =>
          obtain ⟨e, he, hv⟩ := (mem_varsList es v).1 hv
          exact hbelow (by simp) e (.tuple he) hv
      | union ts =>
          obtain ⟨t, ht, hv⟩ := (mem_varsList ts v).1 hv
          exact hbelow (by simp) t (.union ht) hv
      | inter ts =>
          obtain ⟨t, ht, hv⟩ := (mem_varsList ts v).1 hv
          exact hbelow (by simp) t (.inter ht) hv
      | ref x args =>
          obtain ⟨a, ha, hv⟩ := (mem_varsList args v).1 hv
          exact hbelow (by simp) a (.arg ha) hv
      | object o =>
          rcases List.mem_append.1 hv with hv | hv
          · obtain ⟨m, hm, hv⟩ := (mem_varsMembers _ v).1 hv
            exact hbelow (by simp) m.type (.member hm rfl) hv
          · obtain ⟨i, hi, hv⟩ := (mem_varsIndex _ v).1 hv
            exact hbelow (by simp) i.value (.value hi rfl) hv
      | func f =>
          obtain ⟨hv, hown⟩ := (mem_varsFunc f v).1 hv
          rcases hv with ⟨p, hp, hv⟩ | ⟨r, hr, hv⟩
          · exact .child (.part (.param hp rfl)) hown (ih _ (.part (.param hp rfl)) hv)
          · exact .child (.part (.ret hr)) hown (ih _ (.part (.ret hr)) hv)

/-- **What stands in a type** is found by the search for free variables, or stands where it does not
go. -/
theorem stands_iff : Stands v t ↔ v ∈ t.free ∨ Veiled v t := by
  rw [mem_free]
  constructor
  · intro h
    induction h with
    | tvar => exact Or.inl (List.mem_singleton_self v)
    | child hu hown hv ih =>
        rcases ih with hfree | hveiled
        · exact (mem_vars_of_child hu hown hfree).imp_right fun hskip => .skipped hskip hown hv
        · exact Or.inr (.child hu hown hveiled)
  · rintro (h | h)
    · exact stands_of_mem_vars h
    · exact h.stands

end Variables

/-! ### Reflexivity -/

/-- **Equality is reflexive** on types in normal form, those with generic signatures included. -/
theorem Canonical.equal_self {t : Ty} (ht : t.Canonical) : t.equal t = true := by
  induction ht with
  | @intro t hhead hchildren ih =>
      have ht : t.Canonical := .intro hhead hchildren
      rw [equal_eq_sameNode_of_canonical ht ht]
      by_cases hfunc : ∃ f, t = .func f
      · obtain ⟨f, rfl⟩ := hfunc
        have hsame : renamedFor equal f f = f.bare := by
          have hmap : f.bare.mapTypes (applyWith equal (renameParams f f)) = f.bare.mapTypes id :=
            FuncOf.mapTypes_congr fun u hu => (ht.part (part_of_bare hu)).apply_eq_self fun v _ => by
              simpa using image_renameParams (π := 1) (f := f) (g := f) (by simp) v
          unfold renamedFor
          rw [hmap, FuncOf.mapTypes_id]
          exact ite_self _
        have hresult : equal f.bare.result f.bare.result = true := by
          rcases result_mem f.bare with hr | hr
          · exact ih _ (.part (part_of_bare (.ret hr)))
          · rw [hr]
            exact equal_prim_iff.2 rfl
        refine sameNode_func_iff.2 ⟨f, rfl, ?_⟩
        rw [sameFunc_eq_bare, hsame, beq_self_eq_true, Bool.true_and]
        exact (sameFunc_iff rfl rfl).2
          ⟨sameParams_refl fun p hp => ih _ (.part (.param hp rfl)), hresult⟩
      · exact sameNode_refl_of_not_func ht.tidy (fun f hf => hfunc ⟨f, hf⟩) fun u hu => ih u (.part hu)

/-! ### Substitutions that bind no variable of the type -/

/-- Names that are not bound stand for themselves. -/
theorem image_of_not_mem_names {s : Subst} {v : String} (h : v ∉ s.names) : s.image v = .tvar v := by
  have hnone : s.get? v = none := (Assoc.get?_eq_none_iff s v).2 h
  rw [Subst.image, hnone, Option.getD_none]

/-- **A substitution that binds no variable of a type** leaves it as it is, and it prints the same: none
that the search for free variables finds, and none in a place that the search passes by. -/
theorem Canonical.apply_of_disjoint {s : Subst} {t : Ty} (ht : t.Canonical)
    (hfree : ∀ v ∈ s.names, v ∉ t.free) (hveiled : ∀ v ∈ s.names, ¬ Veiled v t) :
    t.apply s = t ∧ (t.apply s).equal t = true ∧ (t.apply s).text = t.text := by
  have hself : t.apply s = t := ht.apply_eq_self fun v hv =>
    image_of_not_mem_names fun hmem => (stands_iff.1 hv).elim (hfree v hmem) (hveiled v hmem)
  rw [hself]
  exact ⟨rfl, ht.equal_self, rfl⟩

/-- The signature of the identity, `<T>(x: T) -> T`. -/
def identity : Func where
  tparams := [{ name := "T" }]
  params := [{ name := "x", type := .tvar "T" }]
  ret := some (.tvar "T")

theorem canonical_identity : Canonical (.func identity) :=
  canonical_func (by simp [identity, canonical_tvar]) (by simp [identity, canonical_tvar])
    (by simp [identity])

/-- The names that a signature declares are none of its variables. -/
theorem apply_identity :
    ("T" ∉ (func identity).free ∧ ¬ Veiled "T" (.func identity)) ∧
      (func identity).apply [("T", .prim .string)] = .func identity := by
  have hfree : "T" ∉ (func identity).free := by decide
  have hveiled : ¬ Veiled "T" (.func identity) := by
    intro h
    cases h with
    | skipped _ hown _ | child _ hown _ => exact hown (List.mem_singleton_self "T")
  refine ⟨⟨hfree, hveiled⟩, (canonical_identity.apply_of_disjoint (s := [("T", .prim .string)]) ?_ ?_).1⟩
  · simpa [Subst.names] using hfree
  · simpa [Subst.names] using hveiled

/-- Records whose keys are a variable, `{ [K]: number }`. -/
def keyed : Object where
  members := []
  index := some { key := .tvar "K", value := .prim .number }

/-- **A variable in the key of an index signature** is not found, and yet it is substituted. -/
theorem apply_key_of_not_free :
    Canonical (.object keyed) ∧ (object keyed).free = [] ∧
      ((object keyed).apply [("K", .prim .string)]).equal (.object keyed) = false ∧
      (object keyed).text = "{ [K]: number }" ∧
      ((object keyed).apply [("K", .prim .string)]).text = "{ [string]: number }" := by
  have hentries : Entries Canonical keyed :=
    ⟨by simp [keyed], by simp [keyed, canonical_tvar], by simp [keyed, (normal_prim .number).canonical]⟩
  exact ⟨canonical_object List.nodup_nil hentries, rfl, rfl, rfl, rfl⟩

end Ty

end TreeCheck
