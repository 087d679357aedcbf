import TreeCheck.Proofs.Ty.Capture
import TreeCheck.Proofs.Ty.Rebuild

/-!
# Substitution in types in normal form

Without type parameters of signatures nothing is shadowed, and substitution goes to the variables through
the nodes; unions are built anew.

* `Ty.apply_union`, `Ty.apply_object` and the like — substitution, node by node;
* `Ty.Normal.apply_eq` — a type without the variables that are replaced stays as it is;
* `Ty.regular_apply` — regular types stay regular.
-/

namespace TreeCheck.Ty

variable {s : Subst} {t : Ty}

/-! ### Node by node -/

theorem applyList_eq_map (s : Subst) (ts : List Ty) : applyList s ts = ts.map (apply s) :=
  applyListWith_eq_map equal s ts

@[simp] theorem apply_array (s : Subst) (e : Ty) : (array e).apply s = .array (e.apply s) := rfl

@[simp] theorem apply_pred (s : Subst) (x : String) (t : Ty) : (pred x t).apply s = .pred x (t.apply s) := rfl

@[simp] theorem apply_tvar (s : Subst) (v : String) : (tvar v).apply s = (s.get? v).getD (.tvar v) := rfl

@[simp] theorem apply_tuple (s : Subst) (es : List Ty) : (tuple es).apply s = .tuple (es.map (apply s)) := by
  rw [← applyList_eq_map]
  rfl

@[simp] theorem apply_ref (s : Subst) (x : String) (args : List Ty) :
    (ref x args).apply s = .ref x (args.map (apply s)) := by
  rw [← applyList_eq_map]
  rfl

@[simp] theorem apply_union (s : Subst) (ts : List Ty) : (union ts).apply s = unionOf (ts.map (apply s)) := by
  rw [← applyList_eq_map]
  rfl

theorem apply_inter (s : Subst) (ts : List Ty) : (inter ts).apply s = interOf (ts.map (apply s)) := by
  rw [← applyList_eq_map]
  rfl

@[simp] theorem apply_object (s : Subst) (o : Object) : (object o).apply s = .object (o.mapTypes (apply s)) := by
  rw [apply, applyWith, applyMembersWith_eq_map, ObjectOf.mapTypes]
  cases o.index <;> rfl

/-- Where a signature has no type parameters, nothing is shadowed. -/
theorem apply_func {f : Func} (h : f.tparams = []) (s : Subst) :
    (func f).apply s = .func (f.mapTypes (apply s)) := by
  obtain ⟨tparams, params, ret⟩ := f
  obtain rfl : tparams = [] := h
  have hs : Subst.without s (([] : List TypeParam).map (·.name)) = s :=
    List.filter_eq_self.2 fun _ _ => rfl
  rw [apply, applyWith]
  simp only [hs, applyParamsWith_eq_map]
  cases ret <;> rfl

/-! ### Types without the variables -/

/-- None of the variables stands anywhere in the type. -/
inductive Lacks (vs : List String) : Ty → Prop
  | intro {t : Ty} : (∀ v, t = .tvar v → v ∉ vs) → (∀ u, Part u t → Lacks vs u) → Lacks vs t

theorem Lacks.part {vs : List String} (h : Lacks vs t) {u : Ty} (hu : Part u t) : Lacks vs u := by
  cases h with
  | intro _ hparts => exact hparts u hu

theorem lacks_nil (t : Ty) : Lacks [] t := by
  induction h : t.size using Nat.strong_induction_on generalizing t with
  | _ n ih =>
      subst h
      exact .intro (fun v _ => List.not_mem_nil) fun u hu => ih _ hu.size_lt u rfl

/-- **Nothing is replaced where no variable is bound.** -/
theorem Normal.apply_eq (ht : t.Normal) (hs : Lacks s.names t) : t.apply s = t := by
  induction ht with
  | @intro t hnormal _ ih =>
      have hpart : ∀ u, Part u t → u.apply s = u := fun u hu => ih u hu (hs.part hu)
      have hlist : ∀ {ts : List Ty}, (∀ u ∈ ts, Part u t) → ts.map (apply s) = ts := fun hts =>
        (List.map_congr_left fun u hu => hpart u (hts u hu)).trans (List.map_id' _)
      cases t with
      | prim p | lit l | classRef x => rfl
      | tvar v =>
          cases hs with
          | intro hv _ =>
              rw [apply_tvar, Subst.get?, (Assoc.get?_eq_none_iff s v).2 (hv v rfl)]
              rfl
      | array e => rw [apply_array, hpart e .array]
      | pred x u => rw [apply_pred, hpart u .pred]
      | tuple es => rw [apply_tuple, hlist fun e he => .tuple he]
      | union ts =>
          rw [apply_union, hlist fun t h => .union h]
          exact hnormal
      | inter ts =>
          rw [apply_inter, hlist fun t h => .inter h]
          exact hnormal
      | ref x args => rw [apply_ref, hlist fun a ha => .arg ha]
      | object o => rw [apply_object, ObjectOf.mapTypes_congr (g := id) hpart, ObjectOf.mapTypes_id]
      | func f => rw [apply_func hnormal, FuncOf.mapTypes_congr (g := id) hpart, FuncOf.mapTypes_id]

/-- Replacing no variables changes nothing. -/
theorem Normal.apply_nil (ht : t.Normal) : t.apply [] = t := ht.apply_eq (lacks_nil t)

/-- A free variable is the type or is free in a part of it. -/
theorem eq_or_exists_part_of_mem_vars {v : String} (h : v ∈ t.vars) : t = .tvar v ∨ ∃ u, Part u t ∧ v ∈ u.vars := by
  cases t with
  | prim p | lit l | classRef x => cases h
  | tvar w => exact Or.inl (by rw [List.mem_singleton.1 h])
  | array e => exact Or.inr ⟨e, .array, h⟩
  | pred x u => exact Or.inr ⟨u, .pred, h⟩
  | tuple es =>
      obtain ⟨e, he, hv⟩ := (mem_varsList es v).1 h
      exact Or.inr ⟨e, .tuple he, hv⟩
  | union ts =>
      obtain ⟨t, ht, hv⟩ := (mem_varsList ts v).1 h
      exact Or.inr ⟨t, .union ht, hv⟩
  | inter ts =>
      obtain ⟨t, ht, hv⟩ := (mem_varsList ts v).1 h
      exact Or.inr ⟨t, .inter ht, hv⟩
  | ref x args =>
      obtain ⟨a, ha, hv⟩ := (mem_varsList args v).1 h
      exact Or.inr ⟨a, .arg ha, hv⟩
  | object o =>
      rw [vars, List.mem_append, mem_varsMembers, mem_varsIndex] at h
      rcases h with ⟨m, hm, hv⟩ | ⟨i, hi, hv⟩
      · exact Or.inr ⟨m.type, .member hm rfl, hv⟩
      · exact Or.inr ⟨i.value, .value hi rfl, hv⟩
  | func f =>
      rcases ((mem_varsFunc f v).1 h).1 with ⟨p, hp, hv⟩ | ⟨r, hr, hv⟩
      · exact Or.inr ⟨p.type, .param hp rfl, hv⟩
      · exact Or.inr ⟨r, .ret hr, hv⟩

theorem mentionsVar_iff {vs : List String} : t.mentionsVar vs = true ↔ ∃ v ∈ t.vars, v ∈ vs := by
  simp [mentionsVar]

/-- Variables that stand nowhere are not free. -/
theorem Lacks.mentionsVar {vs : List String} (h : Lacks vs t) : t.mentionsVar vs = false := by
  induction h with
  | @intro t hvar _ ih =>
      rw [← Bool.not_eq_true, mentionsVar_iff]
      rintro ⟨v, hv, hvs⟩
      rcases eq_or_exists_part_of_mem_vars hv with rfl | ⟨u, hu, hv⟩
      · exact hvar v rfl hvs
      · have hmentions := ih u hu
        rw [← Bool.not_eq_true, mentionsVar_iff] at hmentions
        exact hmentions ⟨v, hv, hvs⟩

/-! ### Regular types -/

/-- **Regular types stay regular** when regular types are put in. -/
theorem regular_apply {Q : String → Prop} (ht : Regular Q t) (hs : ∀ b ∈ s, Regular Q b.2) :
    Regular Q (t.apply s) := by
  induction ht with
  | @intro t hnormal hhead hparts ih =>
      cases t with
      | prim p => exact regular_prim p
      | lit l => exact regular_lit hnormal
      | classRef x | inter ts => exact hhead.elim
      | tvar v =>
          rw [apply_tvar]
          cases hv : s.get? v with
          | none => exact regular_tvar v
          | some u => exact hs (v, u) (Assoc.mem_of_get? hv)
      | ref x args =>
          obtain ⟨hx, rfl⟩ := hhead
          rw [apply_ref]
          exact .intro trivial ⟨hx, rfl⟩ fun _ hu => by cases hu; contradiction
      | array e => exact regular_array (ih e .array)
      | pred x u => exact regular_pred x (ih u .pred)
      | tuple es =>
          rw [apply_tuple]
          exact regular_tuple (List.forall_mem_map.2 fun e he => ih e (.tuple he))
      | union ts =>
          rw [apply_union]
          exact regular_unionOf (List.forall_mem_map.2 fun t h => ih t (.union h))
      | object o =>
          rw [apply_object]
          exact regular_object_mapTypes hnormal ih
      | func f =>
          rw [apply_func hnormal]
          exact regular_func_mapTypes hnormal ih

end TreeCheck.Ty
