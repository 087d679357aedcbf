import Mathlib.Tactic
import TreeCheck.Ty.Equal

/-!
# Substitution and capture

The type parameters of a signature hide bindings of the same name, but they keep their names when a
type is put below them.  So a variable of that type may end up bound by a signature that it does not
belong to.  This file says exactly when.

* `Ty.Occurs` — a variable stands somewhere in a type, below signatures that declare certain names;
* `Ty.Plain` — types without unions and intersections, whose normal forms may drop members;
* `Ty.mem_free_apply` — the variables that are free after a substitution: those of the types that are put
  in for free variables, less the names declared above each;
* `Ty.KeepsFree`, `Ty.keepsFree_iff` — a substitution keeps the variables of the types that it puts in
  exactly when each of them is put in somewhere out of reach of the signatures that declare its name.
  `Ty.not_keepsFree_captured` is a type where none is.
-/

namespace TreeCheck

/-- The type that is put in for a variable. -/
def Subst.image (s : Subst) (n : String) : Ty := (s.get? n).getD (.tvar n)

/-- Names that are dropped stand for themselves. -/
theorem Subst.image_without (s : Subst) (ns : List String) (n : String) :
    (s.without ns).image n = if n ∈ ns then .tvar n else s.image n := by
  rw [image, get?_without, image]
  split
  · rfl
  · rfl

namespace Ty

/-! ### Places of variables -/

/-- The variable `n` stands in a type below signatures that declare the names `C`. -/
inductive Occurs (n : String) : List String → Ty → Prop
  | tvar : Occurs n [] (.tvar n)
  | array {C : List String} {e : Ty} : Occurs n C e → Occurs n C (.array e)
  | tuple {C : List String} {e : Ty} {es : List Ty} :
      e ∈ es → Occurs n C e → Occurs n C (.tuple es)
  | member {C : List String} {o : Object} {m : Member} :
      m ∈ o.members → Occurs n C m.type → Occurs n C (.object o)
  | index {C : List String} {o : Object} {i : Index} :
      o.index = some i → Occurs n C i.value → Occurs n C (.object o)
  | param {C : List String} {f : Func} {p : Param} :
      p ∈ f.params → Occurs n C p.type → Occurs n (C ++ typeParamNames f.tparams) (.func f)
  | ret {C : List String} {f : Func} {r : Ty} :
      f.ret = some r → Occurs n C r → Occurs n (C ++ typeParamNames f.tparams) (.func f)
  | pred {C : List String} {x : String} {t : Ty} : Occurs n C t → Occurs n C (.pred x t)
  | ref {C : List String} {x : String} {a : Ty} {args : List Ty} :
      a ∈ args → Occurs n C a → Occurs n C (.ref x args)

/-- Types without unions and intersections. -/
inductive Plain : Ty → Prop
  | prim (p : Prim) : Plain (.prim p)
  | lit (l : Lit) : Plain (.lit l)
  | tvar (n : String) : Plain (.tvar n)
  | classRef (n : String) : Plain (.classRef n)
  | array {e : Ty} : Plain e → Plain (.array e)
  | tuple {es : List Ty} : (∀ e ∈ es, Plain e) → Plain (.tuple es)
  | object {o : Object} :
      (∀ m ∈ o.members, Plain m.type) → (∀ i, o.index = some i → Plain i.value) → Plain (.object o)
  | func {f : Func} :
      (∀ p ∈ f.params, Plain p.type) → (∀ r, f.ret = some r → Plain r) → Plain (.func f)
  | pred {x : String} {t : Ty} : Plain t → Plain (.pred x t)
  | ref {x : String} {args : List Ty} : (∀ a ∈ args, Plain a) → Plain (.ref x args)

/-! ### Lists of parts -/

theorem mem_free (t : Ty) (v : String) : v ∈ t.free ↔ v ∈ t.vars := List.mem_eraseDups

theorem mem_varsList (ts : List Ty) (v : String) : v ∈ varsList ts ↔ ∃ t ∈ ts, v ∈ t.vars := by
  induction ts with
  | nil => simp [varsList]
  | cons t ts ih => simp [varsList, ih]

theorem mem_varsMembers (ms : List Member) (v : String) :
    v ∈ varsMembers ms ↔ ∃ m ∈ ms, v ∈ m.type.vars := by
  induction ms with
  | nil => simp [varsMembers]
  | cons m ms ih => simp [varsMembers, ih]

theorem mem_varsParams (ps : List Param) (v : String) :
    v ∈ varsParams ps ↔ ∃ p ∈ ps, v ∈ p.type.vars := by
  induction ps with
  | nil => simp [varsParams]
  | cons p ps ih => simp [varsParams, ih]

theorem mem_varsOption (t : Option Ty) (v : String) : v ∈ varsOption t ↔ ∃ u, t = some u ∧ v ∈ u.vars := by
  cases t with
  | none => simp [varsOption]
  | some u => simp [varsOption]

theorem mem_varsIndex (i : Option Index) (v : String) :
    v ∈ varsIndex i ↔ ∃ j, i = some j ∧ v ∈ j.value.vars := by
  cases i with
  | none => simp [varsIndex]
  | some j => simp [varsIndex]

theorem mem_varsFunc (f : Func) (v : String) :
    v ∈ vars (.func f) ↔
      ((∃ p ∈ f.params, v ∈ p.type.vars) ∨ ∃ r, f.ret = some r ∧ v ∈ r.vars) ∧
        v ∉ typeParamNames f.tparams := by
  rw [vars, List.mem_filter, List.mem_append, mem_varsParams, mem_varsOption]
  simp [typeParamNames]

theorem applyMembersWith_eq_map (eq : Ty → Ty → Bool) (s : Subst) (ms : List Member) :
    applyMembersWith eq s ms = ms.map fun m => { m with type := applyWith eq s m.type } := by
  induction ms with
  | nil => rfl
  | cons m ms ih => rw [applyMembersWith, ih, List.map_cons]

theorem applyParamsWith_eq_map (eq : Ty → Ty → Bool) (s : Subst) (ps : List Param) :
    applyParamsWith eq s ps = ps.map fun p => { p with type := applyWith eq s p.type } := by
  induction ps with
  | nil => rfl
  | cons p ps ih => rw [applyParamsWith, ih, List.map_cons]

/-- The variables of a substituted index are those of its substituted value. -/
theorem mem_varsIndex_applyIndexWith (eq : Ty → Ty → Bool) (s : Subst) (i : Option Index) (v : String) :
    v ∈ varsIndex (applyIndexWith eq s i) ↔ ∃ j, i = some j ∧ v ∈ (applyWith eq s j.value).vars := by
  cases i with
  | none => simp [applyIndexWith, varsIndex]
  | some j => simp [applyIndexWith, varsIndex]

/-- Those of a substituted optional type are those of the type, if there is one. -/
theorem exists_applyOptionWith (eq : Ty → Ty → Bool) (s : Subst) (t : Option Ty) (v : String) :
    (∃ r, applyOptionWith eq s t = some r ∧ v ∈ r.vars) ↔
      ∃ u, t = some u ∧ v ∈ (applyWith eq s u).vars := by
  cases t with
  | none => simp [applyOptionWith]
  | some u => simp [applyOptionWith]

/-- Type parameters keep their names. -/
theorem typeParamNames_applyTypeParamsWith (eq : Ty → Ty → Bool) (s : Subst) (ps : List TypeParam) :
    typeParamNames (applyTypeParamsWith eq s ps) = typeParamNames ps := by
  induction ps with
  | nil => rfl
  | cons p ps ih =>
      simp only [typeParamNames] at ih
      simp [applyTypeParamsWith, typeParamNames, ih]

/-! ### Variables that are put in -/

/-- The variable `v` is put in for a free variable of the type, below no signature that declares `v`. -/
def Exposed (s : Subst) (t : Ty) (v : String) : Prop :=
  ∃ n C, Occurs n C t ∧ n ∉ C ∧ v ∉ C ∧ v ∈ (s.image n).free

variable {s : Subst} {v : String}

theorem exposed_tvar (n : String) : Exposed s (.tvar n) v ↔ v ∈ (s.image n).free := by
  constructor
  · rintro ⟨n, C, hocc, -, -, hv⟩
    cases hocc
    exact hv
  · intro hv
    exact ⟨n, [], .tvar, List.not_mem_nil, List.not_mem_nil, hv⟩

theorem exposed_array (e : Ty) : Exposed s (.array e) v ↔ Exposed s e v := by
  constructor
  · rintro ⟨n, C, hocc, h⟩
    cases hocc with
    | array hocc => exact ⟨n, C, hocc, h⟩
  · rintro ⟨n, C, hocc, h⟩
    exact ⟨n, C, .array hocc, h⟩

theorem exposed_pred (x : String) (t : Ty) : Exposed s (.pred x t) v ↔ Exposed s t v := by
  constructor
  · rintro ⟨n, C, hocc, h⟩
    cases hocc with
    | pred hocc => exact ⟨n, C, hocc, h⟩
  · rintro ⟨n, C, hocc, h⟩
    exact ⟨n, C, .pred hocc, h⟩

theorem exposed_tuple (es : List Ty) : Exposed s (.tuple es) v ↔ ∃ e ∈ es, Exposed s e v := by
  constructor
  · rintro ⟨n, C, hocc, h⟩
    cases hocc with
    | tuple he hocc => exact ⟨_, he, n, C, hocc, h⟩
  · rintro ⟨e, he, n, C, hocc, h⟩
    exact ⟨n, C, .tuple he hocc, h⟩

theorem exposed_ref (x : String) (args : List Ty) :
    Exposed s (.ref x args) v ↔ ∃ a ∈ args, Exposed s a v := by
  constructor
  · rintro ⟨n, C, hocc, h⟩
    cases hocc with
    | ref ha hocc => exact ⟨_, ha, n, C, hocc, h⟩
  · rintro ⟨a, ha, n, C, hocc, h⟩
    exact ⟨n, C, .ref ha hocc, h⟩

/-- A variable is exposed in a record if a member or the value of the index exposes it. -/
theorem exposed_object (o : Object) :
    Exposed s (.object o) v ↔
      (∃ m ∈ o.members, Exposed s m.type v) ∨ ∃ i, o.index = some i ∧ Exposed s i.value v := by
  constructor
  · rintro ⟨n, C, hocc, h⟩
    cases hocc with
    | member hm hocc => exact Or.inl ⟨_, hm, n, C, hocc, h⟩
    | index hi hocc => exact Or.inr ⟨_, hi, n, C, hocc, h⟩
  · rintro (⟨m, hm, n, C, hocc, h⟩ | ⟨i, hi, n, C, hocc, h⟩)
    · exact ⟨n, C, .member hm hocc, h⟩
    · exact ⟨n, C, .index hi hocc, h⟩

/-- Below a signature, its names stand for themselves and are out of sight. -/
theorem exposed_without (t : Ty) (ns : List String) :
    Exposed (s.without ns) t v ∧ v ∉ ns ↔
      ∃ n C, Occurs n C t ∧ n ∉ C ++ ns ∧ v ∉ C ++ ns ∧ v ∈ (s.image n).free := by
  constructor
  · rintro ⟨⟨n, C, hocc, hn, hv, himage⟩, hns⟩
    rw [Subst.image_without] at himage
    have hnns : n ∉ ns := by
      intro hmem
      rw [if_pos hmem, mem_free, vars, List.mem_singleton] at himage
      exact hns (himage ▸ hmem)
    rw [if_neg hnns] at himage
    exact ⟨n, C, hocc, by simp [hn, hnns], by simp [hv, hns], himage⟩
  · rintro ⟨n, C, hocc, hn, hv, himage⟩
    rw [List.mem_append, not_or] at hn hv
    refine ⟨⟨n, C, hocc, hn.1, hv.1, ?_⟩, hv.2⟩
    rw [Subst.image_without, if_neg hn.2]
    exact himage

/-- It is exposed in a function if a parameter or the result does and no binder takes it. -/
theorem exposed_func (f : Func) :
    Exposed s (.func f) v ↔
      ((∃ p ∈ f.params, Exposed (s.without (typeParamNames f.tparams)) p.type v) ∨
        ∃ r, f.ret = some r ∧ Exposed (s.without (typeParamNames f.tparams)) r v) ∧
      v ∉ typeParamNames f.tparams := by
  constructor
  · rintro ⟨n, C, hocc, h⟩
    cases hocc with
    | param hp hocc =>
        obtain ⟨hexposed, hv⟩ := (exposed_without _ _).2 ⟨n, _, hocc, h⟩
        exact ⟨Or.inl ⟨_, hp, hexposed⟩, hv⟩
    | ret hr hocc =>
        obtain ⟨hexposed, hv⟩ := (exposed_without _ _).2 ⟨n, _, hocc, h⟩
        exact ⟨Or.inr ⟨_, hr, hexposed⟩, hv⟩
  · rintro ⟨⟨p, hp, hexposed⟩ | ⟨r, hr, hexposed⟩, hv⟩
    · obtain ⟨n, C, hocc, h⟩ := (exposed_without _ _).1 ⟨hexposed, hv⟩
      exact ⟨n, _, .param hp hocc, h⟩
    · obtain ⟨n, C, hocc, h⟩ := (exposed_without _ _).1 ⟨hexposed, hv⟩
      exact ⟨n, _, .ret hr hocc, h⟩

/-- The variables that no signature binds after a substitution, for types whose shape is kept.  The
induction is on the type; a signature hides its names from the substitution below it. -/
theorem mem_vars_applyWith (eq : Ty → Ty → Bool) {t : Ty} (h : t.Plain) :
    v ∈ (applyWith eq s t).vars ↔ Exposed s t v := by
  induction h generalizing s with
  | prim p =>
      refine iff_of_false (by simp [applyWith, vars]) ?_
      rintro ⟨n, C, hocc, -⟩
      cases hocc
  | lit l =>
      refine iff_of_false (by simp [applyWith, vars]) ?_
      rintro ⟨n, C, hocc, -⟩
      cases hocc
  | classRef n =>
      refine iff_of_false (by simp [applyWith, vars]) ?_
      rintro ⟨n, C, hocc, -⟩
      cases hocc
  | tvar n =>
      rw [exposed_tvar, applyWith, mem_free]
      rfl
  | array _ ih => rw [applyWith, vars, ih, exposed_array]
  | pred _ ih => rw [applyWith, vars, ih, exposed_pred]
  | tuple _ ih =>
      rw [applyWith, vars, applyListWith_eq_map, mem_varsList, exposed_tuple]
      simp only [List.mem_map, exists_exists_and_eq_and]
      exact exists_congr fun e => and_congr_right fun he => ih e he
  | ref _ ih =>
      rw [applyWith, vars, applyListWith_eq_map, mem_varsList, exposed_ref]
      simp only [List.mem_map, exists_exists_and_eq_and]
      exact exists_congr fun a => and_congr_right fun ha => ih a ha
  | @object o _ _ ihm ihi =>
      rw [applyWith, vars, List.mem_append, applyMembersWith_eq_map, mem_varsMembers,
        mem_varsIndex_applyIndexWith, exposed_object]
      refine or_congr ?_ ?_
      · simp only [List.mem_map, exists_exists_and_eq_and]
        exact exists_congr fun m => and_congr_right fun hm => ihm m hm
      · exact exists_congr fun i => and_congr_right fun hi => ihi i hi
  | @func f _ _ ihp ihr =>
      rw [applyWith, mem_varsFunc, typeParamNames_applyTypeParamsWith, applyParamsWith_eq_map,
        exists_applyOptionWith, exposed_func]
      refine and_congr_left' (or_congr ?_ ?_)
      · simp only [List.mem_map, exists_exists_and_eq_and]
        exact exists_congr fun p => and_congr_right fun hp => ihp p hp
      · exact exists_congr fun r => and_congr_right fun hr => ihr r hr

/-- **Free variables after a substitution.**  A variable is free exactly when it is free in a type that
is put in for a free variable and no signature above that place declares it. -/
theorem mem_free_apply {t : Ty} (h : t.Plain) (s : Subst) (v : String) :
    v ∈ (t.apply s).free ↔ Exposed s t v := by
  rw [mem_free, apply, mem_vars_applyWith equal h]

/-- The variables of a type are those that the empty substitution puts in. -/
theorem mem_vars_iff {t : Ty} (h : t.Plain) : v ∈ t.vars ↔ Exposed [] t v := by
  induction h with
  | prim p | lit l | classRef n =>
      refine iff_of_false (by simp [vars]) ?_
      rintro ⟨n, C, hocc, -⟩
      cases hocc
  | tvar n =>
      rw [exposed_tvar, mem_free]
      rfl
  | array _ ih => rw [vars, ih, exposed_array]
  | pred _ ih => rw [vars, ih, exposed_pred]
  | tuple _ ih =>
      rw [vars, mem_varsList, exposed_tuple]
      exact exists_congr fun e => and_congr_right fun he => ih e he
  | ref _ ih =>
      rw [vars, mem_varsList, exposed_ref]
      exact exists_congr fun a => and_congr_right fun ha => ih a ha
  | object _ _ ihm ihi =>
      rw [vars, List.mem_append, mem_varsMembers, mem_varsIndex, exposed_object]
      exact or_congr (exists_congr fun m => and_congr_right fun hm => ihm m hm)
        (exists_congr fun i => and_congr_right fun hi => ihi i hi)
  | func _ _ ihp ihr =>
      rw [mem_varsFunc, exposed_func]
      exact and_congr_left' (or_congr (exists_congr fun p => and_congr_right fun hp => ihp p hp)
        (exists_congr fun r => and_congr_right fun hr => ihr r hr))

/-- A free variable stands somewhere below no signature that declares it. -/
theorem exists_occurs_of_mem_free {t : Ty} (h : t.Plain) {n : String} (hn : n ∈ t.free) :
    ∃ C, Occurs n C t ∧ n ∉ C := by
  obtain ⟨m, C, hocc, hm, -, himage⟩ := (mem_vars_iff h).1 ((mem_free t n).1 hn)
  have heq : n = m := by
    rw [mem_free] at himage
    exact List.mem_singleton.1 himage
  subst heq
  exact ⟨C, hocc, hm⟩

/-! ### Substitutions that keep variables free -/

/-- A substitution keeps the variables of the types that it puts in: all of them are free afterwards. -/
def KeepsFree (s : Subst) (t : Ty) : Prop :=
  ∀ n ∈ t.free, ∀ a, s.get? n = some a → ∀ v ∈ a.free, v ∈ (t.apply s).free

/-- **When a substitution keeps variables free.**  It does so exactly when every variable of a type that
it puts in is put in somewhere below no signature that declares it. -/
theorem keepsFree_iff {t : Ty} (h : t.Plain) (s : Subst) :
    KeepsFree s t ↔ ∀ n ∈ t.free, ∀ a, s.get? n = some a → ∀ v ∈ a.free, Exposed s t v := by
  constructor
  · intro hkeeps n hn a ha v hv
    exact (mem_free_apply h s v).1 (hkeeps n hn a ha v hv)
  · intro hexposed n hn a ha v hv
    exact (mem_free_apply h s v).2 (hexposed n hn a ha v hv)

/-- In `<V>(x: T)`, a `U` that is put in for `T` stays free. -/
theorem keepsFree_generic :
    KeepsFree [("T", .array (.tvar "U"))]
      (.func { tparams := [{ name := "V" }], params := [{ name := "x", type := .tvar "T" }] }) := by
  have hplain : Plain
      (.func { tparams := [{ name := "V" }], params := [{ name := "x", type := .tvar "T" }] }) := by
    refine .func (fun p hp => ?_) fun r hr => by cases hr
    rw [List.mem_singleton.1 hp]
    exact .tvar "T"
  refine (keepsFree_iff hplain _).2 fun n hn a ha v hv => ?_
  have hT : n = "T" := List.mem_singleton.1 hn
  subst hT
  cases ha
  have hU : v = "U" := List.mem_singleton.1 hv
  subst hU
  exact ⟨"T", _, .param List.mem_cons_self .tvar, by decide, by decide, by decide⟩

/-- **Capture.**  In `<U>(x: T) -> U`, a `U` that is put in for `T` is bound by the signature. -/
theorem not_keepsFree_captured :
    ¬ KeepsFree [("T", .tvar "U")]
      (.func {
        tparams := [{ name := "U" }]
        params := [{ name := "x", type := .tvar "T" }]
        ret := some (.tvar "U") }) := by
  intro h
  have hfree := h "T" (by decide) (.tvar "U") rfl "U" (by decide)
  revert hfree
  decide

/-- A substitution keeps variables free if no signature declares a variable of a type that is put in
below it. -/
theorem keepsFree_of_clear {t : Ty} (h : t.Plain) {s : Subst}
    (hclear : ∀ n C a, Occurs n C t → s.get? n = some a → ∀ v ∈ a.free, v ∉ C) : KeepsFree s t := by
  intro n hn a ha v hv
  obtain ⟨C, hocc, hC⟩ := exists_occurs_of_mem_free h hn
  refine (mem_free_apply h s v).2 ⟨n, C, hocc, hC, hclear n C a hocc ha v hv, ?_⟩
  rw [Subst.image, ha, Option.getD_some]
  exact hv

end Ty

end TreeCheck
