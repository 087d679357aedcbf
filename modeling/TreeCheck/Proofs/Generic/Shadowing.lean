import TreeCheck.Proofs.Assign.Permuted
import TreeCheck.Proofs.Generic.Inference
import TreeCheck.Proofs.Ty.Renaming

/-!
# Inference and the names that signatures bind

A formal type may hold generic signatures, whose type parameters have names of their own.  Matching goes
below such a signature without leaving its names out, so a name that is inferred and is declared again
inside a formal type takes notes there that are not its own.  Where a signature gets names that are neither
inferred nor met in an actual type or a definition, before and after, the inferred arguments are the same.

* `Ty.Renamed` — types that are the same up to the names in some of their parts;
* `Matches`, `Matched` — what a matching goes on to, in a type and in a renamed one;
* `TextsAgree` — the texts by which the pairs in progress are known, before and after the renaming;
* `unifyUpTo_renamed` — a renamed formal type is matched with the same notes;
* `inferArguments_renamed` — and so the inferred arguments are the same;
* `inferArguments_shadowed` — a name that is inferred and declared again, where they are not.
-/

namespace TreeCheck

open Equiv (Perm)

/-! ### Renamed parts -/

namespace Ty

/-- One child of a type is replaced. -/
inductive Replaced (u u' : Ty) : Ty → Ty → Prop
  | array : Replaced u u' (.array u) (.array u')
  | tuple (l r : List Ty) : Replaced u u' (.tuple (l ++ u :: r)) (.tuple (l ++ u' :: r))
  | member (l r : List Member) (m : Member) (i : Option Index) : m.type = u →
      Replaced u u' (.object ⟨l ++ m :: r, i⟩) (.object ⟨l ++ { m with type := u' } :: r, i⟩)
  | key (ms : List Member) (v : Ty) : Replaced u u' (.object ⟨ms, some ⟨u, v⟩⟩) (.object ⟨ms, some ⟨u', v⟩⟩)
  | value (ms : List Member) (k : Ty) : Replaced u u' (.object ⟨ms, some ⟨k, u⟩⟩) (.object ⟨ms, some ⟨k, u'⟩⟩)
  | constraint (l r : List TypeParam) (p : TypeParam) (ps : List Param) (ret : Option Ty) : p.constraint = some u →
      Replaced u u' (.func ⟨l ++ p :: r, ps, ret⟩) (.func ⟨l ++ { p with constraint := some u' } :: r, ps, ret⟩)
  | default (l r : List TypeParam) (p : TypeParam) (ps : List Param) (ret : Option Ty) : p.default = some u →
      Replaced u u' (.func ⟨l ++ p :: r, ps, ret⟩) (.func ⟨l ++ { p with default := some u' } :: r, ps, ret⟩)
  | param (ts : List TypeParam) (l r : List Param) (p : Param) (ret : Option Ty) : p.type = u →
      Replaced u u' (.func ⟨ts, l ++ p :: r, ret⟩) (.func ⟨ts, l ++ { p with type := u' } :: r, ret⟩)
  | ret (ts : List TypeParam) (ps : List Param) : Replaced u u' (.func ⟨ts, ps, some u⟩) (.func ⟨ts, ps, some u'⟩)
  | pred (x : String) : Replaced u u' (.pred x u) (.pred x u')
  | union (l r : List Ty) : Replaced u u' (.union (l ++ u :: r)) (.union (l ++ u' :: r))
  | inter (l r : List Ty) : Replaced u u' (.inter (l ++ u :: r)) (.inter (l ++ u' :: r))
  | arg (x : String) (l r : List Ty) : Replaced u u' (.ref x (l ++ u :: r)) (.ref x (l ++ u' :: r))

/-- The second type is the first one with the names in one part of it permuted, that of a generic signature
for one.  A reference has its names permuted as a whole, and so has a member of a union that mentions none
of the parameters. -/
inductive Renamed (params : List String) (π : Perm String) : Ty → Ty → Prop
  | same (t : Ty) : Renamed params π t t
  | whole (t : Ty) : Renamed params π t (t.permute π)
  | part {u u' t t' : Ty} : Replaced u u' t t' → Renamed params π u u' → t.isNamed = false →
      (t.isUnion = true → u.mentionsVar params = true ∨ u' = u.permute π) → Renamed params π t t'

/-- Two types have the same head, and what a matching looks at below it is related. -/
inductive SameHead (R : Ty → Ty → Prop) : Ty → Ty → Prop
  | prim (p : Prim) : SameHead R (.prim p) (.prim p)
  | lit (l : Lit) : SameHead R (.lit l) (.lit l)
  | array {e e' : Ty} : R e e' → SameHead R (.array e) (.array e')
  | tuple {es es' : List Ty} : List.Forall₂ R es es' → SameHead R (.tuple es) (.tuple es')
  | object {o o' : Object} : List.Forall₂ (fun m m' : Member => m'.name = m.name ∧ R m.type m'.type) o.members o'.members →
      Option.Rel (fun i i' : Index => R i.key i'.key ∧ R i.value i'.value) o.index o'.index →
      SameHead R (.object o) (.object o')
  | func {f f' : Func} : List.Forall₂ (fun p p' : Param => R p.type p'.type) f.params f'.params →
      Option.Rel R f.ret f'.ret → SameHead R (.func f) (.func f')
  | pred {x : String} {e e' : Ty} : R e e' → SameHead R (.pred x e) (.pred x e')
  | union {ts ts' : List Ty} : List.Forall₂ R ts ts' → SameHead R (.union ts) (.union ts')
  | inter {ts ts' : List Ty} : List.Forall₂ R ts ts' → SameHead R (.inter ts) (.inter ts')
  | ref {x : String} {args args' : List Ty} : List.Forall₂ R args args' → SameHead R (.ref x args) (.ref x args')
  | tvar (v v' : String) : SameHead R (.tvar v) (.tvar v')
  | classRef (x : String) : SameHead R (.classRef x) (.classRef x)

/-- Lists that differ in one entry are related entry by entry. -/
theorem forall₂_replaced {α : Type} {R : α → α → Prop} (hrefl : ∀ x, R x x) {u u' : α} (h : R u u') (l r : List α) :
    List.Forall₂ R (l ++ u :: r) (l ++ u' :: r) := by
  induction l with
  | nil => exact .cons h (List.forall₂_same.2 fun x _ => hrefl x)
  | cons x l ih => exact .cons (hrefl x) ih

section SameHead

variable {R : Ty → Ty → Prop} {u u' t t' : Ty}

theorem optionRel_refl {α : Type} {S : α → α → Prop} (hrefl : ∀ x, S x x) (o : Option α) : Option.Rel S o o := by
  cases o with
  | none => exact .none
  | some x => exact .some (hrefl x)

theorem sameHead_refl (hrefl : ∀ t, R t t) (t : Ty) : SameHead R t t := by
  have hlist : ∀ ts : List Ty, List.Forall₂ R ts ts := fun ts => List.forall₂_same.2 fun t _ => hrefl t
  cases t with
  | prim p => exact .prim p
  | lit l => exact .lit l
  | array e => exact .array (hrefl e)
  | tuple es => exact .tuple (hlist es)
  | object o =>
      exact .object (List.forall₂_same.2 fun m _ => ⟨rfl, hrefl _⟩)
        (optionRel_refl (fun i => ⟨hrefl _, hrefl _⟩) _)
  | func f => exact .func (List.forall₂_same.2 fun p _ => hrefl _) (optionRel_refl hrefl _)
  | pred x e => exact .pred (hrefl e)
  | union ts => exact .union (hlist ts)
  | inter ts => exact .inter (hlist ts)
  | ref x args => exact .ref (hlist args)
  | tvar v => exact .tvar v v
  | classRef x => exact .classRef x

/-- A permutation of names leaves the head of a type. -/
theorem sameHead_permute {π : Perm String} (h : ∀ t : Ty, R t (t.permute π)) (t : Ty) : SameHead R t (t.permute π) := by
  have hlist : ∀ ts : List Ty, List.Forall₂ R ts (ts.map (permute π)) := fun ts =>
    List.forall₂_map_right_iff.2 (List.forall₂_same.2 fun t _ => h t)
  rw [permute_eq]
  cases t with
  | prim p => exact .prim p
  | lit l => exact .lit l
  | array e => exact .array (h e)
  | tuple es => exact .tuple (hlist es)
  | object o =>
      refine .object (List.forall₂_map_right_iff.2 (List.forall₂_same.2 fun m _ => ⟨rfl, h _⟩)) ?_
      rw [ObjectOf.mapTypes]
      cases o.index with
      | none => exact .none
      | some i => exact .some ⟨h _, h _⟩
  | func f =>
      refine .func (List.forall₂_map_right_iff.2 (List.forall₂_same.2 fun p _ => h _)) ?_
      rw [FuncOf.nameParams, FuncOf.mapChildren]
      cases f.ret with
      | none => exact .none
      | some r => exact .some (h r)
  | pred x e => exact .pred (h e)
  | union ts => exact .union (hlist ts)
  | inter ts => exact .inter (hlist ts)
  | ref x args => exact .ref (hlist args)
  | tvar v => exact .tvar v _
  | classRef x => exact .classRef x

/-- A replacement below the head leaves the head. -/
theorem Replaced.sameHead (h : Replaced u u' t t') (hrefl : ∀ t, R t t) (hu : R u u') : SameHead R t t' := by
  cases h with
  | array => exact .array hu
  | tuple l r => exact .tuple (forall₂_replaced hrefl hu l r)
  | member l r m i hm =>
      exact .object (forall₂_replaced (fun m => ⟨rfl, hrefl _⟩) ⟨rfl, hm ▸ hu⟩ l r)
        (optionRel_refl (fun i => ⟨hrefl _, hrefl _⟩) i)
  | key ms v => exact .object (List.forall₂_same.2 fun m _ => ⟨rfl, hrefl _⟩) (.some ⟨hu, hrefl v⟩)
  | value ms k => exact .object (List.forall₂_same.2 fun m _ => ⟨rfl, hrefl _⟩) (.some ⟨hrefl k, hu⟩)
  | constraint l r p ps ret hp => exact .func (List.forall₂_same.2 fun p _ => hrefl _) (optionRel_refl hrefl ret)
  | default l r p ps ret hp => exact .func (List.forall₂_same.2 fun p _ => hrefl _) (optionRel_refl hrefl ret)
  | param ts l r p ret hp =>
      have hu : R p.type u' := hp ▸ hu
      exact .func (forall₂_replaced (R := fun p p' : Param => R p.type p'.type) (fun p => hrefl _) hu l r)
        (optionRel_refl hrefl ret)
  | ret ts ps => exact .func (List.forall₂_same.2 fun p _ => hrefl _) (.some hu)
  | pred x => exact .pred hu
  | union l r => exact .union (forall₂_replaced hrefl hu l r)
  | inter l r => exact .inter (forall₂_replaced hrefl hu l r)
  | arg x l r => exact .ref (forall₂_replaced hrefl hu l r)

end SameHead

/-! Sizes and variables. -/

theorem sizeMembers_replaced {m : Member} {u' : Ty} (h : u'.size = m.type.size) (l r : List Member) :
    sizeMembers (l ++ { m with type := u' } :: r) = sizeMembers (l ++ m :: r) := by
  induction l with
  | nil => simp [sizeMembers, h]
  | cons n l ih => simp [sizeMembers, ih]

theorem sizeParams_replaced {p : Param} {u' : Ty} (h : u'.size = p.type.size) (l r : List Param) :
    sizeParams (l ++ { p with type := u' } :: r) = sizeParams (l ++ p :: r) := by
  induction l with
  | nil => simp [sizeParams, h]
  | cons q l ih => simp [sizeParams, ih]

theorem sizeTypeParams_replaced {p q : TypeParam}
    (h : sizeOption q.constraint + sizeOption q.default = sizeOption p.constraint + sizeOption p.default)
    (l r : List TypeParam) : sizeTypeParams (l ++ q :: r) = sizeTypeParams (l ++ p :: r) := by
  induction l with
  | nil => simp [sizeTypeParams, h]
  | cons q l ih => simp [sizeTypeParams, ih]

/-- A replacement by a type of the same size leaves the size. -/
theorem Replaced.size_eq {u u' t t' : Ty} (h : Replaced u u' t t') (hu : u'.size = u.size) : t'.size = t.size := by
  cases h with
  | array => rw [size, size, hu]
  | tuple l r => rw [size, size, sizeList_append, sizeList_append, sizeList, sizeList, hu]
  | member l r m i hm => rw [size, size, sizeMembers_replaced (hm ▸ hu)]
  | key ms v => rw [size, size, sizeIndex, sizeIndex, hu]
  | value ms k => rw [size, size, sizeIndex, sizeIndex, hu]
  | constraint l r p ps ret hp =>
      have hsize : sizeTypeParams (l ++ { p with constraint := some u' } :: r) = sizeTypeParams (l ++ p :: r) :=
        sizeTypeParams_replaced (by rw [hp, sizeOption, sizeOption, hu]) l r
      exact congrArg (fun n => n + sizeParams ps + sizeOption ret + 1) hsize
  | default l r p ps ret hp =>
      have hsize : sizeTypeParams (l ++ { p with default := some u' } :: r) = sizeTypeParams (l ++ p :: r) :=
        sizeTypeParams_replaced (by rw [hp, sizeOption, sizeOption, hu]) l r
      exact congrArg (fun n => n + sizeParams ps + sizeOption ret + 1) hsize
  | param ts l r p ret hp => rw [size, size, sizeParams_replaced (hp ▸ hu)]
  | ret ts ps => rw [size, size, sizeOption, sizeOption, hu]
  | pred x => rw [size, size, hu]
  | union l r => rw [size, size, sizeList_append, sizeList_append, sizeList, sizeList, hu]
  | inter l r => rw [size, size, sizeList_append, sizeList_append, sizeList, sizeList, hu]
  | arg x l r => rw [size, size, sizeList_append, sizeList_append, sizeList, sizeList, hu]

/-- A name that the permutation leaves alone is free before and after it. -/
theorem mem_vars_permute {π : Perm String} {v : String} (hv : π v = v) (t : Ty) :
    v ∈ (t.permute π).vars ↔ v ∈ t.vars := by
  induction t using child_induction with
  | _ t ih =>
      have hlist : ∀ {ts : List Ty}, (∀ u ∈ ts, Part u t) → (v ∈ varsList (ts.map (permute π)) ↔ v ∈ varsList ts) := by
        intro ts hts
        simp only [mem_varsList, List.mem_map, exists_exists_and_eq_and]
        exact exists_congr fun u => and_congr_right fun hu => ih u (.part (hts u hu))
      rw [permute_eq]
      cases t with
      | prim p | lit l | classRef x => exact Iff.rfl
      | array e => exact ih e (.part .array)
      | pred x e => exact ih e (.part .pred)
      | tuple es => exact hlist fun u hu => .tuple hu
      | union ts => exact hlist fun u hu => .union hu
      | inter ts => exact hlist fun u hu => .inter hu
      | ref x args => exact hlist fun u hu => .arg hu
      | tvar w =>
          rw [mapNode, vars, vars, List.mem_singleton, List.mem_singleton]
          exact ⟨fun h => π.injective (hv.trans h), fun h => h ▸ hv.symm⟩
      | object o =>
          simp only [mapNode, ObjectOf.mapTypes, vars, List.mem_append, mem_varsMembers, mem_varsIndex,
            List.mem_map, exists_exists_and_eq_and]
          refine or_congr (exists_congr fun m => and_congr_right fun hm => ih _ (.part (.member hm rfl))) ?_
          cases hi : o.index with
          | none => simp
          | some i => simpa using ih _ (.part (.value hi rfl))
      | func f =>
          have hnames : v ∈ typeParamNames (f.permute π).tparams ↔ v ∈ typeParamNames f.tparams := by
            have hmap : typeParamNames (f.permute π).tparams = (typeParamNames f.tparams).map π := by
              simp [typeParamNames, FuncOf.permute, FuncOf.nameParams, FuncOf.mapChildren, Function.comp_def]
            rw [hmap, List.mem_map]
            refine ⟨?_, fun h => ⟨v, h, hv⟩⟩
            rintro ⟨w, hw, h⟩
            exact π.injective (hv.trans h.symm) ▸ hw
          change v ∈ vars (.func (f.permute π)) ↔ _
          rw [mem_varsFunc, mem_varsFunc, hnames]
          refine and_congr_left fun _ => or_congr ?_ ?_
          · change (∃ p ∈ f.params.map fun p => { p with type := p.type.permute π }, _) ↔ _
            simp only [List.mem_map, exists_exists_and_eq_and]
            exact exists_congr fun p => and_congr_right fun hp => ih _ (.part (.param hp rfl))
          · change (∃ r, f.ret.map (permute π) = some r ∧ _) ↔ _
            cases hret : f.ret with
            | none => simp
            | some r => simpa using ih r (.part (.ret hret))

/-- A replacement with the same variable leaves that variable in or out. -/
theorem Replaced.mem_vars {u u' t t' : Ty} {v : String} (h : Replaced u u' t t') (hu : v ∈ u'.vars ↔ v ∈ u.vars) :
    v ∈ t'.vars ↔ v ∈ t.vars := by
  have hlist : ∀ l r : List Ty, v ∈ varsList (l ++ u' :: r) ↔ v ∈ varsList (l ++ u :: r) := fun l r => by
    simp only [mem_varsList, List.mem_append, List.mem_cons, or_and_right, exists_or, exists_eq_left, hu]
  cases h with
  | array => exact hu
  | pred x => exact hu
  | tuple l r => exact hlist l r
  | union l r => exact hlist l r
  | inter l r => exact hlist l r
  | arg x l r => exact hlist l r
  | member l r m i hm =>
      subst hm
      simp only [vars, List.mem_append, mem_varsMembers, List.mem_cons, or_and_right, exists_or, exists_eq_left, hu]
  | key ms k => exact Iff.rfl
  | value ms k => simp only [vars, List.mem_append, varsIndex, hu]
  | constraint l r p ps ret hp => simp only [mem_varsFunc, typeParamNames, List.map_append, List.map_cons]
  | default l r p ps ret hp => simp only [mem_varsFunc, typeParamNames, List.map_append, List.map_cons]
  | param ts l r p ret hp =>
      subst hp
      simp only [mem_varsFunc, List.mem_append, List.mem_cons, or_and_right, exists_or, exists_eq_left, hu]
  | ret ts ps => simp only [mem_varsFunc, Option.some.injEq, exists_eq_left', hu]

namespace Renamed

variable {params : List String} {π : Perm String} {t t' : Ty}

theorem size_eq (h : Renamed params π t t') : t'.size = t.size := by
  induction h with
  | same => rfl
  | whole t => exact size_permute π t
  | part h _ _ _ ih => exact h.size_eq ih

/-- The same parameters are mentioned. -/
theorem mentionsVar_eq (h : Renamed params π t t') (hparams : ∀ v ∈ params, π v = v) :
    t'.mentionsVar params = t.mentionsVar params := by
  have hmem : ∀ v ∈ params, (v ∈ t'.vars ↔ v ∈ t.vars) := by
    intro v hv
    induction h with
    | same => exact Iff.rfl
    | whole t => exact mem_vars_permute (hparams v hv) t
    | part h _ _ _ ih => exact h.mem_vars ih
  rw [Bool.eq_iff_iff, mentionsVar_iff, mentionsVar_iff]
  exact ⟨fun ⟨v, hv, hp⟩ => ⟨v, (hmem v hp).1 hv, hp⟩, fun ⟨v, hv, hp⟩ => ⟨v, (hmem v hp).2 hv, hp⟩⟩

theorem sameHead (h : Renamed params π t t') : SameHead (Renamed params π) t t' := by
  cases h with
  | same => exact sameHead_refl .same t
  | whole => exact sameHead_permute .whole t
  | part h hu _ _ => exact h.sameHead .same hu

/-- A renamed name is the name or its permutation. -/
theorem of_isNamed (h : Renamed params π t t') (ht : t.isNamed = true) : t' = t ∨ t' = t.permute π := by
  cases h with
  | same => exact Or.inl rfl
  | whole => exact Or.inr rfl
  | part _ _ hnamed _ =>
      rw [ht] at hnamed
      cases hnamed

theorem of_tvar {v : String} (h : Renamed params π (.tvar v) t') : t' = .tvar v ∨ t' = .tvar (π v) := by
  cases h with
  | same => exact Or.inl rfl
  | whole => exact Or.inr rfl
  | part h _ _ _ => cases h

/-- A variable that the permutation leaves is met by itself alone. -/
theorem eq_tvar {v : String} (h : Renamed params π t (.tvar v)) (hv : π v = v) : t = .tvar v := by
  generalize heq : Ty.tvar v = t' at h
  cases h with
  | same => rfl
  | whole =>
      cases t with
      | tvar w => rw [← heq, π.injective (hv.trans (Ty.tvar.inj heq))]
      | _ => cases heq
  | part h _ _ _ =>
      subst heq
      cases h

/-- The members of a union are renamed one by one, those without parameters as a whole. -/
theorem of_union {ts : List Ty} (h : Renamed params π (.union ts) t') :
    ∃ ts', t' = .union ts' ∧ List.Forall₂ (fun c c' => Renamed params π c c' ∧
      (c.mentionsVar params = false → c' = c ∨ c' = c.permute π)) ts ts' := by
  cases h with
  | same => exact ⟨ts, rfl, List.forall₂_same.2 fun c _ => ⟨.same c, fun _ => Or.inl rfl⟩⟩
  | whole =>
      refine ⟨ts.map (permute π), permute_union π ts, ?_⟩
      exact List.forall₂_map_right_iff.2 (List.forall₂_same.2 fun c _ => ⟨.whole c, fun _ => Or.inr rfl⟩)
  | part h hu _ hunion =>
      cases h with
      | union l r =>
          refine ⟨_, rfl, forall₂_replaced (fun c => ⟨.same c, fun _ => Or.inl rfl⟩) ⟨hu, fun hnone => ?_⟩ l r⟩
          rcases hunion rfl with hsome | heq
          · rw [hnone] at hsome
            cases hsome
          · exact Or.inr heq

end Renamed

end Ty

/-! ### What a matching goes on to -/

/-- `Matches r f a g b`: matching `f` with `a` may go on to match `g` with `b`. -/
inductive Matches (r : Option Resolver) : Ty → Ty → Ty → Ty → Prop
  | unionFormal {fs : List Ty} {a g b : Ty} : g ∈ fs → b ∈ a.members → Matches r (.union fs) a g b
  | unionActual {as : List Ty} {f b : Ty} : b ∈ as → Matches r f (.union as) f b
  | array {f a : Ty} : Matches r (.array f) (.array a) f a
  | elem {as : List Ty} {f b : Ty} : b ∈ as → Matches r (.array f) (.tuple as) f b
  | tuple {fs as : List Ty} {g b : Ty} : g ∈ fs → b ∈ as → Matches r (.tuple fs) (.tuple as) g b
  | member {f a : Object} {m n : Member} : m ∈ f.members → a.find? m.name = some n →
      Matches r (.object f) (.object a) m.type n.type
  | extra {f a : Object} {i : Index} {n : Member} : f.index = some i → n ∈ a.members →
      Matches r (.object f) (.object a) i.value n.type
  | key {f a : Object} {i j : Index} : f.index = some i → a.index = some j →
      Matches r (.object f) (.object a) i.key j.key
  | value {f a : Object} {i j : Index} : f.index = some i → a.index = some j →
      Matches r (.object f) (.object a) i.value j.value
  | param {f a : Func} {p q : Param} : p ∈ f.params → q ∈ a.params → Matches r (.func f) (.func a) p.type q.type
  | ret {f a : Func} {g b : Ty} : f.ret = some g → a.ret = some b → Matches r (.func f) (.func a) g b
  | pred {x y : String} {f a : Ty} : Matches r (.pred x f) (.pred y a) f a
  | inter {fs : List Ty} {g a : Ty} : g ∈ fs → Matches r (.inter fs) a g a
  | arg {x y : String} {fs as : List Ty} {g b : Ty} : g ∈ fs → b ∈ as → Matches r (.ref x fs) (.ref y as) g b
  | expandActual {r' : Resolver} {f a b : Ty} : r = some r' → r'.expand a = .ok (some b) → Matches r f a f b
  | expandFormal {r' : Resolver} {f g a : Ty} : r = some r' → r'.expand f = .ok (some g) → Matches r f a g a

/-- The formal types, their renamed forms and the actual types that are matched below given ones. -/
inductive Matched (params : List String) (r : Option Resolver) (π : Perm String) (f₀ f₀' a₀ : Ty) :
    Ty → Ty → Ty → Prop
  | start : Matched params r π f₀ f₀' a₀ f₀ f₀' a₀
  | step {f f' a g g' b : Ty} : Matched params r π f₀ f₀' a₀ f f' a → Matches r f a g b → Matches r f' a g' b →
      Ty.Renamed params π g g' → Matched params r π f₀ f₀' a₀ g g' b

/-- The texts by which pairs in progress are known agree for the renamed types where they agree for the
types: those of a pair and of one matched below it, and those of the comparisons with a renamed member of a
union. -/
structure TextsAgree (params : List String) (r : Option Resolver) (π : Perm String) (f₀ f₀' a₀ : Ty) : Prop where
  pairs : ∀ f f' a g g' b, Matched params r π f₀ f₀' a₀ f f' a → Matched params r π f f' a g g' b →
    (comparisonKey f a = comparisonKey g b ↔ comparisonKey f' a = comparisonKey g' b)
  queries : ∀ fs f' a c b, Matched params r π f₀ f₀' a₀ (.union fs) f' a → c ∈ fs → b ∈ a.members →
    c.permute π ≠ c → ∀ r' ∈ r, Rules.SameTexts {} r' π b c

section Matched

variable {params : List String} {r : Option Resolver} {π : Perm String} {f₀ f₀' a₀ f f' a : Ty}

/-- What is met on the way down is renamed as the whole is. -/
theorem Matched.renamed (h : Matched params r π f₀ f₀' a₀ f f' a) (h₀ : Ty.Renamed params π f₀ f₀') :
    Ty.Renamed params π f f' := by
  cases h with
  | start => exact h₀
  | step _ _ _ hrenamed => exact hrenamed

/-- The parts of a type that a permutation leaves alone are left alone. -/
theorem Ty.Part.permute_eq_self {u t : Ty} (h : Part u t) (ht : t.permute π = t) : u.permute π = u := by
  have hlist : ∀ {ts : List Ty}, ts.map (Ty.permute π) = ts → ∀ t ∈ ts, t.permute π = t := by
    intro ts
    induction ts with
    | nil => exact fun _ t ht => nomatch ht
    | cons t ts ih =>
        intro heq
        rw [List.map_cons, List.cons.injEq] at heq
        exact List.forall_mem_cons.2 ⟨heq.1, ih heq.2⟩
  rw [Ty.permute_eq] at ht
  cases h with
  | array => exact Ty.array.inj ht
  | pred => exact (Ty.pred.inj ht).2
  | tuple hu => exact hlist (Ty.tuple.inj ht) u hu
  | union hu => exact hlist (Ty.union.inj ht) u hu
  | inter hu => exact hlist (Ty.inter.inj ht) u hu
  | arg hu => exact hlist (Ty.ref.inj ht).2 u hu
  | @member o m hm hu =>
      subst hu
      have hmembers := congrArg (fun o : Object => o.members.map (·.type)) (Ty.object.inj ht)
      simp only [ObjectOf.mapTypes, List.map_map] at hmembers
      refine hlist ?_ m.type (List.mem_map_of_mem hm)
      rw [List.map_map]
      exact hmembers
  | @key o i hi hu | @value o i hi hu =>
      subst hu
      have hindex := congrArg ObjectOf.index (Ty.object.inj ht)
      simp only [ObjectOf.mapTypes, hi, Option.map_some, Option.some.injEq] at hindex
      first | exact congrArg IndexOf.key hindex | exact congrArg IndexOf.value hindex
  | @param f p hp hu =>
      subst hu
      have hparams := congrArg (fun f : Func => f.params.map (·.type)) (Ty.func.inj ht)
      simp only [FuncOf.nameParams, FuncOf.mapChildren, List.map_map] at hparams
      refine hlist ?_ p.type (List.mem_map_of_mem hp)
      rw [List.map_map]
      exact hparams
  | @ret f hr =>
      have hret := congrArg FuncOf.ret (Ty.func.inj ht)
      simp only [FuncOf.nameParams, FuncOf.mapChildren, hr, Option.map_some, Option.some.injEq] at hret
      exact hret

/-- The members of a fixed actual are fixed. -/
theorem permute_eq_self_of_mem_members {b : Ty} (hb : b ∈ a.members) (ha : a.permute π = a) : b.permute π = b := by
  cases a with
  | union as => exact (Ty.Part.union hb).permute_eq_self ha
  | _ =>
      rw [List.mem_singleton.1 hb]
      exact ha

/-- **The actual types below one without the permuted names have none either.** -/
theorem Matches.permute_eq_self {g b : Ty} (h : Matches r f a g b) (hr : ∀ r' ∈ r, r'.Blind π)
    (ha : a.permute π = a) : b.permute π = b := by
  cases h with
  | unionFormal _ hb => exact permute_eq_self_of_mem_members hb ha
  | unionActual hb => exact (Ty.Part.union hb).permute_eq_self ha
  | array => exact Ty.Part.array.permute_eq_self ha
  | elem hb | tuple _ hb => exact (Ty.Part.tuple hb).permute_eq_self ha
  | member _ hn => exact (Ty.Part.member (ObjectOf.mem_of_find? hn).1 rfl).permute_eq_self ha
  | extra _ hn => exact (Ty.Part.member hn rfl).permute_eq_self ha
  | key _ hj => exact (Ty.Part.key hj rfl).permute_eq_self ha
  | value _ hj => exact (Ty.Part.value hj rfl).permute_eq_self ha
  | param _ hq => exact (Ty.Part.param hq rfl).permute_eq_self ha
  | ret _ hb => exact (Ty.Part.ret hb).permute_eq_self ha
  | pred => exact Ty.Part.pred.permute_eq_self ha
  | inter | expandFormal => exact ha
  | arg _ hb => exact (Ty.Part.arg hb).permute_eq_self ha
  | expandActual hr' hb =>
      have hexpand := (hr _ hr').expand a
      rw [ha, hb] at hexpand
      exact (Option.some.inj (Except.ok.inj hexpand)).symm

/-- What is met of the actual is left by the permutation, as the whole is. -/
theorem Matched.permute_eq_self (h : Matched params r π f₀ f₀' a₀ f f' a) (hr : ∀ r' ∈ r, r'.Blind π)
    (h₀ : a₀.permute π = a₀) : a.permute π = a := by
  induction h with
  | start => exact h₀
  | step _ hstep _ _ ih => exact hstep.permute_eq_self hr ih

end Matched

/-! ### Matching renamed types -/

section Sequence

variable {α β γ : Type}

/-- Actions in a row are the same for entries that are related and have the same actions. -/
theorem forM_congr₂ {R : α → β → Prop} {xs : List α} {ys : List β} (h : List.Forall₂ R xs ys) {c : α → Infer Unit}
    {d : β → Infer Unit} (hcd : ∀ x ∈ xs, ∀ y ∈ ys, R x y → d y = c x) : ys.forM d = xs.forM c := by
  induction h with
  | nil => rfl
  | @cons x y xs ys hxy _ ih =>
      have hhead := hcd x (.head _) y (.head _) hxy
      have htail := ih fun x hx y hy => hcd x (.tail _ hx) y (.tail _ hy)
      change (do d y; ys.forM d) = (do c x; xs.forM c)
      rw [hhead, htail]

theorem forM_congr {xs : List α} {c d : α → Infer Unit} (hcd : ∀ x ∈ xs, d x = c x) : xs.forM d = xs.forM c :=
  forM_congr₂ (List.forall₂_same.2 fun _ _ => rfl) fun x hx _ _ heq => heq ▸ hcd x hx

/-- Searches through related lists with the same tests answer alike. -/
theorem anyM_congr₂ {R : α → β → Prop} {xs : List α} {ys : List β} (h : List.Forall₂ R xs ys) {c : α → Infer Bool}
    {d : β → Infer Bool} (hcd : ∀ x ∈ xs, ∀ y ∈ ys, R x y → d y = c x) : ys.anyM d = xs.anyM c := by
  induction h with
  | nil => rfl
  | @cons x y xs ys hxy _ ih =>
      have hhead := hcd x (.head _) y (.head _) hxy
      have htail := ih fun x hx y hy => hcd x (.tail _ hx) y (.tail _ hy)
      rw [List.anyM, List.anyM, hhead, htail]

theorem bind_congr₂ {c c' : Infer α} {k k' : α → Infer β} (hc : c' = c) (hk : ∀ x, k' x = k x) :
    (c' >>= k') = (c >>= k) := by
  rw [hc, funext hk]

/-- What follows a question is the same if it is for the answers that the question has. -/
theorem bind_query_congr {q : Query α} {k k' : α → Infer β} (h : ∀ x, q = .ok x → k' x = k x) :
    ((q : Infer α) >>= k') = ((q : Infer α) >>= k) := by
  cases q with
  | error f => rfl
  | ok x =>
      funext o
      exact congrFun (h x rfl) o

end Sequence

section Step

variable {params : List String} {r : Option Resolver} {π : Perm String} {f f' a : Ty}
  {go go' : Ty → Ty → Infer Unit}
  (hgo : ∀ g g' b, Matches r f a g b → Matches r f' a g' b → Ty.Renamed params π g g' → go' g' b = go g b)

include hgo

/-- Lists of renamed formals are unified alike. -/
theorem unifyLists_renamed {fs fs' as : List Ty} (hfs : List.Forall₂ (Ty.Renamed params π) fs fs')
    (hf : ∀ g ∈ fs, ∀ b ∈ as, Matches r f a g b) (hf' : ∀ g ∈ fs', ∀ b ∈ as, Matches r f' a g b) :
    unifyLists go' fs' as = unifyLists go fs as := by
  unfold unifyLists
  induction hfs generalizing as with
  | nil => rfl
  | @cons g g' fs fs' hg _ ih =>
      cases as with
      | nil => rfl
      | cons b as =>
          have hhead := hgo g g' b (hf g (.head _) b (.head _)) (hf' g' (.head _) b (.head _)) hg
          have htail := @ih as (fun g hg b hb => hf g (.tail _ hg) b (.tail _ hb)) fun g hg b hb =>
            hf' g (.tail _ hg) b (.tail _ hb)
          change (do go' g' b; (fs'.zip as).forM fun p => go' p.1 p.2) =
            (do go g b; (fs.zip as).forM fun p => go p.1 p.2)
          rw [hhead, htail]

end Step

section Heads

variable {params : List String} {r : Option Resolver} {π : Perm String} {go go' : Ty → Ty → Infer Unit}

theorem find?_isSome_of_forall₂ {R : Member → Member → Prop} (hname : ∀ m m', R m m' → m'.name = m.name)
    {ms ms' : List Member} (h : List.Forall₂ R ms ms') (x : String) :
    (ms'.find? fun m => m.name == x).isSome = (ms.find? fun m => m.name == x).isSome := by
  induction h with
  | nil => rfl
  | cons hm _ ih =>
      rw [List.find?_cons, List.find?_cons, hname _ _ hm]
      split
      · rfl
      · exact ih

/-- Records whose members are renamed are unified alike. -/
theorem unifyObject_renamed {f f' a : Object}
    (hgo : ∀ g g' b, Matches r (.object f) (.object a) g b → Matches r (.object f') (.object a) g' b →
      Ty.Renamed params π g g' → go' g' b = go g b)
    (hmembers : List.Forall₂ (fun m m' : Member => m'.name = m.name ∧ Ty.Renamed params π m.type m'.type)
      f.members f'.members)
    (hindex : Option.Rel (fun i i' : Index => Ty.Renamed params π i.key i'.key ∧
      Ty.Renamed params π i.value i'.value) f.index f'.index) :
    unifyObject go' f' a = unifyObject go f a := by
  have hfound : ∀ x, (f'.find? x).isSome = (f.find? x).isSome :=
    find?_isSome_of_forall₂ (fun _ _ h => h.1) hmembers
  unfold unifyObject
  refine bind_congr₂ (forM_congr₂ hmembers fun m hm m' hm' ⟨hname, htype⟩ => ?_) fun _ => ?_
  · rw [hname]
    cases hfind : a.find? m.name with
    | none => rfl
    | some n => exact hgo _ _ _ (.member hm hfind) (.member hm' (hname ▸ hfind)) htype
  · generalize hi : f.index = i at hindex
    generalize hi' : f'.index = i' at hindex
    cases hindex with
    | none => rfl
    | some hrenamed =>
        refine bind_congr₂ (forM_congr fun n hn => ?_) fun _ => ?_
        · rw [hfound]
          split
          · rfl
          · exact hgo _ _ _ (.extra hi hn) (.extra hi' hn) hrenamed.2
        · cases hj : a.index with
          | none => rfl
          | some j =>
              exact bind_congr₂ (hgo _ _ _ (.key hi hj) (.key hi' hj) hrenamed.1) fun _ =>
                hgo _ _ _ (.value hi hj) (.value hi' hj) hrenamed.2

/-- So are functions whose parameters and result are. -/
theorem unifyFunc_renamed {f f' a : Func}
    (hgo : ∀ g g' b, Matches r (.func f) (.func a) g b → Matches r (.func f') (.func a) g' b →
      Ty.Renamed params π g g' → go' g' b = go g b)
    (hparams : List.Forall₂ (fun p p' : Param => Ty.Renamed params π p.type p'.type) f.params f'.params)
    (hret : Option.Rel (Ty.Renamed params π) f.ret f'.ret) :
    unifyStructural go' (.func f') (.func a) = unifyStructural go (.func f) (.func a) := by
  have hparam : ∀ {h : Func}, ∀ g ∈ h.params.map (·.type), ∀ b ∈ a.params.map (·.type),
      Matches r (.func h) (.func a) g b := by
    intro h g hg b hb
    obtain ⟨p, hp, rfl⟩ := List.mem_map.1 hg
    obtain ⟨q, hq, rfl⟩ := List.mem_map.1 hb
    exact .param hp hq
  have htypes := List.forall₂_map_left_iff.2 (List.forall₂_map_right_iff.2 hparams)
  refine bind_congr₂ (unifyLists_renamed hgo htypes hparam hparam) fun _ => ?_
  generalize hg : f.ret = g at hret
  generalize hg' : f'.ret = g' at hret
  cases hret with
  | none => rfl
  | some hrenamed =>
      cases hb : a.ret with
      | none => rfl
      | some b => exact hgo _ _ _ (.ret hg hb) (.ret hg' hb) hrenamed

/-- **Heads that are no unions and no names** go on alike. -/
theorem unifyStructural_renamed {f f' a : Ty}
    (hgo : ∀ g g' b, Matches r f a g b → Matches r f' a g' b → Ty.Renamed params π g g' → go' g' b = go g b)
    (h : Ty.SameHead (Ty.Renamed params π) f f') : unifyStructural go' f' a = unifyStructural go f a := by
  cases h with
  | array he =>
      cases a with
      | array a => exact hgo _ _ _ .array .array he
      | tuple as => exact forM_congr fun b hb => hgo _ _ _ (.elem hb) (.elem hb) he
      | _ => rfl
  | tuple hes =>
      cases a with
      | tuple as => exact unifyLists_renamed hgo hes (fun g hg b hb => .tuple hg hb) fun g hg b hb => .tuple hg hb
      | _ => rfl
  | object hmembers hindex =>
      cases a with
      | object a => exact unifyObject_renamed hgo hmembers hindex
      | _ => rfl
  | func hparams hret =>
      cases a with
      | func a => exact unifyFunc_renamed hgo hparams hret
      | _ => rfl
  | pred he =>
      cases a with
      | pred y a => exact hgo _ _ _ .pred .pred he
      | _ => rfl
  | inter hts => 
      cases a <;> exact forM_congr₂ hts fun g hg g' hg' hrenamed => hgo _ _ _ (.inter hg) (.inter hg') hrenamed
  | _ => cases a <;> rfl

end Heads

/-! ### Names and unions -/

/-- A formal type matched with what the actual type stands for. -/
def unifyActual (go : Ty → Ty → Infer Unit) (r : Resolver) (formal actual : Ty) : Infer Unit := do
  match ← (r.expand actual : Query _) with
  | some a => go formal a
  | none => pure ()

/-- References to the same name are unified argument by argument, others as what they stand for. -/
theorem unifyNamed_ref (go : Ty → Ty → Infer Unit) (r : Resolver) (x y : String) (fs as : List Ty) :
    unifyNamed go (some r) (.ref x fs) (.ref y as) =
      if x == y && fs.length == as.length then unifyLists go fs as
      else unifyActual go r (.ref x fs) (.ref y as) := by
  cases hsame : (x == y && fs.length == as.length) with
  | true => simp only [unifyNamed, hsame, if_true]
  | false =>
      simp only [unifyNamed, hsame]
      rfl

/-- A formal type is matched by what it stands for, where the actual type is no name. -/
def unifyFormal (go : Ty → Ty → Infer Unit) (r : Option Resolver) (formal actual : Ty) : Infer Unit :=
  match formal with
  | .ref _ _ =>
    match r with
    | none => pure ()
    | some r => do
      match ← (r.expand formal : Query _) with
      | some f => go f actual
      | none => pure ()
  | _ => unifyStructural go formal actual

section Blind

variable {params : List String} {r : Option Resolver} {π : Perm String} {go go' : Ty → Ty → Infer Unit}
  (hr : ∀ r' ∈ r, r'.Blind π)

include hr

/-- A renamed formal name is expanded to a renamed type. -/
theorem unify_expandFormal {r' : Resolver} (hr' : r = some r') {f f' a : Ty}
    (hgo : ∀ g g' b, Matches r f a g b → Matches r f' a g' b → Ty.Renamed params π g g' → go' g' b = go g b)
    (hf : f' = f ∨ f' = f.permute π) :
    (do match ← (r'.expand f' : Query _) with
      | some g => go' g a
      | none => pure () : Infer Unit) =
    (do match ← (r'.expand f : Query _) with
      | some g => go g a
      | none => pure () : Infer Unit) := by
  rcases hf with rfl | rfl
  · refine bind_query_congr fun o ho => ?_
    cases o with
    | none => rfl
    | some g => exact hgo g g a (.expandFormal hr' ho) (.expandFormal hr' ho) (.same g)
  · have hexpand := (hr r' hr').expand f
    cases ho : r'.expand f with
    | error e =>
        rw [hexpand, ho]
        rfl
    | ok o =>
        rw [ho] at hexpand
        rw [hexpand]
        cases o with
        | none => rfl
        | some g => exact hgo g _ a (.expandFormal hr' ho) (.expandFormal hr' hexpand) (.whole g)

/-- A formal and its renaming are unified alike with the same actual. -/
theorem unifyFormal_renamed {f f' a : Ty}
    (hgo : ∀ g g' b, Matches r f a g b → Matches r f' a g' b → Ty.Renamed params π g g' → go' g' b = go g b)
    (h : Ty.Renamed params π f f') : unifyFormal go' r f' a = unifyFormal go r f a := by
  have hhead := h.sameHead
  cases hhead with
  | ref hargs =>
      cases r with
      | none => rfl
      | some r' => exact unify_expandFormal hr rfl hgo (h.of_isNamed rfl)
  | _ => exact unifyStructural_renamed hgo h.sameHead

/-- **Names** are matched alike: by their arguments, or by what they stand for. -/
theorem unifyNamed_renamed {f f' a : Ty}
    (hgo : ∀ g g' b, Matches r f a g b → Matches r f' a g' b → Ty.Renamed params π g g' → go' g' b = go g b)
    (h : Ty.Renamed params π f f') : unifyNamed go' r f' a = unifyNamed go r f a := by
  have hformal := unifyFormal_renamed hr hgo h
  cases r with
  | none => exact hformal
  | some r' =>
      cases a with
      | ref y as =>
          have hactual : unifyActual go' r' f' (.ref y as) = unifyActual go r' f (.ref y as) := by
            refine bind_query_congr fun o ho => ?_
            cases o with
            | none => rfl
            | some b => exact hgo f f' b (.expandActual rfl ho) (.expandActual rfl ho) h
          have hhead := h.sameHead
          cases hhead with
          | ref hargs =>
              rw [unifyNamed_ref, unifyNamed_ref, hargs.length_eq, hactual]
              split
              · exact unifyLists_renamed hgo hargs (fun g hg b hb => .arg hg hb) fun g hg b hb => .arg hg hb
              · rfl
          | _ => exact hactual
      | _ => exact hformal

end Blind

section Union

variable {params : List String} {r : Option Resolver} {π : Perm String} {go go' : Ty → Ty → Infer Unit}
  (hparams : ∀ v ∈ params, π v = v) (hr : ∀ r' ∈ r, r'.Blind π)

include hparams hr

/-- **Unions** are matched alike: what fits a member without parameters fits it after the renaming. -/
theorem unifyUnion_renamed {fs fs' : List Ty} {a : Ty}
    (hgo : ∀ g g' b, Matches r (.union fs) a g b → Matches r (.union fs') a g' b → Ty.Renamed params π g g' →
      go' g' b = go g b)
    (ha : a.permute π = a)
    (hfs : List.Forall₂ (fun c c' => Ty.Renamed params π c c' ∧
      (c.mentionsVar params = false → c' = c ∨ c' = c.permute π)) fs fs')
    (htexts : ∀ c ∈ fs, ∀ b ∈ a.members, c.permute π ≠ c → ∀ r' ∈ r, Rules.SameTexts {} r' π b c) :
    unifyUnion go' params r fs' a = unifyUnion go params r fs a := by
  have hmentions : ∀ {c c' : Ty}, Ty.Renamed params π c c' → c'.mentionsVar params = c.mentionsVar params :=
    fun h => h.mentionsVar_eq hparams
  have hgeneric := List.rel_filter (p := (·.mentionsVar params)) (q := (·.mentionsVar params))
    (fun c c' h => by simp only [hmentions h.1]) hfs
  have hconcrete := List.rel_filter (p := (!·.mentionsVar params)) (q := (!·.mentionsVar params))
    (fun c c' h => by simp only [hmentions h.1]) hfs
  unfold unifyUnion
  refine forM_congr fun b hb => ?_
  have hask := anyM_congr₂ hconcrete (c := fun c => (isAssignable r b c : Query Bool))
    (d := fun c => (isAssignable r b c : Query Bool)) fun c hc c' _ h => by
      obtain ⟨hc, hnone⟩ := List.mem_filter.1 hc
      rcases h.2 (by simpa using hnone) with rfl | rfl
      · rfl
      · by_cases hmoved : c.permute π = c
        · rw [hmoved]
        · have hassign : isAssignable r (b.permute π) (c.permute π) = isAssignable r b c :=
            Rules.assignable_permute hr (htexts c hc b hb hmoved)
          rw [permute_eq_self_of_mem_members hb ha] at hassign
          exact congrArg (fun q : Query Bool => (q : Infer Bool)) hassign
  rw [hask]
  refine congrArg _ (funext fun found => ?_)
  split
  · rfl
  · refine forM_congr₂ hgeneric fun g hg g' hg' h => ?_
    exact hgo g g' b (.unionFormal (List.mem_of_mem_filter hg) hb) (.unionFormal (List.mem_of_mem_filter hg') hb) h.1

end Union

/-! ### Whole matchings -/

section Unify

variable {params : List String} {r : Option Resolver} {π : Perm String}

/-- **A renamed formal type is matched with the same notes**, at any depth.  A pair in
progress is one that the pair at hand was matched below, so the texts by which the two are known agree after
the renaming where they agree before it. -/
theorem unifyUpTo_renamed (hparams : ∀ v ∈ params, π v = v) (hr : ∀ r' ∈ r, r'.Blind π) {f₀ f₀' a₀ : Ty}
    (hrenamed : Ty.Renamed params π f₀ f₀') (hactual : a₀.permute π = a₀)
    (htexts : TextsAgree params r π f₀ f₀' a₀) {n : ℕ} (visited : List (Ty × Ty × Ty))
    {f f' a : Ty} (h : Matched params r π f₀ f₀' a₀ f f' a)
    (hvisited : ∀ p ∈ visited, Matched params r π f₀ f₀' a₀ p.1 p.2.1 p.2.2 ∧
      Matched params r π p.1 p.2.1 p.2.2 f f' a) :
    unifyUpTo params r n (visited.map fun p => comparisonKey p.2.1 p.2.2) f' a =
      unifyUpTo params r n (visited.map fun p => comparisonKey p.1 p.2.2) f a := by
  induction n generalizing visited f f' a with
  | zero => rfl
  | succ n ih =>
      have hff' := h.renamed hrenamed
      by_cases hparam : ∃ v ∈ params, f = .tvar v
      · -- an inferred name is left alone
        obtain ⟨v, hv, rfl⟩ := hparam
        obtain rfl : f' = .tvar v := hff'.of_tvar.elim id fun h => h.trans (by rw [hparams v hv])
        rw [unifyUpTo, unifyUpTo]
        simp only [List.contains_iff_mem.2 hv, if_true]
      · have hf : ∀ v ∈ params, f ≠ .tvar v := fun v hv heq => hparam ⟨v, hv, heq⟩
        have hf' : ∀ v ∈ params, f' ≠ .tvar v := by
          rintro v hv rfl
          exact hf v hv (hff'.eq_tvar (hparams v hv))
        have hcontains := contains_map_of_iff (fun p : Ty × Ty × Ty => comparisonKey p.1 p.2.2)
          (fun p => comparisonKey p.2.1 p.2.2) (f, f', a) fun p hp => by
            rw [eq_comm, htexts.pairs p.1 p.2.1 p.2.2 f f' a (hvisited p hp).1 (hvisited p hp).2, eq_comm]
        have hgo : ∀ g g' b, Matches r f a g b → Matches r f' a g' b → Ty.Renamed params π g g' →
            unifyUpTo params r n (comparisonKey f' a :: visited.map fun p => comparisonKey p.2.1 p.2.2) g' b =
              unifyUpTo params r n (comparisonKey f a :: visited.map fun p => comparisonKey p.1 p.2.2) g b := by
          intro g g' b hstep hstep' hgg'
          refine ih ((f, f', a) :: visited) (h.step hstep hstep' hgg') fun p hp => ?_
          rcases List.mem_cons.1 hp with rfl | hp
          · exact ⟨h, .step .start hstep hstep' hgg'⟩
          · exact ⟨(hvisited p hp).1, (hvisited p hp).2.step hstep hstep' hgg'⟩
        rw [unifyUpTo_succ params r n _ f' a hf', unifyUpTo_succ params r n _ f a hf,
          hff'.mentionsVar_eq hparams, hcontains]
        refine if_congr Iff.rfl rfl ?_
        cases hff'.sameHead with
        | @union fs fs' _ =>
            obtain ⟨ts', heq, hfs⟩ := hff'.of_union
            obtain rfl := Ty.union.inj heq
            exact unifyUnion_renamed hparams hr hgo (h.permute_eq_self hr hactual) hfs fun c hc b hb =>
              htexts.queries fs _ a c b h hc hb
        | _ =>
            cases a with
            | union as => exact forM_congr fun b hb => hgo _ _ b (.unionActual hb) (.unionActual hb) hff'
            | _ => exact unifyNamed_renamed hr hgo hff'

/-- All formals of a call are unified alike with its actuals. -/
theorem unifyAll_renamed (hparams : ∀ v ∈ params, π v = v) (hr : ∀ r' ∈ r, r'.Blind π)
    {formals formals' actuals : List (Option Ty)}
    (hformals : List.Forall₂ (Option.Rel (Ty.Renamed params π)) formals formals')
    (hactuals : ∀ a, some a ∈ actuals → a.permute π = a)
    (htexts : ∀ f f' a, ((some f, some f'), some a) ∈ (formals.zip formals').zip actuals →
      TextsAgree params r π f f' a) :
    unifyAll params r formals' actuals = unifyAll params r formals actuals := by
  induction hformals generalizing actuals with
  | nil => rfl
  | @cons f f' fs fs' hf hfs ih =>
      cases actuals with
      | nil => cases hf <;> rfl
      | cons a as =>
          have hrest := ih (fun a ha => hactuals a (.tail _ ha)) fun f f' a h => htexts f f' a (.tail _ h)
          cases hf with
          | none => exact hrest
          | @some f f' hff' =>
              cases a with
              | none => exact hrest
              | some a =>
                  have hfirst := unifyUpTo_renamed (n := 4 * (f.size + a.size) + queryDepth) hparams hr hff'
                    (hactuals a (.head _)) (htexts f f' a (.head _)) [] .start fun p hp => nomatch hp
                  rw [unifyAll, unifyAll, hff'.size_eq, hrest]
                  exact congrArg (fun c : Infer Unit => do c; unifyAll params r fs as) hfirst

end Unify

/-! ### Inferred arguments -/

/-- The names that are moved are none that are inferred, stand in no actual type, and the definitions do not
tell them apart. -/
structure Unmet (π : Perm String) (ps : List TypeParam) (actuals : List (Option Ty)) (r : Option Resolver) :
    Prop where
  inferred : ∀ v ∈ typeParamNames ps, π v = v
  actuals : ∀ a, some a ∈ actuals → a.permute π = a
  definitions : ∀ r' ∈ r, r'.Blind π

/-- **Inference respects the names that signatures bind**, as long as the old names and the new ones are met
nowhere else: not among the inferred names, not in the actual types and not in the definitions. -/
theorem inferArguments_renamed {π : Perm String} {ps : List TypeParam} {formals formals' actuals : List (Option Ty)}
    {r : Option Resolver} (hπ : Unmet π ps actuals r)
    (hformals : List.Forall₂ (Option.Rel (Ty.Renamed (typeParamNames ps) π)) formals formals')
    (htexts : ∀ f f' a, ((some f, some f'), some a) ∈ (formals.zip formals').zip actuals →
      TextsAgree (typeParamNames ps) r π f f' a) :
    inferArguments ps formals' actuals r = inferArguments ps formals actuals r := by
  rw [inferArguments, inferArguments,
    unifyAll_renamed hπ.inferred hπ.definitions hformals hπ.actuals htexts]

/-- `<T>(x: T) => U`. -/
def caught : Func := { tparams := [{ name := "T" }], params := [{ name := "x", type := .tvar "T" }], ret := some (.tvar "U") }

/-- `<V>(x: V) => U`. -/
def spared : Func := { tparams := [{ name := "V" }], params := [{ name := "x", type := .tvar "V" }], ret := some (.tvar "U") }

/-- `(x: Text) => number`. -/
def callback : Func := { params := [{ name := "x", type := .ref "Text" [] }], ret := some .number }

/-- `type Text = string`. -/
def textOnly : Resolver where
  expand
    | .ref x _ => .ok (if x = "Text" then some .string else none)
    | _ => .ok none
  isClass _ := false
  isSubclass _ _ := false
  bound _ := none

theorem textOnly_expand {t u : Ty} (h : textOnly.expand t = .ok (some u)) : t.isNamed = true ∧ u = .string := by
  cases t with
  | ref x args =>
      have heq := Except.ok.inj h
      split at heq
      · exact ⟨rfl, (Option.some.inj heq).symm⟩
      · cases heq
  | _ => cases h

theorem textOnly_blind (π : Perm String) : textOnly.Blind π where
  expand t := by
    cases t with
    | ref x args =>
        change Except.ok (if x = "Text" then some Ty.string else none) = Except.ok _
        split <;> rfl
    | _ => rfl
  bound v := rfl

/-- A matching that meets finitely many pairs, none of them with a union, is judged by their texts. -/
theorem textsAgree_of_forall_mem {params : List String} {r : Option Resolver} {π : Perm String} {f₀ f₀' a₀ : Ty}
    (L : List (Ty × Ty × Ty)) (hstart : (f₀, f₀', a₀) ∈ L)
    (hstep : ∀ f f' a g g' b, (f, f', a) ∈ L → Matches r f a g b → Matches r f' a g' b →
      Ty.Renamed params π g g' → (g, g', b) ∈ L)
    (hkeys : ∀ p ∈ L, ∀ q ∈ L,
      (comparisonKey p.1 p.2.2 = comparisonKey q.1 q.2.2 ↔ comparisonKey p.2.1 p.2.2 = comparisonKey q.2.1 q.2.2))
    (hunion : ∀ p ∈ L, p.1.isUnion = false) : TextsAgree params r π f₀ f₀' a₀ := by
  have hmatched : ∀ {f₁ f₁' a₁ f f' a : Ty}, Matched params r π f₁ f₁' a₁ f f' a → (f₁, f₁', a₁) ∈ L →
      (f, f', a) ∈ L := by
    intro f₁ f₁' a₁ f f' a h h₁
    induction h with
    | start => exact h₁
    | step _ hm hm' hrenamed ih => exact hstep _ _ _ _ _ _ ih hm hm' hrenamed
  refine ⟨fun f f' a g g' b hf hg => ?_, fun fs f' a c b hf _ _ _ => ?_⟩
  · have hfL := hmatched hf hstart
    exact hkeys _ hfL _ (hmatched hg hfL)
  · have hnone := hunion _ (hmatched hf hstart)
    cases hnone

/-- The pairs that are met where a list of callbacks is expected and given. -/
def metPairs : List (Ty × Ty × Ty) :=
  [(.array (.func caught), .array (.func spared), .array (.func callback)),
    (.func caught, .func spared, .func callback), (.tvar "U", .tvar "U", .number),
    (.tvar "T", .tvar "V", .ref "Text" []), (.tvar "T", .tvar "V", .string)]

/-- The texts met in the example agree under the swap of the binders. -/
theorem textsAgree_callbacks :
    TextsAgree ["U"] (some textOnly) (Equiv.swap "T" "V") (.array (.func caught)) (.array (.func spared))
      (.array (.func callback)) := by
  have hexpand : ∀ {r' : Resolver} {t u : Ty}, some textOnly = some r' → r'.expand t = .ok (some u) →
      t.isNamed = true ∧ u = .string := by
    rintro r' t u ⟨⟩ h
    exact textOnly_expand h
  have harray : ∀ {f a g b : Ty}, Matches (some textOnly) (.array f) (.array a) g b → g = f ∧ b = a := by
    intro f a g b h
    cases h with
    | array => exact ⟨rfl, rfl⟩
    | expandActual hr h => exact nomatch (hexpand hr h).1
    | expandFormal hr h => exact nomatch (hexpand hr h).1
  have hfunc : ∀ {x : Param} {ps : List TypeParam} {t g b : Ty},
      Matches (some textOnly) (.func ⟨ps, [x], some t⟩) (.func callback) g b →
      g = x.type ∧ b = .ref "Text" [] ∨ g = t ∧ b = .number := by
    intro x ps t g b h
    cases h with
    | param hp hq =>
        rw [List.mem_singleton.1 hp, List.mem_singleton.1 hq]
        exact Or.inl ⟨rfl, rfl⟩
    | ret hg hb => exact Or.inr ⟨(Option.some.inj hg).symm, (Option.some.inj hb).symm⟩
    | expandActual hr h => exact nomatch (hexpand hr h).1
    | expandFormal hr h => exact nomatch (hexpand hr h).1
  have hvar : ∀ {v : String} {a g b : Ty}, a.isUnion = false → Matches (some textOnly) (.tvar v) a g b →
      a.isNamed = true ∧ g = .tvar v ∧ b = .string := by
    intro v a g b ha h
    cases h with
    | unionActual => cases ha
    | expandActual hr h => exact ⟨(hexpand hr h).1, rfl, (hexpand hr h).2⟩
    | expandFormal hr h => exact nomatch (hexpand hr h).1
  refine textsAgree_of_forall_mem metPairs (.head _) ?_ (by decide) (by decide)
  intro f f' a g g' b hmem h h' hrenamed
  simp only [metPairs, List.mem_cons, List.not_mem_nil, or_false, Prod.mk.injEq] at hmem
  rcases hmem with ⟨rfl, rfl, rfl⟩ | ⟨rfl, rfl, rfl⟩ | ⟨rfl, rfl, rfl⟩ | ⟨rfl, rfl, rfl⟩ | ⟨rfl, rfl, rfl⟩
  · obtain ⟨rfl, rfl⟩ := harray h
    obtain ⟨rfl, -⟩ := harray h'
    exact .tail _ (.head _)
  · rcases hfunc h with ⟨rfl, rfl⟩ | ⟨rfl, rfl⟩ <;> rcases hfunc h' with ⟨rfl, hb⟩ | ⟨rfl, hb⟩
    · exact .tail _ (.tail _ (.tail _ (.head _)))
    · cases hb
    · cases hb
    · exact .tail _ (.tail _ (.head _))
  · cases (hvar rfl h).1
  · obtain ⟨-, rfl, rfl⟩ := hvar rfl h
    obtain ⟨-, rfl, -⟩ := hvar rfl h'
    exact .tail _ (.tail _ (.tail _ (.tail _ (.head _))))
  · cases (hvar rfl h).1

/-- A list of generic callbacks of another spelling gives the same arguments. -/
theorem inferArguments_renamed_callbacks :
    Unmet (Equiv.swap "T" "V") [{ name := "U" }] [some (.array (.func callback))] (some textOnly) ∧
      inferArguments [{ name := "U" }] [some (.array (.func spared))] [some (.array (.func callback))]
          (some textOnly) =
        inferArguments [{ name := "U" }] [some (.array (.func caught))] [some (.array (.func callback))]
          (some textOnly) := by
  have hunmet : Unmet (Equiv.swap "T" "V") [{ name := "U" }] [some (.array (.func callback))] (some textOnly) :=
    { inferred := by
        intro v hv
        rw [List.mem_singleton.1 hv]
        decide
      actuals := by
        intro a ha
        rw [Option.some.inj (List.mem_singleton.1 ha)]
        rfl
      definitions := by
        rintro r' ⟨⟩
        exact textOnly_blind _ }
  have hspared : (Ty.func caught).permute (Equiv.swap "T" "V") = .func spared := rfl
  refine ⟨hunmet, inferArguments_renamed hunmet ?_ ?_⟩
  · refine .cons (.some (.part .array ?_ rfl fun h => nomatch h)) .nil
    rw [← hspared]
    exact .whole _
  · intro f f' a h
    obtain ⟨⟨⟩, ⟨⟩⟩ := Prod.mk.inj (List.mem_singleton.1 h)
    exact textsAgree_callbacks

/-- The captured and the spared callback differ by the swap alone. -/
theorem renamedTo_caught : Ty.RenamedTo (Equiv.swap "T" "V") spared caught where
  names := rfl
  moves v hv hv' :=
    Equiv.swap_apply_of_ne_of_ne (by simpa [caught, typeParamNames] using hv')
      (by simpa [spared, typeParamNames] using hv)
  stands v hv := by
    cases hv with
    | child hu hown hv =>
        cases hu with
        | part hu =>
            cases hu with
            | param hp htype =>
                obtain rfl := List.mem_singleton.1 hp
                obtain rfl := htype
                exact absurd (by rw [Ty.stands_tvar_iff.1 hv]; exact .head _) hown
            | ret hr =>
                obtain rfl := Option.some.inj hr
                rw [Ty.stands_tvar_iff.1 hv]
                decide
        | constraint hp hc =>
            obtain rfl := List.mem_singleton.1 hp
            cases hc
        | default hp hd =>
            obtain rfl := List.mem_singleton.1 hp
            cases hd
  same := by decide

set_option maxRecDepth 20000 in
/-- **A name that is inferred and declared again takes notes that are not its own.**  The signature
`<V>(x: V) => U` is `<T>(x: T) => U` with its type parameter renamed, but only the latter gives the inferred
`T` an argument. -/
theorem inferArguments_shadowed :
    Ty.RenamedTo (Equiv.swap "T" "V") spared caught ∧
      inferArguments [{ name := "T" }, { name := "U" }] [some (.func caught)] [some (.func callback)] none =
        .ok ([("T", .ref "Text" []), ("U", .number)], .ok ()) ∧
      inferArguments [{ name := "T" }, { name := "U" }] [some (.func spared)] [some (.func callback)] none =
        .ok ([("T", .unknown), ("U", .number)], .ok ()) :=
  ⟨renamedTo_caught, rfl, rfl⟩

end TreeCheck
