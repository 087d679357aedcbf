import Mathlib.Algebra.Group.End
import TreeCheck.Proofs.Ty.Generic

/-!
# Permuting the names of type variables

A permutation of names may be applied throughout a type, to its variables and to the names that its
signatures declare.  Nothing that is computed from types tells the names apart, so normal forms,
substitution and equality all commute with it.  A substitution that puts variables in for variables does
the same as a permutation, where it neither meets a name that some signature declares nor moves one.

* `Ty.permute`, `Ty.permute_one`, `Ty.permute_mul` — an action of the permutations of names;
* `Ty.permute_unionWith`, `Ty.permute_interWith`, `Ty.permute_applyWith` — normal forms and substitution;
* `Ty.equal_permute` — equality;
* `Ty.Stands`, `Ty.Declares`, `Ty.Canonical.apply_eq_permute` — substitutions that are permutations;
  `Ty.Canonical.apply_eq_self` — substitutions that change nothing.
-/

namespace TreeCheck

open Equiv (Perm)

namespace Ty

/-! ### Every node -/

mutual
/-- The names of variables and of type parameters permuted throughout a type. -/
def permute (π : Perm String) : Ty → Ty
  | .prim p => .prim p
  | .lit l => .lit l
  | .array e => .array (permute π e)
  | .tuple es => .tuple (permuteList π es)
  | .object o => .object ⟨permuteMembers π o.members, permuteIndex π o.index⟩
  | .func f =>
    .func ⟨permuteTypeParams π f.tparams, permuteParams π f.params, permuteOption π f.ret⟩
  | .pred x t => .pred x (permute π t)
  | .union ts => .union (permuteList π ts)
  | .inter ts => .inter (permuteList π ts)
  | .ref x args => .ref x (permuteList π args)
  | .tvar v => .tvar (π v)
  | .classRef x => .classRef x

def permuteList (π : Perm String) : List Ty → List Ty
  | [] => []
  | t :: ts => permute π t :: permuteList π ts

def permuteOption (π : Perm String) : Option Ty → Option Ty
  | none => none
  | some t => some (permute π t)

def permuteMembers (π : Perm String) : List (MemberOf Ty) → List (MemberOf Ty)
  | [] => []
  | m :: ms => { m with type := permute π m.type } :: permuteMembers π ms

def permuteIndex (π : Perm String) : Option (IndexOf Ty) → Option (IndexOf Ty)
  | none => none
  | some i => some ⟨permute π i.key, permute π i.value⟩

def permuteTypeParams (π : Perm String) : List (TypeParamOf Ty) → List (TypeParamOf Ty)
  | [] => []
  | p :: ps => ⟨π p.name, permuteOption π p.constraint, permuteOption π p.default⟩ :: permuteTypeParams π ps

def permuteParams (π : Perm String) : List (ParamOf Ty) → List (ParamOf Ty)
  | [] => []
  | p :: ps => { p with type := permute π p.type } :: permuteParams π ps
end

variable (π σ : Perm String)

theorem permuteList_eq_map (ts : List Ty) : permuteList π ts = ts.map (permute π) := by
  induction ts with
  | nil => rfl
  | cons t ts ih => rw [permuteList, ih, List.map_cons]

/-- A permutation is applied node by node. -/
theorem permute_eq (t : Ty) : t.permute π = t.mapNode π (permute π) := by
  have hoption : ∀ t : Option Ty, permuteOption π t = t.map (permute π) := fun t => by cases t <;> rfl
  cases t with
  | prim p | lit l | tvar v | classRef x | array e | pred x e => rfl
  | tuple es | union ts | inter ts | ref x args => rw [permute, permuteList_eq_map, mapNode]
  | object o =>
      have hmembers : permuteMembers π o.members = o.members.map fun m => { m with type := permute π m.type } := by
        generalize o.members = ms
        induction ms with
        | nil => rfl
        | cons m ms ih => rw [permuteMembers, ih, List.map_cons]
      rw [permute, hmembers, mapNode, ObjectOf.mapTypes]
      cases o.index <;> rfl
  | func f =>
      have hparams : permuteParams π f.params = f.params.map fun p => { p with type := permute π p.type } := by
        generalize f.params = ps
        induction ps with
        | nil => rfl
        | cons p ps ih => rw [permuteParams, ih, List.map_cons]
      have htparams : permuteTypeParams π f.tparams = f.tparams.map fun p =>
          ⟨π p.name, p.constraint.map (permute π), p.default.map (permute π)⟩ := by
        generalize f.tparams = ps
        induction ps with
        | nil => rfl
        | cons p ps ih => rw [permuteTypeParams, ih, hoption, hoption, List.map_cons]
      rw [permute, hparams, htparams, hoption, mapNode, FuncOf.nameParams, FuncOf.mapChildren]
      simp [Function.comp_def]

mutual
theorem size_permute : ∀ t : Ty, (t.permute π).size = t.size
  | .prim _ | .lit _ | .tvar _ | .classRef _ => rfl
  | .array e => by rw [permute, size, size, size_permute e]
  | .pred _ t => by rw [permute, size, size, size_permute t]
  | .tuple es => by rw [permute, size, size, sizeList_permute es]
  | .union ts => by rw [permute, size, size, sizeList_permute ts]
  | .inter ts => by rw [permute, size, size, sizeList_permute ts]
  | .ref _ args => by rw [permute, size, size, sizeList_permute args]
  | .object ⟨members, index⟩ => by rw [permute, size, size, sizeMembers_permute members, sizeIndex_permute index]
  | .func ⟨tparams, params, ret⟩ => by
      rw [permute, size, size, sizeTypeParams_permute tparams, sizeParams_permute params, sizeOption_permute ret]

theorem sizeList_permute : ∀ ts : List Ty, sizeList (permuteList π ts) = sizeList ts
  | [] => rfl
  | t :: ts => by rw [permuteList, sizeList, sizeList, size_permute t, sizeList_permute ts]

theorem sizeOption_permute : ∀ t : Option Ty, sizeOption (permuteOption π t) = sizeOption t
  | none => rfl
  | some t => by rw [permuteOption, sizeOption, sizeOption, size_permute t]

theorem sizeMembers_permute : ∀ ms : List Member, sizeMembers (permuteMembers π ms) = sizeMembers ms
  | [] => rfl
  | ⟨_, t, _, _, _, _⟩ :: ms => by
      rw [permuteMembers, sizeMembers, sizeMembers, size_permute t, sizeMembers_permute ms]

theorem sizeIndex_permute : ∀ i : Option Index, sizeIndex (permuteIndex π i) = sizeIndex i
  | none => rfl
  | some ⟨k, v⟩ => by rw [permuteIndex, sizeIndex, sizeIndex, size_permute k, size_permute v]

theorem sizeTypeParams_permute : ∀ ps : List TypeParam, sizeTypeParams (permuteTypeParams π ps) = sizeTypeParams ps
  | [] => rfl
  | ⟨_, c, d⟩ :: ps => by
      rw [permuteTypeParams, sizeTypeParams, sizeTypeParams, sizeOption_permute c, sizeOption_permute d,
        sizeTypeParams_permute ps]

theorem sizeParams_permute : ∀ ps : List Param, sizeParams (permuteParams π ps) = sizeParams ps
  | [] => rfl
  | ⟨_, t, _, _⟩ :: ps => by rw [permuteParams, sizeParams, sizeParams, size_permute t, sizeParams_permute ps]
end

theorem permute_one (t : Ty) : t.permute 1 = t := by
  induction t using child_induction with
  | _ t ih =>
      rw [permute_eq, mapNode_congr (show ∀ u, Child u t → permute 1 u = id u from ih)]
      exact mapNode_id

theorem permute_mul (t : Ty) : t.permute (σ * π) = (t.permute π).permute σ := by
  induction t using child_induction with
  | _ t ih =>
      rw [permute_eq, permute_eq σ, permute_eq π, mapNode_mapNode, mapNode_congr ih]
      rfl

/-! ### Heads -/

section Heads

variable (t : Ty)

@[simp] theorem isUnknown_permute : (t.permute π).isUnknown = t.isUnknown := by cases t <;> rfl

@[simp] theorem isNever_permute : (t.permute π).isNever = t.isNever := by cases t <;> rfl

@[simp] theorem isObject_permute : (t.permute π).isObject = t.isObject := by cases t <;> rfl

@[simp] theorem isBoolLit_permute : (t.permute π).isBoolLit = t.isBoolLit := by cases t <;> rfl

end Heads

theorem permute_union (ts : List Ty) : (union ts).permute π = .union (ts.map (permute π)) := permute_eq π _

theorem permute_inter (ts : List Ty) : (inter ts).permute π = .inter (ts.map (permute π)) := permute_eq π _

theorem permute_object (o : Object) : (object o).permute π = .object (o.mapTypes (permute π)) := permute_eq π _

theorem permute_func (f : Func) :
    (func f).permute π = .func ((f.mapChildren (permute π)).nameParams π) := permute_eq π _

/-! ### Unions -/

theorem flat_permute (t : Ty) : (t.permute π).flat = t.flat.map (permute π) := by
  induction t using child_induction with
  | _ t ih =>
      cases t with
      | union ts =>
          rw [permute_union, flat, flat, flatList_eq_flatMap, flatList_eq_flatMap, List.flatMap_map,
            List.map_flatMap, List.flatMap_congr fun t ht => ih t (.part (.union ht))]
      | _ => rfl

theorem flatList_permute (ts : List Ty) : flatList (ts.map (permute π)) = (flatList ts).map (permute π) := by
  rw [flatList_eq_flatMap, flatList_eq_flatMap, List.flatMap_map, List.map_flatMap,
    List.flatMap_congr fun t _ => flat_permute π t]

@[simp] theorem hasPrim_permute (p : Prim) (ts : List Ty) :
    hasPrim p (ts.map (permute π)) = hasPrim p ts := by
  rw [hasPrim, hasPrim, List.any_map]
  refine congrArg ts.any (funext fun t => ?_)
  cases t <;> rfl

@[simp] theorem hasBool_permute (b : Bool) (ts : List Ty) :
    hasBool b (ts.map (permute π)) = hasBool b ts := by
  rw [hasBool, hasBool, List.any_map]
  refine congrArg ts.any (funext fun t => ?_)
  cases t <;> rfl

theorem absorbed_permute (ts : List Ty) (t : Ty) :
    absorbed (ts.map (permute π)) (t.permute π) = absorbed ts t := by
  cases t with
  | prim p => cases p <;> simp [permute, absorbed]
  | lit l => simp [permute, absorbed]
  | _ => rfl

theorem collapseBools_permute (ts : List Ty) :
    collapseBools (ts.map (permute π)) = (collapseBools ts).map (permute π) := by
  induction ts with
  | nil => rfl
  | cons t ts ih =>
      rw [List.map_cons, collapseBools, collapseBools, isBoolLit_permute, ih, List.filter_map]
      split
      · simp [Function.comp_def, permute]
      · rfl

theorem absorb_permute (ts : List Ty) : absorb (ts.map (permute π)) = (absorb ts).map (permute π) := by
  have hkept : (ts.map (permute π)).filter (!absorbed (ts.map (permute π)) ·) =
      (ts.filter (!absorbed ts ·)).map (permute π) := by
    rw [List.filter_map]
    simp [Function.comp_def, absorbed_permute]
  simp only [absorb, hkept, hasBool_permute, collapseBools_permute]
  split <;> rfl

theorem ofMembers_permute (ts : List Ty) : ofMembers (ts.map (permute π)) = (ofMembers ts).permute π := by
  match ts with
  | [] => rfl
  | [t] => rfl
  | t :: u :: us => exact (permute_union π (t :: u :: us)).symm

/-- The test does not tell names apart. -/
def Equivariant (eq : Ty → Ty → Bool) : Prop := ∀ a b, eq (a.permute π) (b.permute π) = eq a b

section Normal

variable {π} {eq : Ty → Ty → Bool} (heq : Equivariant π eq)

include heq

/-- A permutation of names drops the same repetitions. -/
private theorem foldl_distinct_permute (kept ts : List Ty) :
    (ts.map (permute π)).foldl (fun kept t => if kept.any (eq · t) then kept else kept ++ [t])
        (kept.map (permute π)) =
      (ts.foldl (fun kept t => if kept.any (eq · t) then kept else kept ++ [t]) kept).map (permute π) := by
  induction ts generalizing kept with
  | nil => rfl
  | cons t ts ih =>
      have hany : (kept.map (permute π)).any (eq · (t.permute π)) = kept.any (eq · t) := by
        rw [List.any_map]
        exact congrArg kept.any (funext fun a => heq a t)
      rw [List.map_cons, List.foldl_cons, List.foldl_cons, hany, ← ih]
      split <;> simp

theorem distinctWith_permute (ts : List Ty) :
    distinctWith eq (ts.map (permute π)) = (distinctWith eq ts).map (permute π) :=
  foldl_distinct_permute heq [] ts

/-- **Built unions** are permuted with what they are built from. -/
theorem permute_unionWith (ts : List Ty) :
    unionWith eq (ts.map (permute π)) = (unionWith eq ts).permute π := by
  have hany : (flatList (ts.map (permute π))).any Ty.isUnknown = (flatList ts).any Ty.isUnknown := by
    rw [flatList_permute, List.any_map]
    exact congrArg (flatList ts).any (funext fun t => isUnknown_permute π t)
  have hfilter : (flatList (ts.map (permute π))).filter (!isNever ·) =
      ((flatList ts).filter (!isNever ·)).map (permute π) := by
    rw [flatList_permute, List.filter_map]
    simp [Function.comp_def]
  simp only [unionWith]
  rw [hany, hfilter, distinctWith_permute heq, absorb_permute, ofMembers_permute]
  split <;> rfl

end Normal

/-! ### Intersections -/

theorem parts_permute (t : Ty) : (t.permute π).parts = t.parts.map (permute π) := by
  cases t with
  | inter ts => rw [permute_inter, parts, parts]
  | _ => rfl

theorem flatMap_parts_permute (ts : List Ty) :
    (ts.map (permute π)).flatMap parts = (ts.flatMap parts).map (permute π) := by
  rw [List.flatMap_map, List.map_flatMap, List.flatMap_congr fun t _ => parts_permute π t]

theorem objectsOf_permute (ts : List Ty) :
    objectsOf (ts.map (permute π)) = (objectsOf ts).map fun o => o.mapTypes (permute π) := by
  rw [objectsOf, objectsOf, List.filterMap_map, List.map_filterMap]
  refine List.filterMap_congr fun t _ => ?_
  cases t with
  | object o => rw [Function.comp_apply, permute_object]; rfl
  | _ => rfl

/-- It may be done before or after an insertion. -/
theorem insert_permute (o : Object) (m : Member) :
    (o.mapTypes (permute π)).insert { m with type := m.type.permute π } =
      (o.insert m).mapTypes (permute π) := by
  have hany : (o.mapTypes (permute π)).members.any (fun c => c.name == m.name) =
      o.members.any fun c => c.name == m.name := by
    simp [ObjectOf.mapTypes, List.any_map, Function.comp_def]
  unfold ObjectOf.insert
  simp only [hany]
  split
  · simp only [ObjectOf.mapTypes, List.map_map]
    congr 1
    refine List.map_congr_left fun c _ => ?_
    by_cases hc : c.name = m.name <;> simp [hc]
  · simp [ObjectOf.mapTypes]

section Meet

variable {π} {meet : Ty → Ty → Ty} (hmeet : ∀ a b, meet (a.permute π) (b.permute π) = (meet a b).permute π)

include hmeet

/-- It may be done before or after a member is merged. -/
theorem mergeMember_permute (o : Object) (m : Member) :
    mergeMember meet (o.mapTypes (permute π)) { m with type := m.type.permute π } =
      (mergeMember meet o m).mapTypes (permute π) := by
  unfold mergeMember
  simp only [find?_mapTypes]
  cases o.find? m.name with
  | none => exact insert_permute π o m
  | some e =>
      simp only [Option.map_some, hmeet]
      exact insert_permute π o
        { m with
          type := meet e.type m.type
          optional := e.optional && m.optional
          readonly := e.readonly || m.readonly }

/-- It may be done before or after two records are. -/
theorem mergeObject_permute (o p : Object) :
    mergeObject meet (o.mapTypes (permute π)) (p.mapTypes (permute π)) =
      (mergeObject meet o p).mapTypes (permute π) := by
  have hmembers : ∀ ms : List Member,
      (ms.map fun m => { m with type := m.type.permute π }).foldl (mergeMember meet) (o.mapTypes (permute π)) =
        (ms.foldl (mergeMember meet) o).mapTypes (permute π) := by
    intro ms
    induction ms generalizing o with
    | nil => rfl
    | cons m ms ih =>
        rw [List.map_cons, List.foldl_cons, List.foldl_cons, mergeMember_permute hmeet, ih]
  have hindex : ∀ i j : Option Index, (i.map fun i => (⟨i.key.permute π, i.value.permute π⟩ : Index)).or
      (j.map fun i => ⟨i.key.permute π, i.value.permute π⟩) =
        (i.or j).map fun i => ⟨i.key.permute π, i.value.permute π⟩ := by
    intro i j
    cases i <;> rfl
  unfold mergeObject
  rw [show (p.mapTypes (permute π)).members = p.members.map fun m => { m with type := m.type.permute π } from rfl,
    hmembers]
  simp only [ObjectOf.mapTypes, hindex]

/-- It may be done before or after a list of records is. -/
theorem mergeObjects_permute (os : List Object) :
    mergeObjects meet (os.map fun o => o.mapTypes (permute π)) =
      (mergeObjects meet os).map fun o => o.mapTypes (permute π) := by
  cases os with
  | nil => rfl
  | cons o os =>
      rw [List.map_cons, mergeObjects, mergeObjects, Option.map_some]
      refine congrArg some ?_
      induction os generalizing o with
      | nil => rfl
      | cons p ps ih => rw [List.map_cons, List.foldl_cons, List.foldl_cons, mergeObject_permute hmeet, ih]

end Meet

theorem ofParts_permute (ts : List Ty) : ofParts (ts.map (permute π)) = (ofParts ts).permute π := by
  match ts with
  | [] => rfl
  | [t] => rfl
  | t :: u :: us => exact (permute_inter π (t :: u :: us)).symm

section Test

variable {π} {eq : Ty → Ty → Bool} (heq : Equivariant π eq)

include heq

/-- **Built intersections** are permuted with what they are built from. -/
theorem permute_interWith (k : ℕ) (ts : List Ty) :
    interWith eq k (ts.map (permute π)) = (interWith eq k ts).permute π := by
  induction k generalizing ts with
  | zero => exact (permute_inter π ts).symm
  | succ k ih =>
      have hmeet : ∀ a b, interWith eq k [a.permute π, b.permute π] = (interWith eq k [a, b]).permute π :=
        fun a b => ih [a, b]
      have hany : ((ts.flatMap parts).map (permute π)).any isNever = (ts.flatMap parts).any isNever := by
        rw [List.any_map]
        exact congrArg (ts.flatMap parts).any (funext fun t => isNever_permute π t)
      have hfilter : ((ts.flatMap parts).map (permute π)).filter (fun t => !(t.isObject || t.isUnknown)) =
          ((ts.flatMap parts).filter fun t => !(t.isObject || t.isUnknown)).map (permute π) := by
        rw [List.filter_map]
        simp [Function.comp_def]
      have hmerged : ∀ o : Option Object, (o.map fun o => o.mapTypes (permute π)).toList.map Ty.object =
          (o.toList.map Ty.object).map (permute π) := by
        intro o
        cases o with
        | none => rfl
        | some o => simp [permute_object]
      simp only [interWith]
      rw [flatMap_parts_permute, hany, hfilter, objectsOf_permute, mergeObjects_permute hmeet,
        distinctWith_permute heq, hmerged, ← List.map_append, ofParts_permute]
      split <;> rfl

end Test

end Ty

/-! ### Substitution -/

/-- The names and the types of a substitution permuted. -/
def Subst.permute (π : Perm String) (s : Subst) : Subst := s.map fun b => (π b.1, b.2.permute π)

section Subst

variable (π : Perm String) (s : Subst)

theorem Subst.get?_permute (v : String) : (s.permute π).get? (π v) = (s.get? v).map (Ty.permute π) := by
  unfold permute get?
  induction s with
  | nil => rfl
  | cons b bs ih =>
      obtain ⟨k, t⟩ := b
      rw [List.map_cons, Assoc.get?, Assoc.get?, ih]
      by_cases hk : k = v <;> simp [hk]

theorem Subst.without_permute (ns : List String) :
    (s.permute π).without (ns.map π) = (s.without ns).permute π := by
  unfold permute without
  rw [List.filter_map]
  refine congrArg _ (List.filter_congr fun b _ => ?_)
  simp

end Subst

namespace Ty

variable {π : Perm String} {eq : Ty → Ty → Bool}

/-- **Substitution** is permuted with the type and with what is put in. -/
theorem permute_applyWith (heq : Equivariant π eq) (s : Subst) (t : Ty) :
    applyWith eq (s.permute π) (t.permute π) = (applyWith eq s t).permute π := by
  induction t using child_induction generalizing s with
  | _ t ih =>
      have hlist : ∀ {ts : List Ty}, (∀ u ∈ ts, Part u t) →
          (ts.map (permute π)).map (applyWith eq (s.permute π)) =
            (ts.map (applyWith eq s)).map (permute π) := by
        intro ts hts
        rw [List.map_map, List.map_map]
        exact List.map_congr_left fun u hu => ih u (.part (hts u hu)) s
      rcases t.keepsHead_or with hkeeps | ⟨v, rfl⟩ | ⟨ts, rfl⟩ | ⟨ts, rfl⟩
      · rw [permute_eq, applyWith_of_keepsHead eq _ (hkeeps.mapNode _ _), applyWith_of_keepsHead eq s hkeeps,
          permute_eq, mapNode_mapNode, mapNode_mapNode, declared_mapNode, Subst.without_permute]
        exact mapNode_congr fun u hu => ih u hu (s.without t.declared)
      · rw [permute, applyWith, applyWith, Subst.get?_permute]
        cases s.get? v <;> rfl
      · rw [permute_union, applyWith_union, applyWith_union, hlist fun t ht => .union ht,
          permute_unionWith heq]
      · have hsize : ∀ ts : List Ty, sizeList (ts.map (permute π)) = sizeList ts := fun ts => by
          rw [← permuteList_eq_map, sizeList_permute]
        rw [permute_inter, applyWith_inter, applyWith_inter, hlist fun t ht => .inter ht, hsize,
          permute_interWith heq]

/-! ### Equality -/

section Same

variable (heq : Equivariant π eq)

include heq

theorem sameList_permute (xs ys : List Ty) :
    sameList eq (xs.map (permute π)) (ys.map (permute π)) = sameList eq xs ys := by
  rw [sameList, sameList, List.zip_map, List.all_map, List.length_map, List.length_map]
  refine congrArg _ (congrArg (xs.zip ys).all (funext fun p => heq p.1 p.2))

theorem sameSet_permute (xs ys : List Ty) :
    sameSet eq (xs.map (permute π)) (ys.map (permute π)) = sameSet eq xs ys := by
  rw [sameSet, sameSet, List.all_map, List.length_map, List.length_map]
  refine congrArg _ (congrArg xs.all (funext fun x => ?_))
  rw [Function.comp_apply, List.any_map]
  exact congrArg ys.any (funext fun y => heq y x)

/-- Records are the same after it as before. -/
theorem sameObject_permute (a b : Object) :
    sameObject eq (a.mapTypes (permute π)) (b.mapTypes (permute π)) = sameObject eq a b := by
  have hindex : sameIndex eq (a.mapTypes (permute π)).index (b.mapTypes (permute π)).index =
      sameIndex eq a.index b.index := by
    unfold ObjectOf.mapTypes
    cases a.index <;> cases b.index <;> simp [sameIndex, heq _ _]
  unfold sameObject
  rw [hindex]
  simp only [find?_mapTypes]
  simp only [ObjectOf.mapTypes, List.length_map, List.all_map]
  refine congrArg (· && _) (congrArg _ (congrArg a.members.all (funext fun m => ?_)))
  simp only [Function.comp_apply]
  cases b.find? m.name with
  | none => rfl
  | some n => simp [heq _ _]

/-- Signatures without type parameters. -/
theorem sameFunc_permute_of_bare {f g : Func} (hf : f.tparams = []) (hg : g.tparams = []) :
    sameFunc eq (f.mapTypes (permute π)) (g.mapTypes (permute π)) = sameFunc eq f g := by
  have hresult : ∀ k : Func, (k.mapTypes (permute π)).result = k.result.permute π := fun k => by
    unfold FuncOf.mapTypes FuncOf.result
    cases k.ret <;> rfl
  rw [sameFunc_eq eq (show (f.mapTypes (permute π)).tparams = [] from hf)
    (show (g.mapTypes (permute π)).tparams = [] from hg), sameFunc_eq eq hf hg, hresult, hresult, heq]
  refine congrArg (· && _) ?_
  simp only [FuncOf.mapTypes, List.length_map, List.zip_map, List.all_map]
  exact congrArg _ (congrArg (f.params.zip g.params).all (funext fun p => by simp [heq _ _]))

omit heq in
theorem renameParams_permute (f g : Func) :
    renameParams ((f.mapChildren (permute π)).nameParams π) ((g.mapChildren (permute π)).nameParams π) =
      (renameParams f g).permute π := by
  simp [renameParams, Subst.permute, FuncOf.nameParams, FuncOf.mapChildren, List.zip_map, permute]

/-- So are functions. -/
theorem sameFunc_permute (f g : Func) :
    sameFunc eq ((f.mapChildren (permute π)).nameParams π) ((g.mapChildren (permute π)).nameParams π) =
      sameFunc eq f g := by
  have hbare : ∀ k : Func, ((k.mapChildren (permute π)).nameParams π).bare = k.bare.mapTypes (permute π) :=
    fun k => rfl
  have hrenamed : renamedFor eq ((f.mapChildren (permute π)).nameParams π)
      ((g.mapChildren (permute π)).nameParams π) = (renamedFor eq f g).mapTypes (permute π) := by
    have happly : g.bare.mapTypes (fun u => applyWith eq ((renameParams f g).permute π) (u.permute π)) =
        g.bare.mapTypes fun u => (applyWith eq (renameParams f g) u).permute π :=
      FuncOf.mapTypes_congr fun u _ => permute_applyWith heq _ u
    have hempty : ((f.mapChildren (permute π)).nameParams π).tparams.isEmpty = f.tparams.isEmpty := by
      simp [FuncOf.nameParams, FuncOf.mapChildren]
    unfold renamedFor
    rw [hempty, renameParams_permute, hbare]
    split
    · rfl
    · simpa [FuncOf.mapTypes, Function.comp_def] using happly
  rw [sameFunc_eq_bare, sameFunc_eq_bare eq f g, hrenamed, hbare,
    sameFunc_permute_of_bare heq rfl (by unfold renamedFor; split <;> rfl)]
  simp [FuncOf.nameParams, FuncOf.mapChildren]

/-- So are nodes. -/
theorem sameNode_permute (a b : Ty) : sameNode eq (a.permute π) (b.permute π) = sameNode eq a b := by
  rw [permute_eq, permute_eq π b]
  cases a with
  | prim p | lit l | classRef x => cases b <;> rfl
  | tvar v => cases b <;> simp [mapNode, sameNode]
  | array x => cases b <;> first | exact heq _ _ | rfl
  | pred x s => cases b <;> simp [mapNode, sameNode, heq _ _]
  | tuple xs => cases b <;> first | exact sameList_permute heq _ _ | rfl
  | ref x xs => cases b <;> simp [mapNode, sameNode, sameList_permute heq]
  | union xs => cases b <;> first | exact sameSet_permute heq _ _ | rfl
  | inter xs => cases b <;> first | exact sameSet_permute heq _ _ | rfl
  | object o => cases b <;> first | exact sameObject_permute heq _ _ | rfl
  | func f => cases b <;> first | exact sameFunc_permute heq _ _ | rfl

end Same

theorem equalUpTo_permute (n : ℕ) : Equivariant π (equalUpTo n) := by
  induction n with
  | zero => exact fun a b => rfl
  | succ n ih =>
      intro a b
      rw [equalUpTo_succ, equalUpTo_succ, sameNode_permute ih]

/-- **Equality does not tell names apart.** -/
theorem equal_permute (π : Perm String) (a b : Ty) : (a.permute π).equal (b.permute π) = a.equal b := by
  rw [equal, equal, depthBound, depthBound, size_permute, size_permute]
  exact equalUpTo_permute _ a b

theorem permute_unionOf (π : Perm String) (ts : List Ty) :
    unionOf (ts.map (permute π)) = (unionOf ts).permute π :=
  permute_unionWith (equal_permute π) ts

theorem permute_interOf (π : Perm String) (ts : List Ty) :
    interOf (ts.map (permute π)) = (interOf ts).permute π := by
  rw [interOf, ← permuteList_eq_map, sizeList_permute, permuteList_eq_map,
    permute_interWith (equal_permute π)]
  rfl

/-! ### Substitutions that are permutations -/

/-- The variable stands in the type, out of reach of the signatures that declare its name. -/
inductive Stands (v : String) : Ty → Prop
  | tvar : Stands v (.tvar v)
  | child {t u : Ty} : Child u t → v ∉ t.declared → Stands v u → Stands v t

/-- A signature in the type, or the type itself, declares the name. -/
inductive Declares (x : String) : Ty → Prop
  | own {t : Ty} : x ∈ t.declared → Declares x t
  | child {t u : Ty} : Child u t → Declares x u → Declares x t

theorem declared_permute (t : Ty) : (t.permute π).declared = t.declared.map π := by
  rw [permute_eq, declared_mapNode]

theorem stands_tvar_iff {v w : String} : Stands v (.tvar w) ↔ v = w := by
  constructor
  · intro h
    cases h with
    | tvar => rfl
    | child hu _ _ =>
        cases hu with
        | part hu => cases hu
  · rintro rfl
    exact .tvar

/-- Below anything but a signature, the same variables stand. -/
theorem Stands.of_child {v : String} {t u : Ty} (h : Stands v u) (hu : Child u t) (hfunc : ∀ f, t ≠ .func f) :
    Stands v t :=
  .child hu (by rw [declared_of_not_func hfunc]; exact List.not_mem_nil) h

/-- What is put in for a type parameter of `g`, where a permutation takes the names of `g` to those of
`f`. -/
theorem image_renameParams {f g : Func}
    (hnames : (typeParamNames g.tparams).map π = typeParamNames f.tparams) (v : String) :
    (renameParams f g).image v = .tvar (if v ∈ typeParamNames g.tparams then π v else v) := by
  rw [Subst.image, get?_renameParams, ← hnames]
  generalize typeParamNames g.tparams = ns
  induction ns with
  | nil => rfl
  | cons n ns ih =>
      rw [List.map_cons, List.zip_cons_cons, Assoc.get?]
      by_cases hn : n = v
      · simp [hn]
      · simpa [hn, Ne.symm hn] using ih

/-- Types in normal form stay so. -/
theorem Canonical.permute {t : Ty} (ht : t.Canonical) : (t.permute π).Canonical := by
  induction ht with
  | @intro t hhead _ ih =>
      refine .intro ?_ fun u hu => ?_
      · cases t with
        | union ts =>
            have hts : unionOf ts = .union ts := hhead
            rw [permute_union]
            change unionOf (ts.map (Ty.permute π)) = .union (ts.map (Ty.permute π))
            rw [permute_unionOf, hts, permute_union]
        | inter ts =>
            have hts : interOf ts = .inter ts := hhead
            rw [permute_inter]
            change interOf (ts.map (Ty.permute π)) = .inter (ts.map (Ty.permute π))
            rw [permute_interOf, hts, permute_inter]
        | object o =>
            rw [permute_object]
            change (o.mapTypes (Ty.permute π)).names.Nodup
            rw [names_mapTypes]
            exact hhead
        | _ => exact hhead
      · rw [permute_eq] at hu
        obtain ⟨v, hv, rfl⟩ := exists_child_of_mapNode hu
        exact ih v hv

/-- **A substitution is a permutation** on a type in normal form, if it puts in for each variable the one
that the permutation takes it to, and no signature declares a name that the permutation moves. -/
theorem Canonical.apply_eq_permute {s : Subst} {t : Ty} (ht : t.Canonical)
    (hstands : ∀ v, Stands v t → s.image v = .tvar (π v)) (hdeclares : ∀ x, Declares x t → π x = x) :
    t.apply s = t.permute π := by
  rw [apply]
  induction ht generalizing s with
  | @intro t hhead hchildren ih =>
      have hbelow : ∀ u, Child u t → applyWith equal (s.without t.declared) u = u.permute π := by
        refine fun u hu => ih u hu (fun v hv => ?_) fun x hx => hdeclares x (.child hu hx)
        rw [Subst.image_without]
        split
        · next hown => rw [hdeclares v (.own hown)]
        · next hown => exact hstands v (.child hu hown hv)
      have hlist : t.declared = [] → ∀ {ts : List Ty}, (∀ u ∈ ts, Part u t) →
          ts.map (applyWith equal s) = ts.map (Ty.permute π) := by
        intro hnone ts hts
        rw [hnone, Subst.without_nil] at hbelow
        exact List.map_congr_left fun u hu => hbelow u (.part (hts u hu))
      rcases t.keepsHead_or with hkeeps | ⟨v, rfl⟩ | ⟨ts, rfl⟩ | ⟨ts, rfl⟩
      · rw [applyWith_of_keepsHead equal s hkeeps, permute_eq, mapNode_congr hbelow]
        exact hkeeps.mapNode_congr_names fun x hx => (hdeclares x (.own hx)).symm
      · exact hstands v .tvar
      · rw [applyWith_union, hlist rfl fun t ht => .union ht, permute_unionWith (equal_permute π),
          show unionWith equal ts = .union ts from hhead]
      · have hsize : sizeList (ts.map (Ty.permute π)) = sizeList ts := by
          rw [← permuteList_eq_map, sizeList_permute]
        rw [applyWith_inter, hlist rfl fun t ht => .inter ht, hsize,
          permute_interWith (equal_permute π), show interWith equal (sizeList ts + 1) ts = .inter ts from hhead]

/-- **A substitution that puts in nothing new** leaves a type in normal form alone. -/
theorem Canonical.apply_eq_self {s : Subst} {t : Ty} (ht : t.Canonical)
    (hstands : ∀ v, Stands v t → s.image v = .tvar v) : t.apply s = t := by
  rw [ht.apply_eq_permute (π := 1) hstands fun x _ => rfl, permute_one]

end Ty

end TreeCheck
