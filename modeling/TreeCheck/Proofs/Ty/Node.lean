import TreeCheck.Proofs.Ty.Depth
import TreeCheck.Proofs.Ty.Rebuild

/-!
# Types node by node

Constraints and defaults of type parameters are types too, and what goes through all of a type goes
through them.  Here a type is taken as its head and what stands directly below it.

* `Ty.Child`, `Ty.child_induction` — what stands below a type, and induction along it;
* `Ty.mapNode` — a type with everything below its head replaced;
* `Ty.declared` — the names that hold below a signature;
* `Ty.Canonical` — the types that are in normal form at every node, generic signatures included;
* `Ty.KeepsHead`, `Ty.applyWith_of_keepsHead` — substitution replaces nodes where it does not put in or
  build anew.
-/

namespace TreeCheck

/-- The signature with every type replaced, those of its type parameters too. -/
def FuncOf.mapChildren (f : Ty → Ty) (g : Func) : Func :=
  ⟨g.tparams.map fun p => { p with constraint := p.constraint.map f, default := p.default.map f },
    g.params.map fun p => { p with type := f p.type }, g.ret.map f⟩

/-- The signature with its type parameters named anew. -/
def FuncOf.nameParams (g : String → String) (f : Func) : Func :=
  { f with tparams := f.tparams.map fun p => { p with name := g p.name } }

theorem Subst.without_nil (s : Subst) : s.without [] = s := by
  simp [without]

namespace Ty

/-! ### Children -/

/-- `u` stands directly below a type: as a part, or as the constraint or the default of a type
parameter. -/
inductive Child (u : Ty) : Ty → Prop
  | part {t : Ty} : Part u t → Child u t
  | constraint {f : Func} {p : TypeParam} : p ∈ f.tparams → p.constraint = some u → Child u (.func f)
  | default {f : Func} {p : TypeParam} : p ∈ f.tparams → p.default = some u → Child u (.func f)

/-- A type parameter of a list is no larger than the list. -/
theorem size_le_sizeTypeParams {ps : List TypeParam} {p : TypeParam} (h : p ∈ ps) :
    sizeOption p.constraint + sizeOption p.default ≤ sizeTypeParams ps := by
  induction ps with
  | nil => cases h
  | cons c cs ih =>
      rw [sizeTypeParams]
      rcases List.mem_cons.1 h with rfl | h
      · omega
      · have := ih h
        omega

theorem Child.size_lt {u t : Ty} (h : Child u t) : u.size < t.size := by
  cases h with
  | part h => exact h.size_lt
  | constraint hp hu | default hp hu =>
      have := size_le_sizeTypeParams hp
      simp only [hu, sizeOption, size] at this ⊢
      omega

/-- The children of a type that is no signature are its parts. -/
theorem Child.part_of_not_func {u t : Ty} (h : Child u t) (hfunc : ∀ f, t ≠ .func f) : Part u t := by
  cases h with
  | part h => exact h
  | constraint => exact absurd rfl (hfunc _)
  | default => exact absurd rfl (hfunc _)

/-- The children of a signature with its types replaced. -/
theorem exists_child_of_func {f : Ty → Ty} {g : Func} {u : Ty} (hu : Child u (.func (g.mapChildren f))) :
    ∃ v, Child v (.func g) ∧ f v = u := by
  cases hu with
  | part hu =>
      cases hu with
      | param hp htype =>
          obtain ⟨p, hp', rfl⟩ := List.mem_map.1 hp
          exact ⟨p.type, .part (.param hp' rfl), htype⟩
      | ret hret =>
          obtain ⟨r, hr, rfl⟩ := Option.map_eq_some_iff.1 hret
          exact ⟨r, .part (.ret hr), rfl⟩
  | constraint hp hu =>
      obtain ⟨p, hp', rfl⟩ := List.mem_map.1 hp
      obtain ⟨c, hc, rfl⟩ := Option.map_eq_some_iff.1 hu
      exact ⟨c, .constraint hp' hc, rfl⟩
  | default hp hu =>
      obtain ⟨p, hp', rfl⟩ := List.mem_map.1 hp
      obtain ⟨c, hc, rfl⟩ := Option.map_eq_some_iff.1 hu
      exact ⟨c, .default hp' hc, rfl⟩

/-- Maps that agree on the children of a function map it alike. -/
theorem mapChildren_congr {f g : Ty → Ty} {k : Func} (h : ∀ u, Child u (.func k) → f u = g u) :
    k.mapChildren f = k.mapChildren g := by
  have hoption : ∀ {o : Option Ty}, (∀ u, o = some u → f u = g u) → o.map f = o.map g :=
    fun h => Option.map_congr h
  have htparams : k.tparams.map (fun p => { p with constraint := p.constraint.map f, default := p.default.map f }) =
      k.tparams.map fun p => { p with constraint := p.constraint.map g, default := p.default.map g } :=
    List.map_congr_left fun p hp => by
      rw [hoption fun u hu => h u (.constraint hp hu), hoption fun u hu => h u (.default hp hu)]
  have hparams : k.params.map (fun p => { p with type := f p.type }) =
      k.params.map fun p => { p with type := g p.type } :=
    List.map_congr_left fun p hp => by rw [h p.type (.part (.param hp rfl))]
  rw [FuncOf.mapChildren, FuncOf.mapChildren, htparams, hparams, hoption fun r hr => h r (.part (.ret hr))]

theorem mapChildren_id (k : Func) : k.mapChildren id = k := by
  simp [FuncOf.mapChildren]

/-! ### One node -/

/-- The names of variables at the head replaced by `g`, and the children by `f`. -/
def mapNode (g : String → String) (f : Ty → Ty) : Ty → Ty
  | .array e => .array (f e)
  | .tuple es => .tuple (es.map f)
  | .object o => .object (o.mapTypes f)
  | .func k => .func ((k.mapChildren f).nameParams g)
  | .pred x t => .pred x (f t)
  | .union ts => .union (ts.map f)
  | .inter ts => .inter (ts.map f)
  | .ref x args => .ref x (args.map f)
  | .tvar v => .tvar (g v)
  | t => t

section Node

variable {f f' : Ty → Ty} {g g' : String → String} {t u : Ty}

/-- Maps that agree on the children of a node map it alike. -/
theorem mapNode_congr (h : ∀ u, Child u t → f u = f' u) : t.mapNode g f = t.mapNode g f' := by
  have hlist : ∀ {ts : List Ty}, (∀ u ∈ ts, Part u t) → ts.map f = ts.map f' := fun hts =>
    List.map_congr_left fun u hu => h u (.part (hts u hu))
  cases t with
  | prim p | lit l | tvar v | classRef x => rfl
  | array e => rw [mapNode, mapNode, h e (.part .array)]
  | pred x e => rw [mapNode, mapNode, h e (.part .pred)]
  | tuple es => rw [mapNode, mapNode, hlist fun e he => .tuple he]
  | union ts => rw [mapNode, mapNode, hlist fun t ht => .union ht]
  | inter ts => rw [mapNode, mapNode, hlist fun t ht => .inter ht]
  | ref x args => rw [mapNode, mapNode, hlist fun a ha => .arg ha]
  | object o => rw [mapNode, mapNode, ObjectOf.mapTypes_congr fun u hu => h u (.part hu)]
  | func k => rw [mapNode, mapNode, mapChildren_congr h]

theorem mapNode_id : t.mapNode id id = t := by
  cases t with
  | object o => rw [mapNode, ObjectOf.mapTypes_id]
  | func k => simp [mapNode, mapChildren_id, FuncOf.nameParams]
  | _ => simp [mapNode]

theorem mapNode_mapNode : (t.mapNode g f).mapNode g' f' = t.mapNode (g' ∘ g) (f' ∘ f) := by
  cases t with
  | object o => simp [mapNode, ObjectOf.mapTypes, Function.comp_def]
  | func k => simp [mapNode, FuncOf.mapChildren, FuncOf.nameParams, Function.comp_def]
  | _ => simp [mapNode]

/-- The children of a mapped node are mapped children. -/
theorem exists_child_of_mapNode (h : Child u (t.mapNode g f)) : ∃ v, Child v t ∧ f v = u := by
  cases t with
  | prim p | lit l | tvar v | classRef x =>
      cases h with
      | part h => cases h
  | object o =>
      obtain ⟨v, hv, rfl⟩ := exists_part_of_object (h.part_of_not_func (by simp [mapNode]))
      exact ⟨v, .part hv, rfl⟩
  | func k =>
      refine exists_child_of_func (f := f) (g := k) ?_
      cases h with
      | part h =>
          cases h with
          | param hp hu => exact .part (.param hp hu)
          | ret hr => exact .part (.ret hr)
      | constraint hp hu =>
          obtain ⟨p, hp', rfl⟩ := List.mem_map.1 hp
          exact .constraint hp' hu
      | default hp hu =>
          obtain ⟨p, hp', rfl⟩ := List.mem_map.1 hp
          exact .default hp' hu
  | array e | pred x e =>
      cases h with
      | part h =>
          cases h
          exact ⟨e, .part (by constructor), rfl⟩
  | tuple es | union ts | inter ts | ref x args =>
      cases h with
      | part h =>
          cases h
          rename_i hu
          obtain ⟨v, hv, rfl⟩ := List.mem_map.1 hu
          exact ⟨v, .part (by constructor; exact hv), rfl⟩

end Node

/-- What holds of a type if it holds of all its children holds of every type. -/
theorem child_induction {P : Ty → Prop} (h : ∀ t, (∀ u, Child u t → P u) → P t) (t : Ty) : P t := by
  induction hn : t.size using Nat.strong_induction_on generalizing t with
  | _ n ih =>
      subst hn
      exact h t fun u hu => ih u.size hu.size_lt u rfl

/-- The names that a type declares itself, for what stands below it. -/
def declared : Ty → List String
  | .func f => typeParamNames f.tparams
  | _ => []

theorem declared_of_not_func {t : Ty} (hfunc : ∀ f, t ≠ .func f) : t.declared = [] := by
  cases t with
  | func f => exact absurd rfl (hfunc f)
  | _ => rfl

theorem declared_mapNode (g : String → String) (f : Ty → Ty) (t : Ty) :
    (t.mapNode g f).declared = t.declared.map g := by
  cases t with
  | func k => simp [mapNode, declared, typeParamNames, FuncOf.nameParams, FuncOf.mapChildren]
  | _ => rfl

/-! ### Normal form -/

/-- What normal form asks of the head of a type that may be a generic signature. -/
def CanonicalHead : Ty → Prop
  | .func _ => True
  | t => t.NormalHead

/-- Types that are in normal form at every node. -/
inductive Canonical : Ty → Prop
  | intro {t : Ty} : t.CanonicalHead → (∀ u, Child u t → Canonical u) → Canonical t

theorem Canonical.head {t : Ty} (h : t.Canonical) : t.CanonicalHead := by
  cases h with
  | intro hhead _ => exact hhead

theorem Canonical.child {t u : Ty} (h : t.Canonical) (hu : Child u t) : u.Canonical := by
  cases h with
  | intro _ hchildren => exact hchildren u hu

theorem Canonical.part {t u : Ty} (h : t.Canonical) (hu : Part u t) : u.Canonical := h.child (.part hu)

theorem Canonical.tidy {t : Ty} (h : t.Canonical) : t.Tidy := by
  have hhead := h.head
  cases t with
  | union ts => exact (unionOf_eq_union_iff.1 hhead).1.distinct
  | inter ts => exact pairwise_of_interOf hhead
  | func f => trivial
  | _ => exact hhead

/-- Types in normal form without type parameters are in normal form. -/
theorem Normal.canonical {t : Ty} (h : t.Normal) : t.Canonical := by
  induction h with
  | @intro t hhead _ ih =>
      refine .intro ?_ fun u hu => ?_
      · cases t <;> first | exact hhead | trivial
      · cases hu with
        | part hu => exact ih u hu
        | constraint hp _ | default hp _ =>
            rw [show FuncOf.tparams _ = [] from hhead] at hp
            cases hp

theorem canonical_tvar (v : String) : Canonical (.tvar v) :=
  (Normal.intro (t := .tvar v) trivial fun _ hu => nomatch hu).canonical

/-- A function is canonical if its parameters, result and binders are. -/
theorem canonical_func {f : Func} (hparams : ∀ p ∈ f.params, p.type.Canonical)
    (hret : ∀ r, f.ret = some r → r.Canonical)
    (htparams : ∀ p ∈ f.tparams, (∀ c, p.constraint = some c → c.Canonical) ∧
      ∀ d, p.default = some d → d.Canonical) : Canonical (.func f) := by
  refine .intro trivial fun u hu => ?_
  cases hu with
  | part hu =>
      cases hu with
      | param hp hu => exact hu ▸ hparams _ hp
      | ret hr => exact hret u hr
  | constraint hp hu => exact (htparams _ hp).1 u hu
  | default hp hu => exact (htparams _ hp).2 u hu

/-- A record is canonical if its entries are and no name repeats. -/
theorem canonical_object {o : Object} (hnames : o.names.Nodup)
    (ho : Entries Canonical o) : Canonical (.object o) := by
  refine .intro hnames fun u hu => ?_
  cases hu with
  | part hu =>
      cases hu with
      | member hm hu => exact hu ▸ ho.members _ hm
      | key hi hu => exact hu ▸ ho.key _ hi
      | value hi hu => exact hu ▸ ho.value _ hi

/-! ### Substitution, node by node -/

/-- Substitution keeps the head of the type and goes on below it: nothing is put in for it, and it is no
union or intersection that is built anew. -/
def KeepsHead : Ty → Prop
  | .tvar _ => False
  | .union _ => False
  | .inter _ => False
  | _ => True

theorem keepsHead_or (t : Ty) :
    t.KeepsHead ∨ (∃ v, t = .tvar v) ∨ (∃ ts, t = .union ts) ∨ ∃ ts, t = .inter ts := by
  cases t <;> simp [KeepsHead]

section KeepsHead

variable {t : Ty} (ht : t.KeepsHead)

include ht

theorem KeepsHead.mapNode (g : String → String) (f : Ty → Ty) : (t.mapNode g f).KeepsHead := by
  cases t <;> trivial

theorem KeepsHead.isInter : t.isInter = false := by
  cases t with
  | inter ts => exact ht.elim
  | _ => rfl

/-- Only a signature names anything, at a head that is kept. -/
theorem KeepsHead.mapNode_congr_names {g g' : String → String} {f : Ty → Ty}
    (h : ∀ x ∈ t.declared, g x = g' x) : t.mapNode g f = t.mapNode g' f := by
  cases t with
  | tvar v => exact ht.elim
  | func k =>
      have hnames : (k.mapChildren f).nameParams g = (k.mapChildren f).nameParams g' := by
        rw [FuncOf.nameParams, FuncOf.nameParams]
        congr 1
        simp only [FuncOf.mapChildren, List.map_map]
        exact List.map_congr_left fun p hp => by simp [h p.name (List.mem_map_of_mem hp)]
      rw [Ty.mapNode, Ty.mapNode, hnames]
  | _ => rfl

end KeepsHead

section Nodes

variable (eq : Ty → Ty → Bool) (s : Subst)

theorem applyWith_union (ts : List Ty) :
    applyWith eq s (.union ts) = unionWith eq (ts.map (applyWith eq s)) := by
  rw [applyWith, applyListWith_eq_map]

theorem applyWith_inter (ts : List Ty) :
    applyWith eq s (.inter ts) =
      interWith eq (sizeList (ts.map (applyWith eq s)) + 1) (ts.map (applyWith eq s)) := by
  rw [applyWith, applyListWith_eq_map]

theorem applyOptionWith_eq_map (t : Option Ty) : applyOptionWith eq s t = t.map (applyWith eq s) := by
  cases t <;> rfl

theorem applyTypeParamsWith_eq_map (ps : List TypeParam) :
    applyTypeParamsWith eq s ps = ps.map fun p =>
      { p with constraint := p.constraint.map (applyWith eq s), default := p.default.map (applyWith eq s) } := by
  induction ps with
  | nil => rfl
  | cons p ps ih => rw [applyTypeParamsWith, ih, applyOptionWith_eq_map, applyOptionWith_eq_map, List.map_cons]

/-- **Substitution goes on below the head**, where the names that the type declares shadow bindings. -/
theorem applyWith_of_keepsHead {t : Ty} (ht : t.KeepsHead) :
    applyWith eq s t = t.mapNode id (applyWith eq (s.without t.declared)) := by
  cases t with
  | tvar v | union ts | inter ts => exact ht.elim
  | prim p | lit l | classRef x => rfl
  | array e | pred x e => rw [applyWith, mapNode, declared_of_not_func (by simp), s.without_nil]
  | tuple es | ref x args =>
      rw [applyWith, applyListWith_eq_map, mapNode, declared_of_not_func (by simp), s.without_nil]
  | object o =>
      rw [applyWith, applyMembersWith_eq_map, mapNode, declared_of_not_func (by simp), s.without_nil,
        ObjectOf.mapTypes]
      cases o.index <;> rfl
  | func f =>
      rw [applyWith, applyTypeParamsWith_eq_map, applyParamsWith_eq_map, applyOptionWith_eq_map, mapNode,
        FuncOf.nameParams, FuncOf.mapChildren]
      simp [declared, typeParamNames]

end Nodes

end Ty

end TreeCheck
