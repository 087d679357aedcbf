import TreeCheck.Env.Flatten
import TreeCheck.Proofs.Assign.Unions

/-!
# Names replaced throughout a type

Rebuilding a type with other types in place of its names builds its unions anew.  The result has no
names if what is put in has none, is equal for equal types, and has the head of the type unless that is
a name or a union.

* `Ty.Covers`, `Ty.equal_unionOf` — unions built from equal types are equal;
* `Ty.expandNames` — types in place of names;
* `Ty.nameless_expandNames`, `Ty.expandNames_of_nameless` — the result has no names, and types without
  names stay as they are;
* `Ty.Rebuilds`, `Ty.Rebuilds.equal` — functions that go to the parts of types, and that equal types stay
  equal under them;
* `Ty.equal_expandNames` — equal types stay equal when names are replaced.
-/

namespace TreeCheck

namespace Ty

/-! ### Equal unions -/

section Equal

/-- Each type of the second list is equal to one of the first. -/
def Covers (xs ys : List Ty) : Prop := ∀ y ∈ ys, ∃ x ∈ xs, x.equal y = true

/-- A list that covers another one has its primitive types. -/
theorem Covers.hasPrim {xs ys : List Ty} (h : Covers xs ys) {p : Prim} (hp : hasPrim p ys = true) :
    hasPrim p xs = true := by
  rw [hasPrim_iff] at hp ⊢
  obtain ⟨x, hx, heq⟩ := h _ hp
  rwa [equal_prim_right_iff.1 heq] at hx

/-- Only a truth value equals a truth value. -/
theorem eq_bool_of_equal {x : Ty} (hx : x.WellFormed) {b : Bool} (h : x.equal (.bool b) = true) :
    x = .bool b := by
  rw [equal_eq_sameNode hx (.lit (by simp))] at h
  cases x with
  | lit l =>
      cases l with
      | bool c => rw [beq_iff_eq.1 (show (c == b) = true from h)]
      | _ => cases h
  | _ => cases h

/-- What equals no truth value is none. -/
theorem isBoolLit_of_equal {x y : Ty} (hx : x.WellFormed) (hy : y.WellFormed)
    (h : x.equal y = true) (hlit : isBoolLit y = false) : isBoolLit x = false := by
  cases x with
  | lit l =>
      cases l with
      | bool b =>
          have heq := eq_bool_of_equal hy (equivOn_wellFormed.symm hx hy h)
          rw [heq] at hlit
          cases hlit
      | _ => rfl
  | _ => rfl

variable {xs ys : List Ty} (hx : ∀ x ∈ xs, x.WellFormed) (hy : ∀ y ∈ ys, y.WellFormed)
  (hxy : Covers xs ys) (hyx : Covers ys xs)

include hx hxy

theorem Covers.hasBool {b : Bool} (hb : hasBool b ys = true) : hasBool b xs = true := by
  rw [hasBool_iff] at hb ⊢
  obtain ⟨x, hmem, heq⟩ := hxy _ hb
  rwa [eq_bool_of_equal (hx x hmem) heq] at hmem

include hy hyx

/-- Equal types are covered alike. -/
theorem absorbed_of_equal {x y : Ty} (hmem : x ∈ xs) (hmem' : y ∈ ys) (h : x.equal y = true) :
    absorbed xs x = absorbed ys y := by
  have hprim : ∀ p, Ty.hasPrim p xs = Ty.hasPrim p ys := fun p => by
    rw [Bool.eq_iff_iff]
    exact ⟨hyx.hasPrim, hxy.hasPrim⟩
  rw [equal_eq_sameNode (hx x hmem) (hy y hmem')] at h
  cases x with
  | lit l =>
      obtain ⟨k, rfl, hsame⟩ := sameNode_lit_iff.1 h
      rw [absorbed, absorbed, hprim, hprim, Lit.prim_of_same hsame, Lit.isInteger_of_same hsame]
  | prim p =>
      obtain rfl := sameNode_prim_iff.1 h
      cases p <;> first | exact hprim _ | rfl
  | _ => cases y <;> first | rfl | cases h

/-- Lists with equal members keep equal members. -/
theorem Covers.absorb : Covers (Ty.absorb xs) (Ty.absorb ys) := by
  have hkept : Covers (xs.filter (!absorbed xs ·)) (ys.filter (!absorbed ys ·)) := by
    intro y hmem
    obtain ⟨hmem, hnot⟩ := List.mem_filter.1 hmem
    obtain ⟨x, hmem', heq⟩ := hxy y hmem
    exact ⟨x, List.mem_filter.2 ⟨hmem', by rwa [absorbed_of_equal hx hy hxy hyx hmem' hmem heq]⟩, heq⟩
  have hkept' : Covers (ys.filter (!absorbed ys ·)) (xs.filter (!absorbed xs ·)) := by
    intro x hmem
    obtain ⟨hmem, hnot⟩ := List.mem_filter.1 hmem
    obtain ⟨y, hmem', heq⟩ := hyx x hmem
    refine ⟨y, List.mem_filter.2 ⟨hmem', ?_⟩, heq⟩
    rwa [absorbed_of_equal hy hx hyx hxy hmem' hmem heq]
  have hwx : ∀ x ∈ xs.filter (!absorbed xs ·), x.WellFormed := fun x h =>
    hx x (List.mem_of_mem_filter h)
  have hwy : ∀ y ∈ ys.filter (!absorbed ys ·), y.WellFormed := fun y h =>
    hy y (List.mem_of_mem_filter h)
  have hbool : ∀ b, Ty.hasBool b (xs.filter (!absorbed xs ·)) =
      Ty.hasBool b (ys.filter (!absorbed ys ·)) := fun b => by
    rw [Bool.eq_iff_iff]
    exact ⟨Covers.hasBool hwy hkept', Covers.hasBool hwx hkept⟩
  simp only [Ty.absorb, hbool]
  split
  · rename_i hboth
    intro y hmem
    rcases mem_collapseBools hmem with hmem' | rfl
    · have hlit := isBoolLit_of_mem_collapseBools hmem
      obtain ⟨x, hmemx, heq⟩ := hkept y hmem'
      exact ⟨x, mem_collapseBools_of_not_isBoolLit hmemx
        (isBoolLit_of_equal (hwx x hmemx) (hwy y hmem') heq hlit), heq⟩
    · rw [← hbool, Bool.and_eq_true, hasBool_iff] at hboth
      exact ⟨.boolean, boolean_mem_collapseBools hboth.1, equal_prim_iff.2 rfl⟩
  · exact hkept

end Equal

section EqualUnions

variable {xs ys : List Ty} (hx : ∀ x ∈ xs, x.Normal) (hy : ∀ y ∈ ys, y.Normal)

include hx hy

/-- The members that are told apart are those of equal types. -/
theorem Covers.distinct (hxy : Covers xs ys) :
    Covers (distinctWith equal ((flatList xs).filter (!isNever ·)))
      (distinctWith equal ((flatList ys).filter (!isNever ·))) := by
  intro m hm
  have hm := (distinctWith_sublist _ _).subset hm
  obtain ⟨hflat, hnever⟩ := List.mem_filter.1 hm
  obtain ⟨y, hymem, hm'⟩ := (mem_flatList_iff hy).1 hflat
  obtain ⟨x, hxmem, heq⟩ := hxy y hymem
  have hback := equivOn_wellFormed.symm (hx x hxmem).wellFormed (hy y hymem).wellFormed heq
  obtain ⟨n, hn, hnm⟩ := counterpart_of_equal (hy y hymem).wellFormed (hx x hxmem).wellFormed hback m hm'
  have hnflat : n ∈ (flatList xs).filter (!isNever ·) := by
    refine List.mem_filter.2 ⟨(mem_flatList_iff hx).2 ⟨x, hxmem, hn⟩, ?_⟩
    rwa [isNever_of_equal hnm]
  obtain ⟨k, hk, rfl | hkn⟩ := exists_equal_of_mem equal hnflat
  · exact ⟨k, hk, hnm⟩
  · have hkflat := List.mem_of_mem_filter ((distinctWith_sublist _ _).subset hk)
    obtain ⟨z, hzmem, hkz⟩ := (mem_flatList_iff hx).1 hkflat
    exact ⟨k, hk, equivOn_wellFormed.trans ((hx z hzmem).of_mem_members hkz).wellFormed
      ((hx x hxmem).of_mem_members hn).wellFormed ((hy y hymem).of_mem_members hm').wellFormed hkn hnm⟩

/-- **Unions built from equal types are equal.** -/
theorem equal_unionOf (hxy : Covers xs ys) (hyx : Covers ys xs) :
    (unionOf xs).equal (unionOf ys) = true := by
  by_cases hunknown : .unknown ∈ xs
  · obtain ⟨y, hmem, heq⟩ := hyx _ hunknown
    rw [equal_prim_right_iff.1 heq] at hmem
    rw [unionOf_eq_unknown hunknown, unionOf_eq_unknown hmem]
    rfl
  have hunknown' : .unknown ∉ ys := fun hmem => by
    obtain ⟨x, hmem', heq⟩ := hxy _ hmem
    rw [equal_prim_right_iff.1 heq] at hmem'
    exact hunknown hmem'
  have hflatx := isUnknown_of_mem_flatList hx hunknown
  have hflaty := isUnknown_of_mem_flatList hy hunknown'
  have hlistx := unionList_unionMembers hflatx
  have hlisty := unionList_unionMembers hflaty
  have hnormal : ∀ {ts : List Ty}, (∀ t ∈ ts, t.Normal) →
      ∀ m ∈ distinctWith equal ((flatList ts).filter (!isNever ·)), m.WellFormed := by
    intro ts hts m hm
    have hflat := List.mem_of_mem_filter ((distinctWith_sublist _ _).subset hm)
    obtain ⟨t, ht, hm⟩ := (mem_flatList_iff hts).1 hflat
    exact ((hts t ht).of_mem_members hm).wellFormed
  have hwf : ∀ {ts : List Ty}, (∀ t ∈ ts, t.Normal) → ∀ m ∈ unionMembers ts, m.WellFormed := by
    intro ts hts m hm
    rcases mem_absorb hm with hm | rfl
    · exact hnormal hts m hm
    · exact .prim _
  have hcover := Covers.distinct hx hy hxy
  have hcover' := Covers.distinct hy hx hyx
  rw [unionOf_eq_ofMembers_unionMembers hflatx, unionOf_eq_ofMembers_unionMembers hflaty]
  exact equal_ofMembers (hwf hx) (hwf hy) hlistx.distinct hlisty.distinct
    (Covers.absorb (hnormal hy) (hnormal hx) hcover' hcover)
    (Covers.absorb (hnormal hx) (hnormal hy) hcover hcover')

end EqualUnions

/-! ### Rebuilding -/

section Rebuild

variable (f : Ty → Ty)

theorem rebuildListM_eq_map (ts : List Ty) :
    Id.run (rebuildListM (fun u => pure (f u)) ts) = ts.map (rebuild f) := by
  induction ts with
  | nil => rfl
  | cons t ts ih =>
      rw [List.map_cons, ← ih]
      rfl

theorem rebuildOptionM_eq_map (t : Option Ty) :
    Id.run (rebuildOptionM (fun u => pure (f u)) t) = t.map (rebuild f) := by
  cases t <;> rfl

theorem rebuildMembersM_eq_map (ms : List Member) :
    Id.run (rebuildMembersM (fun u => pure (f u)) ms) =
      ms.map fun m => { m with type := rebuild f m.type } := by
  induction ms with
  | nil => rfl
  | cons m ms ih =>
      rw [List.map_cons, ← ih]
      rfl

theorem rebuildIndexM_eq_map (i : Option Index) :
    Id.run (rebuildIndexM (fun u => pure (f u)) i) =
      i.map fun i => ⟨rebuild f i.key, rebuild f i.value⟩ := by
  cases i <;> rfl

theorem rebuildParamsM_eq_map (ps : List Param) :
    Id.run (rebuildParamsM (fun u => pure (f u)) ps) =
      ps.map fun p => { p with type := rebuild f p.type } := by
  induction ps with
  | nil => rfl
  | cons p ps ih =>
      rw [List.map_cons, ← ih]
      rfl

end Rebuild

/-! ### Types in place of names -/

/-- Put types in place of all names without arguments. -/
def expandNames (G : String → Ty) (t : Ty) : Ty :=
  t.rebuild fun
    | .ref x [] => G x
    | u => u

end Ty

def ObjectOf.mapTypes (f : Ty → Ty) (o : Object) : Object :=
  ⟨o.members.map fun m => { m with type := f m.type }, o.index.map fun i => ⟨f i.key, f i.value⟩⟩

/-- The signature with every type replaced but those of its type parameters. -/
def FuncOf.mapTypes (f : Ty → Ty) (g : Func) : Func :=
  ⟨g.tparams, g.params.map fun p => { p with type := f p.type }, g.ret.map f⟩

/-- Maps that agree on the parts of a record map it alike. -/
theorem ObjectOf.mapTypes_congr {f g : Ty → Ty} {o : Object}
    (h : ∀ u, Ty.Part u (.object o) → f u = g u) : o.mapTypes f = o.mapTypes g := by
  have hmembers : o.members.map (fun m => { m with type := f m.type }) =
      o.members.map fun m => { m with type := g m.type } :=
    List.map_congr_left fun m hm => by rw [h m.type (.member hm rfl)]
  have hindex : o.index.map (fun i => (⟨f i.key, f i.value⟩ : Index)) =
      o.index.map fun i => ⟨g i.key, g i.value⟩ :=
    Option.map_congr fun i hi => by rw [h i.key (.key hi rfl), h i.value (.value hi rfl)]
  rw [mapTypes, mapTypes, hmembers, hindex]

theorem ObjectOf.mapTypes_id (o : Object) : o.mapTypes id = o := by
  simp [mapTypes]

/-- Maps that agree on the parts of a function map it alike. -/
theorem FuncOf.mapTypes_congr {f g : Ty → Ty} {s : Func}
    (h : ∀ u, Ty.Part u (.func s) → f u = g u) : s.mapTypes f = s.mapTypes g := by
  have hparams : s.params.map (fun p => { p with type := f p.type }) =
      s.params.map fun p => { p with type := g p.type } :=
    List.map_congr_left fun p hp => by rw [h p.type (.param hp rfl)]
  have hret : s.ret.map f = s.ret.map g := Option.map_congr fun r hr => h r (.ret hr)
  rw [mapTypes, mapTypes, hparams, hret]

theorem FuncOf.mapTypes_id (s : Func) : s.mapTypes id = s := by
  simp [mapTypes]

namespace Ty

@[simp] theorem names_mapTypes (f : Ty → Ty) (o : Object) : (o.mapTypes f).names = o.names := by
  simp [ObjectOf.names, ObjectOf.mapTypes, Function.comp_def]

/-- The parts of a record with its types replaced. -/
theorem exists_part_of_object {f : Ty → Ty} {o : Object} {u : Ty} (hu : Part u (.object (o.mapTypes f))) :
    ∃ v, Part v (.object o) ∧ f v = u := by
  cases hu with
  | member hm htype =>
      obtain ⟨m, hm', rfl⟩ := List.mem_map.1 hm
      exact ⟨m.type, .member hm' rfl, htype⟩
  | key hi htype =>
      obtain ⟨i, hi', rfl⟩ := Option.map_eq_some_iff.1 hi
      exact ⟨i.key, .key hi' rfl, htype⟩
  | value hi htype =>
      obtain ⟨i, hi', rfl⟩ := Option.map_eq_some_iff.1 hi
      exact ⟨i.value, .value hi' rfl, htype⟩

/-- The parts of a signature with its types replaced. -/
theorem exists_part_of_func {f : Ty → Ty} {g : Func} {u : Ty} (hu : Part u (.func (g.mapTypes f))) :
    ∃ v, Part v (.func g) ∧ f v = u := by
  cases hu with
  | param hp htype =>
      obtain ⟨p, hp', rfl⟩ := List.mem_map.1 hp
      exact ⟨p.type, .param hp' rfl, htype⟩
  | ret hret =>
      obtain ⟨r, hr, rfl⟩ := Option.map_eq_some_iff.1 hret
      exact ⟨r, .ret hr, rfl⟩

/-- A record of regular types keeps its names. -/
theorem regular_object_mapTypes {Q : String → Prop} {f : Ty → Ty} {o : Object} (ho : o.names.Nodup)
    (h : ∀ u, Part u (.object o) → Regular Q (f u)) : Regular Q (.object (o.mapTypes f)) := by
  refine .intro (show (o.mapTypes f).names.Nodup by rwa [names_mapTypes]) trivial fun u hu => ?_
  obtain ⟨v, hv, rfl⟩ := exists_part_of_object hu
  exact h v hv

/-- A mapped function is regular if its mapped parts are. -/
theorem regular_func_mapTypes {Q : String → Prop} {f : Ty → Ty} {g : Func} (hg : g.tparams = [])
    (h : ∀ u, Part u (.func g) → Regular Q (f u)) : Regular Q (.func (g.mapTypes f)) := by
  refine .intro hg trivial fun u hu => ?_
  obtain ⟨v, hv, rfl⟩ := exists_part_of_func hu
  exact h v hv

section Heads

variable (G : String → Ty)

@[simp] theorem expandNames_prim (p : Prim) : expandNames G (.prim p) = .prim p := rfl

@[simp] theorem expandNames_lit (l : Lit) : expandNames G (.lit l) = .lit l := rfl

@[simp] theorem expandNames_tvar (v : String) : expandNames G (.tvar v) = .tvar v := rfl

@[simp] theorem expandNames_ref (x : String) : expandNames G (.ref x []) = G x := rfl

@[simp] theorem expandNames_array (e : Ty) :
    expandNames G (.array e) = .array (expandNames G e) := rfl

@[simp] theorem expandNames_pred (x : String) (t : Ty) :
    expandNames G (.pred x t) = .pred x (expandNames G t) := rfl

@[simp] theorem expandNames_tuple (es : List Ty) :
    expandNames G (.tuple es) = .tuple (es.map (expandNames G)) := by
  unfold expandNames
  rw [← rebuildListM_eq_map]
  rfl

@[simp] theorem expandNames_object (o : Object) :
    expandNames G (.object o) = .object (o.mapTypes (expandNames G)) := by
  unfold expandNames ObjectOf.mapTypes
  rw [← rebuildMembersM_eq_map, ← rebuildIndexM_eq_map]
  rfl

@[simp] theorem expandNames_func (g : Func) :
    expandNames G (.func g) = .func (g.mapTypes (expandNames G)) := by
  unfold expandNames FuncOf.mapTypes
  rw [← rebuildParamsM_eq_map, ← rebuildOptionM_eq_map]
  rfl

variable {G}

/-- A union is built anew. -/
theorem expandNames_union {ts : List Ty} (h : ∀ t ∈ ts, (expandNames G t).Nameless) :
    expandNames G (.union ts) = unionOf (ts.map (expandNames G)) := by
  have hregular : (unionOf (ts.map (expandNames G))).Nameless := regular_unionOf (by simpa using h)
  have hrebuild : expandNames G (.union ts) = (match unionOf (ts.map (expandNames G)) with
      | .ref x [] => G x
      | u => u) := by
    unfold expandNames
    rw [← rebuildListM_eq_map]
    rfl
  rw [hrebuild]
  split
  · rename_i x heq
    rw [heq] at hregular
    exact hregular.head.1.elim
  · rfl

end Heads

/-- **The result has no names** if what is put in has none. -/
theorem nameless_expandNames {Q : String → Prop} {G : String → Ty} (hG : ∀ x, Q x → (G x).Nameless)
    {t : Ty} (ht : Regular Q t) : (expandNames G t).Nameless := by
  induction ht with
  | @intro t hnormal hhead _ ih =>
      cases t with
      | prim p => exact regular_prim p
      | lit l => exact regular_lit hnormal
      | tvar v => exact regular_tvar v
      | ref x args =>
          obtain ⟨hx, rfl⟩ := hhead
          exact hG x hx
      | inter ts => exact hhead.elim
      | classRef x => exact hhead.elim
      | array e => exact regular_array (ih _ .array)
      | pred x u => exact regular_pred x (ih _ .pred)
      | tuple es =>
          rw [expandNames_tuple]
          exact regular_tuple (List.forall_mem_map.2 fun e he => ih e (.tuple he))
      | union ts =>
          rw [expandNames_union fun t h => ih _ (.union h)]
          exact regular_unionOf (List.forall_mem_map.2 fun t h => ih t (.union h))
      | object o =>
          rw [expandNames_object]
          exact regular_object_mapTypes hnormal ih
      | func g =>
          rw [expandNames_func]
          exact regular_func_mapTypes hnormal ih

/-- What is put in matters only for the names that occur. -/
theorem expandNames_congr {Q : String → Prop} {G H : String → Ty} (hG : ∀ x, Q x → (G x).Nameless)
    (hGH : ∀ x, Q x → G x = H x) {t : Ty} (ht : Regular Q t) : expandNames G t = expandNames H t := by
  have hH : ∀ x, Q x → (H x).Nameless := fun x hx => hGH x hx ▸ hG x hx
  induction ht with
  | @intro t hnormal hhead hparts ih =>
      cases t with
      | prim p | lit l | tvar v => rfl
      | ref x args =>
          obtain ⟨hx, rfl⟩ := hhead
          exact hGH x hx
      | inter ts => exact hhead.elim
      | classRef x => exact hhead.elim
      | array e => rw [expandNames_array, expandNames_array, ih e .array]
      | pred x u => rw [expandNames_pred, expandNames_pred, ih u .pred]
      | tuple es =>
          rw [expandNames_tuple, expandNames_tuple, List.map_congr_left fun e he => ih e (.tuple he)]
      | union ts =>
          rw [expandNames_union fun t h => nameless_expandNames hG (hparts t (.union h)),
            expandNames_union fun t h => nameless_expandNames hH (hparts t (.union h)),
            List.map_congr_left fun t h => ih t (.union h)]
      | object o => rw [expandNames_object, expandNames_object, ObjectOf.mapTypes_congr ih]
      | func g => rw [expandNames_func, expandNames_func, FuncOf.mapTypes_congr ih]

/-- Types without names stay as they are. -/
theorem expandNames_of_nameless {G : String → Ty} {t : Ty} (ht : t.Nameless) : expandNames G t = t := by
  induction ht with
  | @intro t hnormal hhead hparts ih =>
      have hmap : ∀ {ts : List Ty}, (∀ t' ∈ ts, Part t' t) → ts.map (expandNames G) = ts := fun h =>
        (List.map_congr_left fun t' ht' => ih t' (h t' ht')).trans (List.map_id' _)
      cases t with
      | prim p | lit l | tvar v => rfl
      | ref x args => exact hhead.1.elim
      | inter ts => exact hhead.elim
      | classRef x => exact hhead.elim
      | array e => rw [expandNames_array, ih e .array]
      | pred x u => rw [expandNames_pred, ih u .pred]
      | tuple es => rw [expandNames_tuple, hmap fun e he => .tuple he]
      | union ts =>
          rw [expandNames_union fun t h => (ih t (.union h)).symm ▸ hparts t (.union h),
            hmap fun t h => .union h]
          exact hnormal
      | object o =>
          rw [expandNames_object, ObjectOf.mapTypes_congr (g := id) ih, ObjectOf.mapTypes_id]
      | func g => rw [expandNames_func, FuncOf.mapTypes_congr (g := id) ih, FuncOf.mapTypes_id]

/-- A relation of lists entry by entry may be weakened on their entries. -/
theorem forall₂_imp_of_mem {α β : Type} {R R' : α → β → Prop} {xs : List α} {ys : List β}
    (h : List.Forall₂ R xs ys) (hR : ∀ a ∈ xs, ∀ b ∈ ys, R a b → R' a b) :
    List.Forall₂ R' xs ys := by
  rw [List.forall₂_iff_zip] at h ⊢
  exact ⟨h.1, fun hab => hR _ (List.of_mem_zip hab).1 _ (List.of_mem_zip hab).2 (h.2 hab)⟩

/-- Mapped options are related if the mapped values are. -/
theorem rel_map_of_eq_some {α β γ δ : Type} {R : α → β → Prop} {R' : γ → δ → Prop} {f : α → γ}
    {g : β → δ} {a : Option α} {b : Option β} (h : Option.Rel R a b)
    (hR : ∀ x y, a = some x → b = some y → R x y → R' (f x) (g y)) :
    Option.Rel R' (a.map f) (b.map g) := by
  cases h with
  | none => exact .none
  | some h => exact .some (hR _ _ rfl rfl h)

theorem Regular.result {Q : String → Prop} {g : Func} (h : Regular Q (.func g)) : Regular Q g.result := by
  cases hret : g.ret with
  | none =>
      rw [FuncOf.result, hret]
      exact regular_prim _
  | some t =>
      rw [FuncOf.result, hret]
      exact h.part (.ret hret)

theorem find?_mapTypes (f : Ty → Ty) (o : Object) (x : String) :
    (o.mapTypes f).find? x = (o.find? x).map fun m => { m with type := f m.type } := by
  simp only [ObjectOf.mapTypes, ObjectOf.find?, List.find?_map]
  rfl

/-! ### Equal types stay equal -/

/-- The function keeps the heads of types and goes to their parts.  Of variables, names, unions and
intersections nothing is said. -/
structure Rebuilds (f : Ty → Ty) : Prop where
  prim (p : Prim) : f (.prim p) = .prim p
  lit (l : Lit) : f (.lit l) = .lit l
  array (e : Ty) : f (.array e) = .array (f e)
  pred (x : String) (t : Ty) : f (.pred x t) = .pred x (f t)
  tuple (es : List Ty) : f (.tuple es) = .tuple (es.map f)
  object (o : Object) : f (.object o) = .object (o.mapTypes f)
  func {g : Func} : g.tparams = [] → f (.func g) = .func (g.mapTypes f)

theorem Rebuilds.result {f : Ty → Ty} (hf : Rebuilds f) (g : Func) :
    (g.mapTypes f).result = f g.result := by
  simp only [FuncOf.mapTypes, FuncOf.result]
  cases g.ret with
  | none => exact (hf.prim .void).symm
  | some r => rfl

/-- Results become equal if written ones do: a missing result is `void`, and nothing else is equal to it. -/
theorem equal_result {f g : Ty → Ty} {a b : Func} (hvoid : (f .void).equal (g .void) = true)
    (h : ∀ {r r' : Ty}, a.ret = some r → b.ret = some r' → r.equal r' = true → (f r).equal (g r') = true)
    (hresult : a.result.equal b.result = true) : (f a.result).equal (g b.result) = true := by
  have hnone : ∀ {k : Func}, k.ret = none → k.result = .void := fun hk => by rw [FuncOf.result, hk]; rfl
  have hsome : ∀ {k : Func} {r : Ty}, k.ret = some r → k.result = r := fun hk => by
    rw [FuncOf.result, hk]
    rfl
  cases ha : a.ret with
  | none =>
      rw [hnone ha] at hresult ⊢
      rwa [equal_prim_iff.1 hresult]
  | some r =>
      cases hb : b.ret with
      | none =>
          rw [hnone hb] at hresult ⊢
          rwa [equal_prim_right_iff.1 hresult]
      | some r' =>
          rw [hsome ha, hsome hb] at hresult ⊢
          exact h ha hb hresult

/-- **Equal types become equal** under two functions that go to the parts, if that holds of variables,
names and unions, given that it holds of their parts. -/
theorem Rebuilds.equal {P : Ty → Prop} {f g : Ty → Ty} (hf : Rebuilds f) (hg : Rebuilds g)
    (hP : ∀ {t : Ty}, P t → t.Normal) (hpart : ∀ {t u : Ty}, P t → Part u t → P u)
    (hfP : ∀ {t : Ty}, P t → (f t).Normal) (hgP : ∀ {t : Ty}, P t → (g t).Normal)
    (hinter : ∀ ts, ¬ P (.inter ts))
    (htvar : ∀ v, P (.tvar v) → (f (.tvar v)).equal (g (.tvar v)) = true)
    (hclass : ∀ x, P (.classRef x) → (f (.classRef x)).equal (g (.classRef x)) = true)
    (href : ∀ {x : String} {xs ys : List Ty}, P (.ref x xs) → P (.ref x ys) →
      List.Forall₂ (fun a b => (f a).equal (g b) = true) xs ys →
      (f (.ref x xs)).equal (g (.ref x ys)) = true)
    (hunion : ∀ {ts us : List Ty}, P (.union ts) → P (.union us) → Covers (ts.map f) (us.map g) →
      Covers (us.map g) (ts.map f) → (f (.union ts)).equal (g (.union us)) = true)
    {s d : Ty} (hs : P s) (hd : P d) (h : s.equal d = true) : (f s).equal (g d) = true := by
  induction hn : s.size using Nat.strong_induction_on generalizing s d with
  | _ n ih =>
      subst hn
      have ih : ∀ {u v : Ty}, Part u s → Part v d → u.equal v = true → (f u).equal (g v) = true :=
        fun hu hv heq => ih _ hu.size_lt (hpart hs hu) (hpart hd hv) heq rfl
      have hnodes := h
      rw [equal_eq_sameNode (hP hs).wellFormed (hP hd).wellFormed] at hnodes
      -- the union apart, both sides keep their heads
      have hnode : sameNode Ty.equal (f s) (g d) = true → (f s).equal (g d) = true := fun h => by
        rwa [equal_eq_sameNode (hfP hs).wellFormed (hgP hd).wellFormed]
      cases s with
      | prim p =>
          obtain rfl := sameNode_prim_iff.1 hnodes
          rw [hf.prim, hg.prim]
          exact equivOn_wellFormed.refl (.prim p)
      | tvar v =>
          obtain rfl := sameNode_tvar_iff.1 hnodes
          exact htvar v hs
      | classRef x =>
          obtain rfl := sameNode_classRef_iff.1 hnodes
          exact hclass x hs
      | lit l =>
          obtain ⟨k, rfl, hsame⟩ := sameNode_lit_iff.1 hnodes
          rwa [hf.lit, hg.lit]
      | ref x args =>
          obtain ⟨ys, rfl, hargs⟩ := sameNode_ref_iff.1 hnodes
          exact href hs hd (forall₂_imp_of_mem (sameList_iff.1 hargs) fun a ha b hb hab =>
            ih (.arg ha) (.arg hb) hab)
      | inter ts => exact absurd hs (hinter ts)
      | array e =>
          obtain ⟨e', rfl, heq⟩ := sameNode_array_iff.1 hnodes
          rw [hf.array, hg.array] at hnode ⊢
          exact hnode (ih .array .array heq)
      | pred x t =>
          obtain ⟨t', rfl, heq⟩ := sameNode_pred_iff.1 hnodes
          rw [hf.pred, hg.pred] at hnode ⊢
          exact hnode (sameNode_pred_iff.2 ⟨_, rfl, ih .pred .pred heq⟩)
      | tuple es =>
          obtain ⟨es', rfl, heq⟩ := sameNode_tuple_iff.1 hnodes
          rw [hf.tuple, hg.tuple] at hnode ⊢
          refine hnode (sameNode_tuple_iff.2 ⟨_, rfl, sameList_iff.2
            (List.forall₂_map_left_iff.2 (List.forall₂_map_right_iff.2 ?_))⟩)
          exact forall₂_imp_of_mem (sameList_iff.1 heq) fun a ha b hb hab => ih (.tuple ha) (.tuple hb) hab
      | union ts =>
          obtain ⟨us, rfl, hset⟩ := sameNode_union_iff.1 hnodes
          obtain ⟨hleft, hright⟩ := counterparts_of_sameSet
            (fun t ht => (hP (hpart hs (.union ht))).wellFormed)
            (fun u hu => (hP (hpart hd (.union hu))).wellFormed)
            (unionOf_eq_union_iff.1 (hP hs).head).1.distinct hset
          refine hunion hs hd ?_ ?_
          · intro y hy
            obtain ⟨u, hu, rfl⟩ := List.mem_map.1 hy
            obtain ⟨t, ht, htu⟩ := hright u hu
            exact ⟨_, List.mem_map_of_mem ht, ih (.union ht) (.union hu) htu⟩
          · intro x hx
            obtain ⟨t, ht, rfl⟩ := List.mem_map.1 hx
            obtain ⟨u, hu, htu⟩ := hleft t ht
            exact ⟨_, List.mem_map_of_mem hu, equivOn_wellFormed.symm (hfP (hpart hs (.union ht))).wellFormed
              (hgP (hpart hd (.union hu))).wellFormed (ih (.union ht) (.union hu) htu)⟩
      | object o =>
          obtain ⟨o', rfl, heq⟩ := sameNode_object_iff.1 hnodes
          obtain ⟨hmembers, hindex⟩ := (sameObject_iff (hP hs).head (hP hd).head).1 heq
          have hnames := (hfP hs).head
          have hnames' := (hgP hd).head
          rw [hf.object] at hnames
          rw [hg.object] at hnames'
          rw [hf.object, hg.object] at hnode ⊢
          refine hnode (sameNode_object_iff.2 ⟨_, rfl, (sameObject_iff hnames hnames').2 ⟨fun x => ?_, ?_⟩⟩)
          · rw [find?_mapTypes, find?_mapTypes]
            refine rel_map_of_eq_some (hmembers x) fun m n hm hn hmn => ?_
            exact ⟨hmn.optional, hmn.readonly, hmn.static, hmn.method,
              ih (.member (ObjectOf.mem_of_find? hm).1 rfl) (.member (ObjectOf.mem_of_find? hn).1 rfl)
                hmn.type⟩
          · refine rel_map_of_eq_some hindex fun i j hi hj hij => ?_
            exact ⟨ih (.key hi rfl) (.key hj rfl) hij.1, ih (.value hi rfl) (.value hj rfl) hij.2⟩
      | func k =>
          obtain ⟨k', rfl, heq⟩ := sameNode_func_iff.1 hnodes
          have hk : k.tparams = [] := (hP hs).head
          have hk' : k'.tparams = [] := (hP hd).head
          obtain ⟨hparams, hresult⟩ := (sameFunc_iff hk hk').1 heq
          rw [hf.func hk, hg.func hk'] at hnode ⊢
          refine hnode (sameNode_func_iff.2 ⟨_, rfl,
            (sameFunc_iff (show (k.mapTypes f).tparams = [] from hk)
              (show (k'.mapTypes g).tparams = [] from hk')).2 ⟨?_, ?_⟩⟩)
          · refine List.forall₂_map_left_iff.2 (List.forall₂_map_right_iff.2 ?_)
            exact forall₂_imp_of_mem hparams fun p hp q hq hpq =>
              ⟨hpq.optional, hpq.rest, ih (.param hp rfl) (.param hq rfl) hpq.type⟩
          · rw [hf.result, hg.result]
            exact equal_result (by rw [hf.prim, hg.prim]; exact equivOn_wellFormed.refl (.prim _))
              (fun hr hr' => ih (.ret hr) (.ret hr')) hresult

theorem rebuilds_expandNames (G : String → Ty) : Rebuilds (expandNames G) where
  prim := expandNames_prim G
  lit := expandNames_lit G
  array := expandNames_array G
  pred := expandNames_pred G
  tuple := expandNames_tuple G
  object := expandNames_object G
  func _ := expandNames_func G _

theorem result_mapTypes {G : String → Ty} (g : Func) :
    (g.mapTypes (expandNames G)).result = expandNames G g.result :=
  (rebuilds_expandNames G).result g

/-- Equal regular types have equal expansions. -/
theorem equal_expandNames {Q : String → Prop} {G : String → Ty} (hG : ∀ x, Q x → (G x).Nameless)
    {s d : Ty} (hs : Regular Q s) (hd : Regular Q d) (h : s.equal d = true) :
    (expandNames G s).equal (expandNames G d) = true := by
  have himage : ∀ {t : Ty}, Regular Q t → (expandNames G t).Nameless := nameless_expandNames hG
  have hself : ∀ {t : Ty}, Regular Q t → (expandNames G t).equal (expandNames G t) = true := fun ht =>
    equivOn_wellFormed.refl (himage ht).normal.wellFormed
  refine (rebuilds_expandNames G).equal (rebuilds_expandNames G) (P := Regular Q) (fun ht => ht.normal)
    (fun ht => ht.part) (fun ht => (himage ht).normal) (fun ht => (himage ht).normal)
    (fun ts hts => hts.head) (fun v hv => hself hv) (fun x hx => hself hx)
    (fun {x xs ys} hxs hys _ => ?_) (fun {ts us} hts hus hcovers hcovers' => ?_) hs hd h
  · obtain ⟨-, rfl⟩ := hxs.head
    obtain ⟨-, rfl⟩ := hys.head
    exact hself hxs
  · have hmembers : ∀ {ts : List Ty}, Regular Q (.union ts) → ∀ t ∈ ts, (expandNames G t).Nameless :=
      fun hts t ht => himage (hts.part (.union ht))
    rw [expandNames_union (hmembers hts), expandNames_union (hmembers hus)]
    exact equal_unionOf (List.forall_mem_map.2 fun t ht => (hmembers hts t ht).normal)
      (List.forall_mem_map.2 fun u hu => (hmembers hus u hu).normal) hcovers hcovers'

/-! ### Built-in types that are not built from others -/

/-- A built union is a type that covers no other only if all it is built from is that type or `never`. -/
theorem eq_of_unionOf_eq_prim {es : List Ty} (hes : ∀ e ∈ es, e.Normal) {p : Prim}
    (hunknown : .unknown ∉ es) (hp : ∀ t, ¬ Wider t (.prim p)) (h : unionOf es = .prim p) :
    ∀ e ∈ es, e = .prim p ∨ e = .never := by
  have hflat := isUnknown_of_mem_flatList hes hunknown
  have hlist := unionList_unionMembers hflat
  rw [unionOf_eq_ofMembers_unionMembers hflat] at h
  have hone : ∀ u ∈ unionMembers es, u = .prim p := by
    match hus : unionMembers es with
    | [] => simp
    | [u] =>
        rw [hus] at h
        simpa using show u = .prim p from h
    | u :: v :: vs =>
        rw [hus] at h
        cases h
  have hmember : ∀ {e m : Ty}, e ∈ es → m ∈ e.members → m.isNever = false → m = .prim p := by
    intro e m he hm hnever
    have hmem := (mem_flatList_iff hes).2 ⟨e, he, hm⟩
    obtain ⟨k, hk, hequal⟩ := exists_equal_of_mem equal
      (List.mem_filter.2 ⟨hmem, by simp [hnever]⟩ : m ∈ (flatList es).filter (!Ty.isNever ·))
    obtain ⟨u, hu, hwider⟩ := exists_wider_of_mem hk
    have hku : k = .prim p := by
      rcases hwider with rfl | hwider
      · exact hone _ hu
      · exact absurd (hone u hu ▸ hwider) (hp k)
    rcases hequal with rfl | hequal
    · exact hku
    · exact equal_prim_iff.1 (hku ▸ hequal)
  intro e he
  cases hunion : e.isUnion with
  | false =>
      have hself : e ∈ e.members := by cases e <;> first | exact .head _ | cases hunion
      cases hnever : e.isNever with
      | true => exact Or.inr (isNever_iff.1 hnever)
      | false => exact Or.inl (hmember he hself hnever)
  | true =>
      -- a union lists two different members, and neither is `never`
      cases e with
      | union ts =>
          obtain ⟨hts, hlen⟩ := unionOf_eq_union_iff.1 (hes _ he).head
          match ts, hlen with
          | t :: u :: us, _ =>
              have ht := hmember he (.head _) (hts.isNever _ (.head _))
              have hu := hmember he (.tail _ (.head _)) (hts.isNever _ (.tail _ (.head _)))
              have hdistinct := (List.pairwise_cons.1 hts.distinct).1 u (.head _)
              rw [ht, hu, equal_prim_iff.2 rfl] at hdistinct
              cases hdistinct
      | _ => cases hunion

/-- **Only `unknown`, `never` and `void` themselves become one of these**, if nothing that is put in is. -/
theorem expandNames_eq_prim_iff {Q : String → Prop} {G : String → Ty}
    (hG : ∀ x, Q x → (G x).Nameless)
    (hne : ∀ x, Q x → G x ≠ .unknown ∧ G x ≠ .never ∧ G x ≠ .void) {t : Ty} (ht : Regular Q t) {p : Prim}
    (hp : p = .unknown ∨ p = .never ∨ p = .void) : expandNames G t = .prim p ↔ t = .prim p := by
  refine ⟨fun h => ?_, fun h => by rw [h]; rfl⟩
  induction ht generalizing p with
  | @intro t hnormal hhead hparts ih =>
      cases t with
      | prim q => exact h
      | ref x args =>
          obtain ⟨hx, rfl⟩ := hhead
          obtain ⟨hunknown, hnever, hvoid⟩ := hne x hx
          rcases hp with rfl | rfl | rfl
          · exact absurd h hunknown
          · exact absurd h hnever
          · exact absurd h hvoid
      | union ts =>
          exfalso
          obtain ⟨hlist, hlen⟩ := unionOf_eq_union_iff.1 hnormal
          have hts : ∀ t ∈ ts, (expandNames G t).Nameless := fun t ht =>
            nameless_expandNames hG (hparts t (.union ht))
          have hunknown : .unknown ∉ ts.map (expandNames G) := by
            intro hmem
            obtain ⟨t, ht, heq⟩ := List.mem_map.1 hmem
            have hhead := hlist.isUnknown t ht
            rw [ih t (.union ht) (Or.inl rfl) heq] at hhead
            cases hhead
          rw [expandNames_union hts] at h
          have hwider : ∀ t, ¬ Wider t (.prim p) := by
            intro t hwider
            have hcases := hwider.cases
            rcases hp with rfl | rfl | rfl <;> simp at hcases
          have hall := eq_of_unionOf_eq_prim (by simpa using fun t ht => (hts t ht).normal) hunknown
            hwider h
          have hone : ∀ t ∈ ts, t = .prim p := by
            intro t ht
            rcases hall _ (List.mem_map_of_mem ht) with heq | heq
            · exact ih t (.union ht) hp heq
            · have hhead := hlist.isNever t ht
              rw [ih t (.union ht) (Or.inr (Or.inl rfl)) heq] at hhead
              cases hhead
          match ts, hlen with
          | t :: u :: us, _ =>
              have hdistinct := (List.pairwise_cons.1 hlist.distinct).1 u (.head _)
              rw [hone t (.head _), hone u (.tail _ (.head _)), equal_prim_iff.2 rfl] at hdistinct
              cases hdistinct
      | lit l | tvar v | array e | pred x u =>
          cases h
      | tuple es =>
          rw [expandNames_tuple] at h
          cases h
      | object o =>
          rw [expandNames_object] at h
          cases h
      | func g =>
          rw [expandNames_func] at h
          cases h
      | inter ts => exact hhead.elim
      | classRef x => exact hhead.elim

end Ty

end TreeCheck
