import TreeCheck.Proofs.Ty.Rebuild

/-!
# Fitting with names replaced

A comparison looks at the heads of two types before it opens names.  If no name stands for `unknown`,
`never` or `void`, whose heads alone decide, then what it finds at the heads is what it would find with
all names replaced.

* `Ty.Fills`, `FitsBy` — types put in for names, and the types that fit with them in place;
* `fitsBy_of_early?` — early answers are right;
* `fits_expandNames_nullable`, `fits_expandNames_removeNil` — `nil` added and removed before names are
  replaced;
* `holds_openGoal_fitsBy` — the formula of two types that are opened no further.
-/

namespace TreeCheck

open Ty

/-! ### What is put in for names -/

/-- The types put in for names have no names and are not `unknown`, `never` or `void`. -/
structure Ty.Fills (Q : String → Prop) (G : String → Ty) : Prop where
  nameless : ∀ x, Q x → (G x).Nameless
  ne : ∀ x, Q x → G x ≠ .unknown ∧ G x ≠ .never ∧ G x ≠ .void

/-- The types fit with other types in place of their names. -/
def FitsBy (G : String → Ty) (s d : Ty) : Prop := Fits (expandNames G s) (expandNames G d)

section Fills

variable {Q : String → Prop} {G : String → Ty} (hG : Fills Q G)

include hG

theorem Ty.Fills.expandNames {t : Ty} (ht : Regular Q t) : (expandNames G t).Nameless :=
  nameless_expandNames hG.nameless ht

theorem Ty.Fills.normal {t : Ty} (ht : Regular Q t) : (Ty.expandNames G t).Normal :=
  (hG.expandNames ht).normal

/-- Expansion neither brings nor takes away the types that fit everything or nothing. -/
theorem Ty.Fills.eq_prim_iff {t : Ty} (ht : Regular Q t) {p : Prim}
    (hp : p = .unknown ∨ p = .never ∨ p = .void) : Ty.expandNames G t = .prim p ↔ t = .prim p :=
  expandNames_eq_prim_iff hG.nameless hG.ne ht hp

/-- Names are not predicates, so these may be taken as truth values first. -/
theorem fitsBy_predToBoolean {s d : Ty} (hs : Regular Q s) (hd : Regular Q d) :
    FitsBy G s.predToBoolean d.predToBoolean ↔ FitsBy G s d := by
  have hleft : ∀ {t u : Ty}, Regular Q t → u.Normal →
      (Fits (Ty.expandNames G t.predToBoolean) u ↔ Fits (Ty.expandNames G t) u) := by
    intro t u ht hu
    cases t with
    | pred x v => exact fits_predToBoolean_left (hG.normal ht) hu
    | _ => exact Iff.rfl
  have hright : ∀ {t u : Ty}, Regular Q t → u.Normal →
      (Fits u (Ty.expandNames G t.predToBoolean) ↔ Fits u (Ty.expandNames G t)) := by
    intro t u ht hu
    cases t with
    | pred x v => exact fits_predToBoolean_right hu (hG.normal ht)
    | _ => exact Iff.rfl
  have hd' : (Ty.expandNames G d.predToBoolean).Normal := by
    cases d with
    | pred x v => exact normal_prim _
    | _ => exact hG.normal hd
  rw [FitsBy, FitsBy, hleft hs hd', hright hd (hG.normal hs)]

/-- **Early answers are right.** -/
theorem fitsBy_of_early? {s d : Ty} (hs : Regular Q s) (hd : Regular Q d) {b : Bool}
    (h : Rules.early? {} s d = some b) : b = true ↔ FitsBy G s d := by
  have hregular : ∀ {t : Ty}, Regular Q t → Regular Q t.predToBoolean := by
    intro t ht
    cases t with
    | pred x v => exact regular_prim _
    | _ => exact ht
  have hequal : ∀ {t u : Ty}, Regular Q t → Regular Q u → t.equal u = true → FitsBy G t u :=
    fun ht hu heq => fits_of_equal (hG.normal ht) (hG.normal hu)
      (equal_expandNames hG.nameless ht hu heq)
  unfold Rules.early? at h
  split at h
  · rename_i hhead
    cases h
    refine iff_of_true rfl ?_
    simp only [Bool.or_eq_true, isUnknown_iff, isNever_iff] at hhead
    rcases hhead with (rfl | rfl) | rfl
    · exact fits_unknown_right (hG.normal hs) (hG.normal hd) rfl
    · exact fits_unknown_left (hG.normal hs) (hG.normal hd) rfl
    · exact fits_never_left (hG.normal hs) (hG.normal hd) rfl
  · rename_i hhead
    split at h
    · rename_i hnever
      cases h
      refine iff_of_false (by simp) ?_
      rw [isNever_iff] at hnever
      subst hnever
      simp only [Bool.or_eq_true, not_or, isUnknown_iff, isNever_iff] at hhead
      rw [FitsBy, expandNames_prim, fits_never_right_iff (hG.normal hs), hG.eq_prim_iff hs (by simp),
        hG.eq_prim_iff hs (by simp)]
      exact not_or.2 ⟨hhead.1.2, hhead.2⟩
    · rw [if_neg (by simp)] at h
      split at h
      · rename_i heq
        cases h
        exact iff_of_true rfl (hequal hs hd heq)
      · split at h
        · rename_i heq
          cases h
          refine iff_of_true rfl ((fitsBy_predToBoolean hG hs hd).1 ?_)
          exact hequal (hregular hs) (hregular hd) heq
        · cases h

/-! ### Unions -/

omit hG in
/-- The union of one type in normal form is that type. -/
theorem Ty.unionOf_singleton {t : Ty} (h : t.Normal) : unionOf [t] = t := by
  obtain rfl | rfl | ⟨hunknown, hnever⟩ := t.unknown_or_never_or
  · rfl
  · rfl
  · have hlist := h.unionList hunknown hnever
    have hflat : flatList [t] = t.members := by
      rw [flatList, flat_eq_members hlist.isUnion]
      exact List.append_nil _
    rw [unionOf_eq_of_flat hflat hlist.isUnknown hlist.isNever, distinctWith_eq_self hlist.distinct,
      absorb_eq_self hlist.absorbed hlist.bools, h.ofMembers_members]

/-- Members joined before names are replaced. -/
theorem expandNames_ofMembers {us : List Ty} (hus : ∀ u ∈ us, Regular Q u) :
    Ty.expandNames G (ofMembers us) = unionOf (us.map (Ty.expandNames G)) := by
  match us with
  | [] => rfl
  | [u] => exact (unionOf_singleton (hG.normal (hus u (.head _)))).symm
  | u :: v :: vs => exact expandNames_union fun t ht => hG.expandNames (hus t ht)

theorem nameless_of_mem_map {us : List Ty} (hus : ∀ u ∈ us, Regular Q u) :
    ∀ e ∈ us.map (Ty.expandNames G), e.Nameless := by
  intro e he
  obtain ⟨u, hu, rfl⟩ := List.mem_map.1 he
  exact hG.expandNames (hus u hu)

/-- A type of one shape fits an expanded union if and only if it fits an expanded member. -/
theorem fits_expandNames_ofMembers {us : List Ty} (hus : ∀ u ∈ us, Regular Q u) {s : Ty}
    (hs : s.Nameless) (hatomic : s.Atomic) :
    Fits s (Ty.expandNames G (ofMembers us)) ↔ ∃ u ∈ us, Fits s (Ty.expandNames G u) := by
  rw [expandNames_ofMembers hG hus, fits_unionOf_right (nameless_of_mem_map hG hus) hs hatomic]
  simp

/-- An expanded union fits where each expanded member does. -/
theorem expandNames_ofMembers_fits {us : List Ty} (hlist : UnionList us) (hus : ∀ u ∈ us, Regular Q u)
    {x : Ty} (hx : x.Nameless) :
    Fits (Ty.expandNames G (ofMembers us)) x ↔ ∀ u ∈ us, Fits (Ty.expandNames G u) x := by
  have hunknown : .unknown ∉ us.map (Ty.expandNames G) := by
    intro hmem
    obtain ⟨u, hu, heq⟩ := List.mem_map.1 hmem
    have hhead := hlist.isUnknown u hu
    rw [(hG.eq_prim_iff (hus u hu) (Or.inl rfl)).1 heq] at hhead
    cases hhead
  rw [expandNames_ofMembers hG hus, fits_unionOf_left (nameless_of_mem_map hG hus) hunknown hx]
  simp

/-! ### Adding and removing `nil` -/

section Nil

variable {t : Ty} (ht : Regular Q t)

include ht

/-- Adding `nil` before or after expansion makes no difference to what fits. -/
theorem fits_expandNames_nullable {s : Ty} (hs : s.Nameless) :
    Fits s (Ty.expandNames G t.nullable) ↔ Fits s (Ty.expandNames G t).nullable := by
  refine fits_right_congr (hG.expandNames (regular_nullable ht)) (regular_nullable (hG.expandNames ht))
    (fun a ha hatomic => ?_) hs
  rw [fits_nullable_right (hG.expandNames ht) ha hatomic]
  obtain rfl | rfl | ⟨hunknown, hnever⟩ := t.unknown_or_never_or
  · exact iff_of_true (fits_unknown_right ha.normal (normal_prim _) rfl)
      (Or.inl (fits_unknown_right ha.normal (normal_prim _) rfl))
  · refine (or_iff_right ?_).symm
    rw [expandNames_prim, fits_never_right_iff ha.normal, ← isUnknown_iff, ← isNever_iff,
      hatomic.firm.isUnknown, hatomic.firm.isNever]
    simp
  · have hmembers : ∀ m ∈ t.members, Regular Q m := fun m hm => ht.of_mem_members hm
    have hself : Fits a (Ty.expandNames G t) ↔ ∃ m ∈ t.members, Fits a (Ty.expandNames G m) := by
      rw [← fits_expandNames_ofMembers hG hmembers ha hatomic, ht.normal.ofMembers_members]
    rw [nullable_eq ht.normal hunknown hnever]
    split
    · rename_i hnil
      refine (or_iff_left_of_imp fun hfits => hself.2 ⟨.nil, hasNil_iff.1 hnil, hfits⟩).symm
    · rw [fits_expandNames_ofMembers hG ?_ ha hatomic, hself]
      · simp [or_and_right, exists_or]
      · intro m hm
        rcases List.mem_append.1 hm with hm | hm
        · exact hmembers m hm
        · rw [List.mem_singleton.1 hm]
          exact regular_prim _

/-- Nor does taking `nil` away where `nil` fits. -/
theorem fits_expandNames_removeNil {x : Ty} (hx : x.Nameless) (hnil : Fits .nil x) :
    Fits (Ty.expandNames G t.removeNil) x ↔ Fits (Ty.expandNames G t) x := by
  obtain rfl | rfl | ⟨hunknown, hnever⟩ := t.unknown_or_never_or
  · exact Iff.rfl
  · exact Iff.rfl
  · have hlist := ht.normal.unionList hunknown hnever
    have hmembers : ∀ m ∈ t.members, Regular Q m := fun m hm => ht.of_mem_members hm
    have hself : Fits (Ty.expandNames G t) x ↔ ∀ m ∈ t.members, Fits (Ty.expandNames G m) x := by
      rw [← expandNames_ofMembers_fits hG hlist hmembers hx, ht.normal.ofMembers_members]
    rw [removeNil_eq ht.normal hunknown hnever, hself,
      expandNames_ofMembers_fits hG (hlist.sublist List.filter_sublist)
        (fun m hm => hmembers m (List.mem_of_mem_filter hm)) hx]
    simp only [List.mem_filter, Bool.not_eq_true', and_imp]
    refine forall₂_congr fun m hm => ⟨fun h => ?_, fun h _ => h⟩
    cases hm' : m.isNil with
    | false => exact h hm'
    | true => rwa [isNil_iff.1 hm']

end Nil

end Fills

/-! ### Signatures with types replaced -/

namespace FuncOf

variable (f : Ty → Ty) (g : Func)

theorem rest?_mapTypes :
    (g.mapTypes f).rest? = g.rest?.map fun p => { p with type := f p.type } := by
  simp only [mapTypes, rest?, List.getLast?_map, Option.filter_map]
  rfl

theorem required_mapTypes : (g.mapTypes f).required = g.required := by
  simp only [mapTypes, required, List.takeWhile_map, List.length_map]
  rfl

theorem paramAt?_mapTypes (i : Nat) : (g.mapTypes f).paramAt? i = (g.paramAt? i).map f := by
  have hrest : (g.mapTypes f).rest?.map (·.type) = (g.rest?.map (·.type)).map f := by
    rw [rest?_mapTypes, Option.map_map, Option.map_map]
    rfl
  unfold paramAt?
  rw [hrest, show (g.mapTypes f).params[i]? = (g.params[i]?).map fun p => { p with type := f p.type }
    from List.getElem?_map]
  cases g.params[i]? with
  | none => rfl
  | some p =>
      simp only [Option.map_some]
      split <;> rfl

end FuncOf

/-! ### The formulas -/

section Formulas

variable {Q : String → Prop} {G : String → Ty}

theorem holds_answer_fitsBy (b : Bool) :
    (Goal.answer b).Holds (FitsBy G) ↔ (Goal.answer b).Holds Fits := by
  rw [Goal.holds_answer, Goal.holds_answer]

theorem holds_ask_fitsBy (s d : Ty) :
    (Goal.ask s d).Holds (FitsBy G) ↔ (Goal.ask (expandNames G s) (expandNames G d)).Holds Fits := by
  rw [Goal.holds_ask, Goal.holds_ask, FitsBy]

theorem holds_paramGoal_fitsBy (d s : Ty) :
    (paramGoal false d s).Holds (FitsBy G) ↔
      (paramGoal false (expandNames G d) (expandNames G s)).Holds Fits :=
  or_congr (holds_ask_fitsBy d s) (holds_answer_fitsBy false)

/-- The formula for tuples says of types what it says of their expansions. -/
theorem holds_tupleGoal_fitsBy (ss ds : List Ty) :
    (tupleGoal ss ds).Holds (FitsBy G) ↔
      (tupleGoal (ss.map (expandNames G)) (ds.map (expandNames G))).Holds Fits := by
  induction ds generalizing ss with
  | nil => cases ss <;> exact holds_answer_fitsBy _
  | cons d ds ih =>
      cases ss with
      | nil => exact and_congr (holds_ask_fitsBy .nil d) (ih [])
      | cons s ss => exact and_congr (holds_ask_fitsBy s d) (ih ss)

/-- So does the formula for index signatures. -/
theorem holds_indexGoal_fitsBy (s d : Object) :
    (indexGoal s d).Holds (FitsBy G) ↔
      (indexGoal (s.mapTypes (expandNames G)) (d.mapTypes (expandNames G))).Holds Fits := by
  have hextra : ∀ (i : Index) (m : Member), (extraGoal d i m).Holds (FitsBy G) ↔
      (extraGoal (d.mapTypes (expandNames G)) ⟨expandNames G i.key, expandNames G i.value⟩
        { m with type := expandNames G m.type }).Holds Fits := by
    intro i m
    unfold extraGoal
    rw [find?_mapTypes, Option.isSome_map]
    split
    · exact holds_answer_fitsBy true
    · exact and_congr (holds_ask_fitsBy (.str m.name) i.key) (holds_ask_fitsBy m.type i.value)
  unfold indexGoal
  simp only [ObjectOf.mapTypes] at hextra ⊢
  cases d.index with
  | none => exact holds_answer_fitsBy true
  | some i =>
      simp only [Option.map_some, Goal.holds_both, Goal.holds_all, List.forall_mem_map]
      refine and_congr (forall₂_congr fun m _ => hextra i m) ?_
      cases s.index with
      | none => exact holds_answer_fitsBy true
      | some j => exact holds_ask_fitsBy j.value i.value

/-- So does the formula for what a rest parameter takes. -/
theorem holds_restGoal_fitsBy (s d : Func) :
    (restGoal false s d).Holds (FitsBy G) ↔
      (restGoal false (s.mapTypes (expandNames G)) (d.mapTypes (expandNames G))).Holds Fits := by
  have hlength : ∀ g : Func, (g.mapTypes (expandNames G)).params.length = g.params.length := fun g =>
    List.length_map _
  unfold restGoal
  rw [FuncOf.rest?_mapTypes, hlength, hlength]
  cases s.rest? with
  | none => exact holds_answer_fitsBy true
  | some r =>
      simp only [Option.map_some, Goal.holds_all, List.forall_mem_map, FuncOf.paramAt?_mapTypes]
      refine forall₂_congr fun i _ => ?_
      cases d.paramAt? i with
      | none => exact holds_answer_fitsBy true
      | some t => exact holds_paramGoal_fitsBy t r.type

variable (hG : Fills Q G)

include hG

/-- So does the formula for one member. -/
theorem holds_memberGoal_fitsBy {s : Object} (hs : Regular Q (.object s)) {want : Member}
    (hwant : Regular Q want.type) :
    (memberGoal s want).Holds (FitsBy G) ↔
      (memberGoal (s.mapTypes (expandNames G)) { want with type := expandNames G want.type }).Holds
        Fits := by
  unfold memberGoal
  rw [find?_mapTypes]
  cases hfind : s.find? want.name with
  | none => exact holds_answer_fitsBy _
  | some own =>
      have hown : Regular Q own.type := hs.part (.member (ObjectOf.mem_of_find? hfind).1 rfl)
      have htarget := regular_nullable (hG.expandNames hwant)
      have hnil := fits_nil_nullable (hG.expandNames hwant)
      simp only [Option.map_some]
      split
      · exact holds_answer_fitsBy false
      · split
        · rw [Goal.holds_ask, Goal.holds_ask, FitsBy,
            fits_expandNames_nullable hG hwant (hG.expandNames (regular_removeNil hown)),
            fits_expandNames_removeNil hG hown htarget hnil,
            fits_removeNil_left (hG.expandNames hown) htarget hnil]
        · exact holds_ask_fitsBy own.type want.type

/-- So does the formula for records. -/
theorem holds_objectGoal_fitsBy {s d : Object} (hs : Regular Q (.object s))
    (hd : Regular Q (.object d)) :
    (objectGoal s d).Holds (FitsBy G) ↔
      (objectGoal (s.mapTypes (expandNames G)) (d.mapTypes (expandNames G))).Holds Fits := by
  unfold objectGoal
  rw [Goal.holds_both, Goal.holds_both]
  refine and_congr ?_ (holds_indexGoal_fitsBy s d)
  simp only [Goal.holds_all, List.forall_mem_map, show (d.mapTypes (expandNames G)).members =
    d.members.map fun m => { m with type := expandNames G m.type } from rfl]
  exact forall₂_congr fun want hwant => holds_memberGoal_fitsBy hG hs (hd.part (.member hwant rfl))

/-- So does the formula for parameters. -/
theorem holds_paramsGoal_fitsBy {d : Func} (hd : Regular Q (.func d)) {ps : List Param}
    (hps : ∀ p ∈ ps, Regular Q p.type) (i : Nat) :
    (paramsGoal false d i ps).Holds (FitsBy G) ↔
      (paramsGoal false (d.mapTypes (expandNames G)) i
        (ps.map fun p => { p with type := expandNames G p.type })).Holds Fits := by
  induction ps generalizing i with
  | nil => exact holds_answer_fitsBy true
  | cons p ps ih =>
      have htail := ih (fun q hq => hps q (.tail _ hq)) (i + 1)
      have hp : Regular Q p.type := hps p (.head _)
      rw [List.map_cons, paramsGoal, paramsGoal, FuncOf.paramAt?_mapTypes]
      split
      · exact holds_answer_fitsBy true
      · cases hat : d.paramAt? i with
        | none =>
            simp only [Option.map_none]
            split
            · exact htail
            · exact holds_answer_fitsBy false
        | some t =>
            obtain ⟨q, hq, rfl⟩ := FuncOf.mem_of_paramAt? hat
            have ht : Regular Q q.type := hd.part (.param hq rfl)
            refine and_congr ?_ htail
            split
            · refine or_congr ?_ (holds_answer_fitsBy false)
              rw [Goal.holds_ask, Goal.holds_ask, FitsBy]
              exact fits_expandNames_nullable hG hp (hG.expandNames ht)
            · exact holds_paramGoal_fitsBy q.type p.type

/-- So does the formula for signatures. -/
theorem holds_funcGoal_fitsBy {s d : Func} (hs : Regular Q (.func s)) (hd : Regular Q (.func d)) :
    (funcGoal false s d).Holds (FitsBy G) ↔
      (funcGoal false (s.mapTypes (expandNames G)) (d.mapTypes (expandNames G))).Holds Fits := by
  have herased : ∀ {g : Func}, Regular Q (.func g) →
      (g.mapTypes (expandNames G)).erased = g.mapTypes (expandNames G) := fun hg =>
    FuncOf.erased_eq hg.normal.head
  rw [funcGoal, funcGoal, FuncOf.erased_eq hs.normal.head, FuncOf.erased_eq hd.normal.head, herased hs,
    herased hd, bareFuncGoal, bareFuncGoal, FuncOf.rest?_mapTypes, FuncOf.required_mapTypes,
    Option.isNone_map, show (d.mapTypes (expandNames G)).params.length = d.params.length from
      List.length_map _]
  split
  · exact holds_answer_fitsBy false
  · refine and_congr (holds_paramsGoal_fitsBy hG hd (fun p hp => hs.part (.param hp rfl)) 0)
      (and_congr (holds_restGoal_fitsBy s d) ?_)
    rw [holds_resultGoal_iff, holds_resultGoal_iff, result_mapTypes, result_mapTypes,
      hG.eq_prim_iff hd.result (by simp), FitsBy]

/-- The rules for two heads that are no unions and no names. -/
theorem holds_structuralGoal_fitsBy {r : Option Resolver} (hr : ∀ v, r.bind (·.bound v) = none)
    {s d : Ty} (hs : Regular Q s) (hd : Regular Q d) (hsu : s.isUnion = false) (hdu : d.isUnion = false)
    (hsn : s.isNamed = false) (hdn : d.isNamed = false) :
    (structuralGoal false r s d).Holds (FitsBy G) ↔
      (structuralGoal false none (expandNames G s) (expandNames G d)).Holds Fits := by
  -- the heads that a target cannot have
  have hother : match d with
      | .union _ | .inter _ | .ref _ _ | .classRef _ => False
      | _ => True := by
    cases d <;> trivial
  cases s with
  | union ss => cases hsu
  | inter ss => exact hs.head.elim
  | ref x args => cases hsn
  | classRef x => cases hsn
  | array s =>
      cases d with
      | array d => exact holds_ask_fitsBy s d
      | _ => first | exact hother.elim | simp [structuralGoal, assignToPrim]
  | tuple ss =>
      cases d with
      | array d =>
          rw [expandNames_tuple, expandNames_array]
          simp only [structuralGoal, Goal.holds_all, List.forall_mem_map, holds_ask_fitsBy]
      | tuple ds =>
          rw [expandNames_tuple, expandNames_tuple]
          simp only [structuralGoal, List.length_map]
          split
          · exact holds_answer_fitsBy false
          · exact holds_tupleGoal_fitsBy ss ds
      | _ => first | exact hother.elim | simp [structuralGoal, assignToPrim]
  | object s =>
      cases d with
      | object d =>
          rw [expandNames_object, expandNames_object]
          exact holds_objectGoal_fitsBy hG hs hd
      | _ => first | exact hother.elim | simp [structuralGoal, assignToPrim]
  | func s =>
      cases d with
      | func d =>
          rw [expandNames_func, expandNames_func]
          exact holds_funcGoal_fitsBy hG hs hd
      | _ => first | exact hother.elim | simp [structuralGoal, assignToPrim]
  | prim p | lit l | pred x u | tvar v =>
      cases d with
      | _ =>
          first | exact hother.elim | simp [structuralGoal, assignToPrim, hr]

omit hG in
/-- Types that are no unions and no names keep their heads. -/
theorem expandNames_head {t : Ty} (hunion : t.isUnion = false) (hnamed : t.isNamed = false)
    (ht : Regular Q t) (hfirm : t.Firm) :
    (expandNames G t).Firm ∧ (expandNames G t).isUnion = false ∧
      (expandNames G t).isConstant = t.isConstant ∧ (expandNames G t = .boolean ↔ t = .boolean) := by
  cases t with
  | union ts => cases hunion
  | inter ts => exact ht.head.elim
  | ref x args => cases hnamed
  | classRef x => cases hnamed
  | pred x u => cases hfirm.predToBoolean
  | prim p => exact ⟨hfirm, rfl, rfl, Iff.rfl⟩
  | tuple es =>
      rw [expandNames_tuple]
      exact ⟨⟨rfl, rfl, rfl⟩, rfl, rfl, by simp⟩
  | object o =>
      rw [expandNames_object]
      exact ⟨⟨rfl, rfl, rfl⟩, rfl, rfl, by simp⟩
  | func g =>
      rw [expandNames_func]
      exact ⟨⟨rfl, rfl, rfl⟩, rfl, rfl, by simp⟩
  | _ => exact ⟨⟨rfl, rfl, rfl⟩, rfl, rfl, by simp⟩

/-- A type that is no name against a union. -/
theorem holds_unionGoal_fitsBy {s : Ty} {ds : List Ty} (hs : Regular Q s) (hsu : s.isUnion = false)
    (hsn : s.isNamed = false) (hsf : s.Firm) (hd : Regular Q (.union ds)) :
    (unionGoal s ds).Holds (FitsBy G) ↔ FitsBy G s (.union ds) := by
  have hds : ∀ d ∈ ds, Regular Q d := fun d hmem => hd.part (.union hmem)
  have hunion : expandNames G (.union ds) = unionOf (ds.map (expandNames G)) :=
    expandNames_union fun d hmem => hG.expandNames (hds d hmem)
  have hmem := nameless_of_mem_map hG hds
  obtain ⟨hfirm, hnot, -, hboolean⟩ := expandNames_head (G := G) hsu hsn hs hsf
  simp only [unionGoal, Goal.holds_either, Goal.holds_any, List.mem_map, exists_exists_and_eq_and,
    Goal.holds_ask]
  by_cases hs' : s = .boolean
  · subst hs'
    have hvalues : FitsBy G .boolean (.union ds) ↔ ∀ b, FitsBy G (.bool b) (.union ds) :=
      fits_boolean_iff (hG.expandNames hd)
    refine ⟨?_, fun h => Or.inr ⟨hvalues.1 h true, hvalues.1 h false⟩⟩
    rintro (⟨d, hd', hfits⟩ | ⟨htrue, hfalse⟩)
    · rw [FitsBy, hunion]
      exact fits_unionOf_of_mem hmem (List.mem_map_of_mem hd') (regular_prim _) hfits
    · refine hvalues.2 fun b => ?_
      cases b
      · exact hfalse
      · exact htrue
  · have hatomic : (expandNames G s).Atomic := ⟨hfirm, hnot, hboolean.not.2 hs'⟩
    rw [FitsBy, hunion, fits_unionOf_right hmem (hG.expandNames hs) hatomic]
    simp only [List.mem_map, exists_exists_and_eq_and]
    exact or_iff_left (by simp)

omit hG in
theorem Ty.expandNames_of_isConstant {t : Ty} (h : t.isConstant = true) : expandNames G t = t := by
  cases t <;> first | rfl | cases h

omit hG in
/-- Equal types are both constants or neither is. -/
theorem Ty.isConstant_of_equal {a b : Ty} (ha : a.Normal) (hb : b.Normal) (h : a.equal b = true) :
    a.isConstant = b.isConstant := by
  rw [equal_eq_sameNode ha.wellFormed hb.wellFormed] at h
  cases a <;> cases b <;> first | rfl | cases h

/-- **The formula of two types says whether they fit**, if they are opened no further. -/
theorem holds_openGoal_fitsBy {r : Option Resolver} (hr : ∀ v, r.bind (·.bound v) = none) {s d : Ty}
    (hs : Regular Q s) (hd : Regular Q d) (hsf : s.Firm) (hdf : d.Firm) (hne : s.equal d = false)
    (hnames : Rules.opensNames s d = false) :
    (Rules.openGoal {} r s d).Holds (FitsBy G) ↔ FitsBy G s d := by
  cases hsu : s.isUnion with
  | true =>
      cases s with
      | union ss =>
          obtain ⟨hlist, hlen⟩ := unionOf_eq_union_iff.1 hs.normal.head
          have hmembers := expandNames_ofMembers_fits hG hlist (fun s hmem => hs.part (.union hmem))
            (hG.expandNames hd)
          rw [ofMembers_eq_union hlen] at hmembers
          simp only [Rules.openGoal, Goal.holds_all, List.forall_mem_map, Goal.holds_ask, FitsBy, hmembers]
      | _ => cases hsu
  | false =>
      have hnamed : s.isNamed = false ∧ d.isNamed = false := by
        simpa [Rules.opensNames, hsu] using hnames
      have hgoal : Rules.openGoal {} r s d = structuralGoal false r s d := by
        cases s <;> first | rfl | cases hsu
      rw [hgoal]
      cases hdu : d.isUnion with
      | true =>
          cases d with
          | union ds => exact holds_unionGoal_fitsBy hG hs hsu hnamed.1 hsf hd
          | _ => cases hdu
      | false =>
          obtain ⟨hfirm, hnot, hconstant, -⟩ := expandNames_head (G := G) hsu hnamed.1 hs hsf
          obtain ⟨hfirm', -, hconstant', -⟩ := expandNames_head (G := G) hdu hnamed.2 hd hdf
          rw [holds_structuralGoal_fitsBy hG hr hs hd hsu hdu hnamed.1 hnamed.2, FitsBy]
          cases hc : s.isConstant with
          | false =>
              exact (fits_iff_structuralGoal (hG.expandNames hs) (hG.expandNames hd) hfirm hfirm' hnot
                (hconstant.trans hc)).symm
          | true =>
              rw [fits_structural (hG.expandNames hs) (hG.expandNames hd) hfirm hfirm' hnot]
              refine (or_iff_right fun heq => ?_).symm
              -- constants and variables stay as they are, so they were equal before
              have hc' : d.isConstant = true := by
                rw [← hconstant', ← isConstant_of_equal (hG.normal hs) (hG.normal hd) heq, hconstant, hc]
              rw [expandNames_of_isConstant hc, expandNames_of_isConstant hc', hne] at heq
              cases heq

end Formulas

end TreeCheck
