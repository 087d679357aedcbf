import TreeCheck.Proofs.Assign.Expand
import TreeCheck.Proofs.Assign.Recursive
import TreeCheck.Proofs.Ty.Permute

/-!
# Comparisons with names permuted

The comparison of two types never looks at the name of a type variable but to find its constraint.  So it
answers the same after a permutation of names, as long as the definitions do not tell the names apart.  The
one place where a name counts is the text by which a comparison in progress is known: two comparisons
whose texts agree before the permutation must agree after it, and the other way round.

* `Goal.permute`, `Goal.run_permute` — formulas with their types permuted;
* `structuralGoal_permute`, `Rules.early?_permute` — the step of a comparison, permuted;
* `Resolver.Blind` — definitions that do not tell the permuted names apart;
* `Rules.SameTexts` — the texts of the comparisons that are met;
* `Rules.assignable_permute` — permuted types compare like the types.
-/

namespace TreeCheck

open Equiv (Perm)
open Ty (permute)

variable {π : Perm String}

/-! ### Types -/

namespace Ty

@[simp] theorem isNil_permute (t : Ty) : (t.permute π).isNil = t.isNil := by cases t <;> rfl

@[simp] theorem isNamed_permute (t : Ty) : (t.permute π).isNamed = t.isNamed := by cases t <;> rfl

@[simp] theorem isUnion_permute (t : Ty) : (t.permute π).isUnion = t.isUnion := by cases t <;> rfl

@[simp] theorem isInter_permute (t : Ty) : (t.permute π).isInter = t.isInter := by cases t <;> rfl

theorem permute_tvar (v : String) : (tvar v).permute π = .tvar (π v) := rfl

theorem predToBoolean_permute (t : Ty) : (t.permute π).predToBoolean = t.predToBoolean.permute π := by
  cases t <;> rfl

theorem members_permute (t : Ty) : (t.permute π).members = t.members.map (permute π) := by
  cases t with
  | union ts => rw [permute_union, members, members]
  | _ => rfl

theorem nullable_permute (t : Ty) : (t.permute π).nullable = t.nullable.permute π :=
  permute_unionOf π [t, .nil]

theorem removeNil_permute (t : Ty) : (t.permute π).removeNil = t.removeNil.permute π := by
  rw [removeNil, removeNil, filter, filter, members_permute, List.filter_map, ← permute_unionOf]
  simp [Function.comp_def]

theorem permute_tuple (es : List Ty) : (tuple es).permute π = .tuple (es.map (permute π)) := permute_eq π _

theorem permute_func_of_bare {f : Func} (h : f.tparams = []) :
    (func f).permute π = .func (f.mapTypes (permute π)) := by
  rw [permute_func]
  simp [FuncOf.nameParams, FuncOf.mapChildren, FuncOf.mapTypes, h]

theorem result_permute (f : Func) : (f.mapTypes (permute π)).result = f.result.permute π := by
  rw [FuncOf.result, FuncOf.result, FuncOf.mapTypes]
  cases f.ret <;> rfl

end Ty

/-- The signature with the names of variables and of type parameters permuted. -/
def FuncOf.permute (π : Perm String) (f : Func) : Func := (f.mapChildren (Ty.permute π)).nameParams π

namespace FuncOf

/-- A signature is erased alike before and after its names are permuted. -/
theorem erased_permute (f : Func) : (f.permute π).erased = f.erased.mapTypes (Ty.permute π) := by
  have hempty : (f.permute π).tparams.isEmpty = f.tparams.isEmpty := by
    simp [permute, nameParams, mapChildren]
  unfold erased
  rw [hempty]
  split
  · next hbare =>
      have hfunc : (Ty.func f).permute π = .func (f.mapTypes (Ty.permute π)) :=
        Ty.permute_func_of_bare (List.isEmpty_iff.1 hbare)
      rw [Ty.permute_func] at hfunc
      exact Ty.func.inj hfunc
  · have hnames : (f.permute π).tparams.map (fun p => (p.name, Ty.unknown)) =
        Subst.permute π (f.tparams.map fun p => (p.name, Ty.unknown)) := by
      simp [permute, nameParams, mapChildren, Subst.permute, Function.comp_def, Ty.permute]
    have happly := Ty.permute_applyWith (Ty.equal_permute π) (f.tparams.map fun p => (p.name, Ty.unknown))
      (.func f.bare)
    rw [← hnames, Ty.permute_func_of_bare rfl] at happly
    have hfunc : ∀ (g : Func) (s : Subst), Ty.applyWith Ty.equal s (.func g) = .func (g.apply s) := fun g s => rfl
    rw [hfunc, hfunc, Ty.permute_func_of_bare rfl] at happly
    exact Ty.func.inj happly

end FuncOf

/-! ### Formulas -/

namespace Goal

/-- The formula with every type permuted. -/
def permute (π : Perm String) : Goal → Goal
  | answer b => answer b
  | ask s d => ask (s.permute π) (d.permute π)
  | both g h => both (g.permute π) (h.permute π)
  | either g h => either (g.permute π) (h.permute π)

theorem permute_all (gs : List Goal) : (all gs).permute π = all (gs.map (permute π)) := by
  induction gs with
  | nil => rfl
  | cons g gs ih => exact congrArg (both _) ih

theorem permute_any (gs : List Goal) : (any gs).permute π = any (gs.map (permute π)) := by
  induction gs with
  | nil => rfl
  | cons g gs ih => exact congrArg (either _) ih

/-- A permuted formula evaluates like the formula, if its comparisons are answered alike. -/
theorem run_permute {go go' : Ty → Ty → Query Bool} {g : Goal}
    (h : ∀ p ∈ g.asked, go' (p.1.permute π) (p.2.permute π) = go p.1 p.2) :
    (g.permute π).run go' = g.run go := by
  induction g with
  | answer b => rfl
  | ask s d => exact h (s, d) (by simp)
  | both g k ihg ihk =>
      rw [permute, run_both, run_both, ihg fun p hp => h p (by simp [hp]), ihk fun p hp => h p (by simp [hp])]
  | either g k ihg ihk =>
      rw [permute, run_either, run_either, ihg fun p hp => h p (by simp [hp]),
        ihk fun p hp => h p (by simp [hp])]

end Goal

section Formulas

variable (π)

/-- The formula of permuted members is the permuted formula. -/
theorem memberGoal_permute (s : Object) (m : Member) :
    memberGoal (s.mapTypes (permute π)) { m with type := m.type.permute π } = (memberGoal s m).permute π := by
  unfold memberGoal
  rw [Ty.find?_mapTypes]
  cases s.find? m.name with
  | none => rfl
  | some own =>
      simp only [Option.map_some]
      split
      · rfl
      · split
        · rw [Ty.removeNil_permute, Ty.nullable_permute]
          rfl
        · rfl

theorem extraGoal_permute (d : Object) (i : Index) (m : Member) :
    extraGoal (d.mapTypes (permute π)) ⟨i.key.permute π, i.value.permute π⟩ { m with type := m.type.permute π } =
      (extraGoal d i m).permute π := by
  unfold extraGoal
  rw [Ty.find?_mapTypes, Option.isSome_map]
  split <;> rfl

theorem objectGoal_permute (s d : Object) :
    objectGoal (s.mapTypes (permute π)) (d.mapTypes (permute π)) = (objectGoal s d).permute π := by
  have hindex : indexGoal (s.mapTypes (permute π)) (d.mapTypes (permute π)) = (indexGoal s d).permute π := by
    obtain ⟨ns, j⟩ := s
    obtain ⟨ms, i⟩ := d
    cases i with
    | none => rfl
    | some i =>
        have hextra := List.map_congr_left fun m (_ : m ∈ ns) => extraGoal_permute π ⟨ms, some i⟩ i m
        simp only [indexGoal, ObjectOf.mapTypes, Option.map_some, List.map_map, Function.comp_def, Goal.permute,
          Goal.permute_all] at hextra ⊢
        rw [hextra]
        cases j <;> rfl
  rw [objectGoal, objectGoal, hindex, Goal.permute, Goal.permute_all, List.map_map]
  simp only [ObjectOf.mapTypes, List.map_map]
  congr 2
  exact List.map_congr_left fun m _ => memberGoal_permute π s m

theorem paramGoal_permute (bivariant : Bool) (d s : Ty) :
    paramGoal bivariant (d.permute π) (s.permute π) = (paramGoal bivariant d s).permute π := by
  cases bivariant <;> rfl

/-- The same for parameters; names of parameters stand for nothing. -/
theorem paramsGoal_permute (bivariant : Bool) (d : Func) (i : Nat) (ps : List Param) :
    paramsGoal bivariant (d.mapTypes (permute π)) i (ps.map fun p => { p with type := p.type.permute π }) =
      (paramsGoal bivariant d i ps).permute π := by
  induction ps generalizing i with
  | nil => rfl
  | cons p ps ih =>
      rw [List.map_cons, paramsGoal, paramsGoal, FuncOf.paramAt?_mapTypes]
      split
      · rfl
      · cases d.paramAt? i with
        | none =>
            simp only [Option.map_none]
            split
            · exact ih (i + 1)
            · rfl
        | some t =>
            simp only [Option.map_some, Goal.permute, ih, ← paramGoal_permute, Ty.nullable_permute]
            split <;> rfl

theorem restGoal_permute (bivariant : Bool) (s d : Func) :
    restGoal bivariant (s.mapTypes (permute π)) (d.mapTypes (permute π)) = (restGoal bivariant s d).permute π := by
  have hlength : ∀ g : Func, (g.mapTypes (permute π)).params.length = g.params.length := fun g => List.length_map _
  unfold restGoal
  rw [FuncOf.rest?_mapTypes, hlength, hlength]
  cases s.rest? with
  | none => rfl
  | some r =>
      simp only [Option.map_some, Goal.permute_all, List.map_map, FuncOf.paramAt?_mapTypes]
      refine congrArg Goal.all (List.map_congr_left fun i _ => ?_)
      rw [Function.comp_apply]
      cases d.paramAt? i with
      | none => rfl
      | some t => exact paramGoal_permute π bivariant t r.type

theorem resultGoal_permute (s d : Func) :
    resultGoal (s.mapTypes (permute π)) (d.mapTypes (permute π)) = (resultGoal s d).permute π := by
  unfold resultGoal
  rw [Ty.result_permute, Ty.result_permute]
  cases d.result with
  | prim p => cases p <;> rfl
  | _ => rfl

/-- The same for signatures without type parameters. -/
theorem bareFuncGoal_permute (bivariant : Bool) (s d : Func) :
    bareFuncGoal bivariant (s.mapTypes (permute π)) (d.mapTypes (permute π)) =
      (bareFuncGoal bivariant s d).permute π := by
  have hlength : (d.mapTypes (permute π)).params.length = d.params.length := List.length_map _
  unfold bareFuncGoal
  rw [FuncOf.rest?_mapTypes, FuncOf.required_mapTypes, Option.isNone_map, hlength, restGoal_permute,
    resultGoal_permute]
  split
  · rfl
  · rw [Goal.permute, Goal.permute, ← paramsGoal_permute]
    rfl

theorem tupleGoal_permute (ss ds : List Ty) :
    tupleGoal (ss.map (permute π)) (ds.map (permute π)) = (tupleGoal ss ds).permute π := by
  induction ds generalizing ss with
  | nil => cases ss <;> rfl
  | cons d ds ih =>
      cases ss with
      | nil => exact congrArg (Goal.both _) (ih [])
      | cons s ss => exact congrArg (Goal.both _) (ih ss)

theorem unionGoal_permute (s : Ty) (ds : List Ty) :
    unionGoal (s.permute π) (ds.map (permute π)) = (unionGoal s ds).permute π := by
  have hany : Goal.any ((ds.map (permute π)).map (.ask (s.permute π))) = (Goal.any (ds.map (.ask s))).permute π := by
    rw [Goal.permute_any, List.map_map, List.map_map]
    rfl
  have htruth : Ty.union (ds.map (permute π)) = (Ty.union ds).permute π := (Ty.permute_union π ds).symm
  unfold unionGoal
  rw [hany, htruth, Goal.permute]
  cases s with
  | prim p => cases p <;> rfl
  | _ => rfl

end Formulas

/-! ### Definitions -/

/-- Names may be permuted before a type is expanded or after, and so for the constraint of a variable. -/
structure Resolver.Blind (r : Resolver) (π : Perm String) : Prop where
  expand : ∀ t, r.expand (t.permute π) = (r.expand t).map (Option.map (permute π))
  bound : ∀ v, r.bound (π v) = (r.bound v).map (permute π)

namespace Resolver

variable {r : Resolver} {s d : Ty}

/-- Opening a permuted name gives the permuted type. -/
theorem Blind.open (hr : r.Blind π) (t : Ty) : r.open (t.permute π) = (r.open t).map (Option.map (permute π)) := by
  unfold Resolver.open
  rw [Ty.isNamed_permute]
  split
  · exact hr.expand t
  · rfl

/-- An answer by name alone does not see a permutation. -/
theorem byName?_permute (r : Resolver) (s d : Ty) : r.byName? (s.permute π) (d.permute π) = r.byName? s d := by
  cases s with
  | ref a as =>
      cases as with
      | nil =>
          cases d with
          | ref b bs => cases bs <;> rfl
          | _ => rfl
      | cons t ts => cases d <;> rfl
  | classRef a => cases d <;> rfl
  | _ => rfl

/-- Comparing what names stand for commutes with a permutation if the comparison below does. -/
theorem Blind.opened (hr : r.Blind π) {next next' : Ty → Ty → Query Bool}
    (h : ∀ s' d', r.open s = .ok (some s') → r.open d = .ok (some d') →
      next' (s'.permute π) (d'.permute π) = next s' d') :
    r.opened next' (s.permute π) (d.permute π) = r.opened next s d := by
  unfold Resolver.opened
  rw [hr.open, hr.open]
  cases hs : r.open s with
  | error f => rfl
  | ok o =>
      cases o with
      | none => rfl
      | some s' =>
          cases hd : r.open d with
          | error f => rfl
          | ok o =>
              cases o with
              | none => rfl
              | some d' => exact h s' d' hs hd

end Resolver

/-! ### One step -/

/-- A variable is compared as what bounds it. -/
theorem structuralGoal_tvar {bivariant : Bool} {r : Option Resolver} {v : String} {t : Ty}
    (hunion : t.isUnion = false) (hinter : t.isInter = false) :
    structuralGoal bivariant r (.tvar v) t = (r.bind (·.bound v)).elim (.answer false) (.ask · t) := by
  cases t with
  | union ts => cases hunion
  | inter ts => cases hinter
  | _ => cases hbound : r.bind (·.bound v) <;> simp [structuralGoal, hbound]

section Step

variable {r : Option Resolver} (hr : ∀ r' ∈ r, r'.Blind π)

include hr

/-- The formula of permuted structures is the permuted formula. -/
theorem structuralGoal_permute (bivariant : Bool) (s d : Ty) :
    structuralGoal bivariant r (s.permute π) (d.permute π) = (structuralGoal bivariant r s d).permute π := by
  have hbound : ∀ (v : String) {t : Ty}, t.isUnion = false → t.isInter = false →
      structuralGoal bivariant r ((Ty.tvar v).permute π) (t.permute π) =
        (structuralGoal bivariant r (.tvar v) t).permute π := by
    intro v t hunion hinter
    rw [Ty.permute_tvar, structuralGoal_tvar (by rwa [Ty.isUnion_permute]) (by rwa [Ty.isInter_permute]),
      structuralGoal_tvar hunion hinter]
    cases r with
    | none => rfl
    | some r' =>
        rw [Option.bind_some, Option.bind_some, (hr r' rfl).bound]
        cases r'.bound v <;> rfl
  have hinter : ∀ (ss : List Ty) (t : Ty), Goal.any ((ss.map (permute π)).map (.ask · (t.permute π))) =
      (Goal.any (ss.map (.ask · t))).permute π := by
    intro ss t
    rw [Goal.permute_any, List.map_map, List.map_map]
    rfl
  cases d with
  | union ds =>
      rw [Ty.permute_union]
      exact unionGoal_permute π s ds
  | inter ds =>
      have hall : Goal.all ((ds.map (permute π)).map (.ask (s.permute π))) =
          (Goal.all (ds.map (.ask s))).permute π := by
        rw [Goal.permute_all, List.map_map, List.map_map]
        rfl
      rw [Ty.permute_inter]
      exact hall
  | array d =>
      cases s with
      | inter ss =>
          rw [Ty.permute_inter]
          exact hinter ss _
      | tvar v => refine hbound v ?_ ?_ <;> rfl
      | tuple ss =>
          have hall : Goal.all ((ss.map (permute π)).map (.ask · (d.permute π))) =
              (Goal.all (ss.map (.ask · d))).permute π := by
            rw [Goal.permute_all, List.map_map, List.map_map]
            rfl
          rw [Ty.permute_tuple]
          exact hall
      | _ => rfl
  | tuple ds =>
      cases s with
      | inter ss =>
          have h := hinter ss (.tuple ds)
          rw [Ty.permute_inter]
          exact h
      | tvar v => refine hbound v ?_ ?_ <;> rfl
      | tuple ss =>
          rw [Ty.permute_tuple, Ty.permute_tuple]
          simp only [structuralGoal, List.length_map]
          split
          · rfl
          · exact tupleGoal_permute π ss ds
      | _ => rfl
  | object d =>
      cases s with
      | inter ss =>
          rw [Ty.permute_inter]
          exact hinter ss _
      | tvar v => refine hbound v ?_ ?_ <;> rfl
      | object s =>
          rw [Ty.permute_object, Ty.permute_object]
          exact objectGoal_permute π s d
      | _ => rfl
  | func d =>
      cases s with
      | inter ss =>
          rw [Ty.permute_inter]
          exact hinter ss _
      | tvar v => refine hbound v ?_ ?_ <;> rfl
      | func s =>
          have hbare := bareFuncGoal_permute π bivariant s.erased d.erased
          rw [← FuncOf.erased_permute, ← FuncOf.erased_permute] at hbare
          rw [Ty.permute_func, Ty.permute_func]
          exact hbare
      | _ => rfl
  | prim _ | lit _ | pred _ _ | ref _ _ | tvar _ | classRef _ =>
      cases s with
      | inter ss =>
          rw [Ty.permute_inter]
          exact hinter ss _
      | tvar v => refine hbound v ?_ ?_ <;> rfl
      | _ => rfl

/-- So it is for every two types that are no names. -/
theorem Rules.openGoal_permute (rules : Rules) (s d : Ty) :
    rules.openGoal r (s.permute π) (d.permute π) = (rules.openGoal r s d).permute π := by
  cases s with
  | union ss =>
      have hall : Goal.all ((ss.map (permute π)).map (.ask · (d.permute π))) =
          (Goal.all (ss.map (.ask · d))).permute π := by
        rw [Goal.permute_all, List.map_map, List.map_map]
        rfl
      rw [Ty.permute_union]
      exact hall
  | _ => exact structuralGoal_permute hr _ _ d

end Step

namespace Rules

variable {rules : Rules} {r : Option Resolver}

theorem early?_permute (rules : Rules) (s d : Ty) : rules.early? (s.permute π) (d.permute π) = rules.early? s d := by
  simp only [early?, Ty.isUnknown_permute, Ty.isNever_permute, Ty.isNil_permute, Ty.equal_permute,
    Ty.predToBoolean_permute]

theorem opensNames_permute (s d : Ty) : opensNames (s.permute π) (d.permute π) = opensNames s d := by
  simp only [opensNames, Ty.isUnion_permute, Ty.isNamed_permute]

/-! ### Whole comparisons -/

/-- Two comparisons of names that are met have one text if and only if they have one after the
permutation. -/
def SameTexts (rules : Rules) (r : Resolver) (π : Perm String) (s₀ d₀ : Ty) : Prop :=
  ∀ s d s' d', rules.Met r s₀ d₀ s d → rules.Met r s₀ d₀ s' d' → opensNames s d = true →
    opensNames s' d' = true →
    (comparisonKey s d = comparisonKey s' d' ↔
      comparisonKey (s.permute π) (d.permute π) = comparisonKey (s'.permute π) (d'.permute π))

end Rules

/-- Whether a text is in a list is the same for texts of two kinds that agree on equality. -/
theorem contains_map_of_iff {α : Type} (k k' : α → String) (x : α) {xs : List α}
    (h : ∀ y ∈ xs, k x = k y ↔ k' x = k' y) : (xs.map k').contains (k' x) = (xs.map k).contains (k x) := by
  rw [Bool.eq_iff_iff, List.contains_iff_mem, List.contains_iff_mem, List.mem_map, List.mem_map]
  refine exists_congr fun y => and_congr_right fun hy => ?_
  rw [eq_comm, ← h y hy, eq_comm]

namespace Rules

variable {rules : Rules} {r : Option Resolver}

/-- **Comparisons do not tell names apart**, at any depth.  The comparisons in progress are met, so the
texts by which they are known agree before the permutation where they agree after it. -/
theorem assignUpTo_permute (hr : ∀ r' ∈ r, r'.Blind π) {s₀ d₀ : Ty}
    (htexts : ∀ r' ∈ r, rules.SameTexts r' π s₀ d₀) {n : Nat} (pending : List (Ty × Ty)) {s d : Ty}
    (hpending : ∀ r' ∈ r, ∀ p ∈ pending, rules.Met r' s₀ d₀ p.1 p.2 ∧ opensNames p.1 p.2 = true)
    (hmet : ∀ r' ∈ r, rules.Met r' s₀ d₀ s.predToBoolean d.predToBoolean) :
    assignUpTo rules r n (pending.map fun p => comparisonKey (p.1.permute π) (p.2.permute π)) (s.permute π)
        (d.permute π) =
      assignUpTo rules r n (pending.map fun p => comparisonKey p.1 p.2) s d := by
  induction n generalizing pending s d with
  | zero => rfl
  | succ n ih =>
      rw [assignUpTo_succ, assignUpTo_succ, early?_permute, Ty.predToBoolean_permute, Ty.predToBoolean_permute,
        opensNames_permute, openGoal_permute hr]
      congr 1
      funext _
      generalize s.predToBoolean = s at hmet ⊢
      generalize d.predToBoolean = d at hmet ⊢
      split
      · next hnames =>
          cases r with
          | none => rfl
          | some r' =>
              have hmet := hmet r' rfl
              have hcontains := contains_map_of_iff (fun p : Ty × Ty => comparisonKey p.1 p.2)
                (fun p => comparisonKey (p.1.permute π) (p.2.permute π)) (s, d) fun p hp =>
                  htexts r' rfl _ _ _ _ hmet (hpending r' rfl p hp).1 hnames (hpending r' rfl p hp).2
              rw [assignNamed_some, assignNamed_some, Resolver.byName?_permute]
              cases r'.byName? s d with
              | some b => rfl
              | none =>
                  simp only
                  rw [hcontains]
                  split
                  · rfl
                  · refine (hr r' rfl).opened fun s' d' hs hd => ih ((s, d) :: pending) ?_ ?_
                    · rintro _ ⟨⟩ p hp
                      rcases List.mem_cons.1 hp with rfl | hp
                      · exact ⟨hmet, hnames⟩
                      · exact hpending r' rfl p hp
                    · rintro _ ⟨⟩
                      exact .opened hmet hnames hs hd
      · refine Goal.run_permute fun p hp => ih pending hpending fun r' hr' => ?_
        have hleads := leads_of_mem_asked hp
        rw [Option.mem_def.1 hr'] at hleads
        exact .leads (hmet r' hr') hleads

/-- **Permuted types compare like the types**, under definitions that do not tell the names apart. -/
theorem assignable_permute (hr : ∀ r' ∈ r, r'.Blind π) {s d : Ty}
    (htexts : ∀ r' ∈ r, rules.SameTexts r' π s d) :
    rules.assignable r (s.permute π) (d.permute π) = rules.assignable r s d := by
  rw [assignable, assignable, Ty.size_permute, Ty.size_permute]
  exact assignUpTo_permute hr htexts [] (fun _ _ p hp => absurd hp List.not_mem_nil) fun _ _ => .start

end Rules

end TreeCheck
