import TreeCheck.Proofs.Assign.Steps

/-!
# The comparison does not see the order of members

Equal types differ in the order of union, intersection and record members and in the names of
parameters.  None of the rules of the comparison looks at these, and adding or removing `nil` along the
way keeps types equal.  Rule by rule, a formula that is true of two types is true of types equal to them:

* `Carries` — a relation on types carries over to another one along equal types in normal form;
* `holds_objectGoal`, `holds_bareFuncGoal`, `holds_structuralGoal` — the formulas carry over too;
* `Rules.early?_congr` — the early answers are those of equal types;
* `Rules.assignable_none_congr`, `isAssignable_none_congr` — equal types are compared alike.
-/

namespace TreeCheck

/-! ### Related options and lists -/

theorem rel_some_right {α β : Type} {R : α → β → Prop} {o : Option α} {b : β}
    (h : Option.Rel R o (some b)) : ∃ a, o = some a ∧ R a b := by
  cases h with
  | some h => exact ⟨_, rfl, h⟩

theorem rel_none_right {α β : Type} {R : α → β → Prop} {o : Option α}
    (h : Option.Rel R o (none : Option β)) : o = none := by
  cases h
  rfl

/-- Lists that are related entry by entry have related entries at each position. -/
theorem rel_getElem? {α β : Type} {R : α → β → Prop} {xs : List α} {ys : List β}
    (h : List.Forall₂ R xs ys) (i : Nat) : Option.Rel R xs[i]? ys[i]? := by
  induction h generalizing i with
  | nil => exact .none
  | cons hxy _ ih =>
      cases i with
      | zero => exact .some hxy
      | succ i => simpa using ih i

theorem exists_of_forall₂ {α β : Type} {R : α → β → Prop} {xs : List α} {ys : List β}
    (h : List.Forall₂ R xs ys) : ∀ y ∈ ys, ∃ x ∈ xs, R x y := by
  induction h with
  | nil => simp
  | @cons x y xs ys hxy _ ih =>
      intro z hz
      rcases List.mem_cons.1 hz with rfl | hz
      · exact ⟨x, .head _, hxy⟩
      · obtain ⟨w, hw, hwz⟩ := ih z hz
        exact ⟨w, .tail _ hw, hwz⟩

/-! ### Equal signatures -/

section Params

open Ty

variable {f g : Func} (h : List.Forall₂ (SameParam equal) f.params g.params)

include h

theorem rel_rest? : Option.Rel (SameParam equal) f.rest? g.rest? := by
  have hlast : Option.Rel (SameParam equal) f.params.getLast? g.params.getLast? := by
    rw [List.getLast?_eq_getElem?, List.getLast?_eq_getElem?, h.length_eq]
    exact rel_getElem? h _
  unfold FuncOf.rest?
  generalize f.params.getLast? = p at hlast
  generalize g.params.getLast? = q at hlast
  cases hlast with
  | none => exact .none
  | @some p q hpq =>
      rw [Option.filter_some, Option.filter_some, hpq.rest]
      cases q.rest with
      | false => exact .none
      | true => exact .some hpq

/-- Equal signatures take equal arguments at each position. -/
theorem rel_paramAt? (i : Nat) :
    Option.Rel (fun a b => a.equal b = true) (f.paramAt? i) (g.paramAt? i) := by
  have hrest : Option.Rel (fun a b => Ty.equal a b = true) (f.rest?.map (·.type))
      (g.rest?.map (·.type)) := by
    have hr := rel_rest? h
    generalize f.rest? = p at hr
    generalize g.rest? = q at hr
    cases hr with
    | none => exact .none
    | some hpq => exact .some hpq.type
  have hat := rel_getElem? h i
  unfold FuncOf.paramAt?
  generalize f.params[i]? = p at hat
  generalize g.params[i]? = q at hat
  cases hat with
  | none => exact hrest
  | @some p q hpq =>
      simp only [hpq.rest]
      split
      · exact hrest
      · exact .some hpq.type

theorem required_eq : f.required = g.required := by
  unfold FuncOf.required
  generalize f.params = ps at h
  generalize g.params = qs at h
  induction h with
  | nil => rfl
  | cons hpq _ ih =>
      rw [List.takeWhile_cons, List.takeWhile_cons, hpq.optional, hpq.rest]
      split
      · rw [List.length_cons, List.length_cons, ih]
      · rfl

end Params

/-! ### Formulas -/

/-- What holds of two types holds, in the second sense, of types in normal form equal to them. -/
def Carries (R R' : Ty → Ty → Prop) : Prop :=
  ∀ ⦃s d s' d' : Ty⦄, s.Normal → d.Normal → s'.Normal → d'.Normal → s.equal s' = true →
    d.equal d' = true → R s d → R' s' d'

section Formulas

open Ty Goal

variable {R R' : Ty → Ty → Prop} (hR : Carries R R')

include hR

/-- Members of two equal records, name by name. -/
theorem holds_memberGoal {s s' : Object} (hs : Normal (.object s)) (hs' : Normal (.object s'))
    (hrel : ∀ x, Option.Rel (SameMember equal) (s.find? x) (s'.find? x)) {m n : Member}
    (hm : m.type.Normal) (hn : n.type.Normal) (hname : m.name = n.name) (hmn : SameMember equal m n)
    (h : (memberGoal s m).Holds R) : (memberGoal s' n).Holds R' := by
  have hx := hrel n.name
  unfold memberGoal at h ⊢
  rw [hname] at h
  cases hfind' : s'.find? n.name with
  | none =>
      rw [hfind'] at hx
      rw [rel_none_right hx] at h
      simpa [hmn.optional] using h
  | some own' =>
      rw [hfind'] at hx
      obtain ⟨own, hfind, hown⟩ := rel_some_right hx
      have ho := hs.part (.member (ObjectOf.mem_of_find? hfind).1 rfl)
      have ho' := hs'.part (.member (ObjectOf.mem_of_find? hfind').1 rfl)
      rw [hfind] at h
      simp only [hown.optional, hmn.optional] at h ⊢
      split
      · rename_i hopt
        rw [if_pos hopt] at h
        cases h
      · rename_i hopt
        rw [if_neg hopt] at h
        split
        · rename_i hwant
          rw [if_pos hwant] at h
          exact hR (normal_removeNil ho) (normal_nullable hm) (normal_removeNil ho')
            (normal_nullable hn) (equal_removeNil ho ho' hown.type) (equal_nullable hm hn hmn.type) h
        · rename_i hwant
          rw [if_neg hwant] at h
          exact hR ho hm ho' hn hown.type hmn.type h

/-- The formula for records does not tell equal records apart. -/
theorem holds_objectGoal {s s' d d' : Object} (hs : Normal (.object s)) (hs' : Normal (.object s'))
    (hd : Normal (.object d)) (hd' : Normal (.object d')) (hss : sameObject equal s s' = true)
    (hdd : sameObject equal d d' = true) (h : (objectGoal s d).Holds R) :
    (objectGoal s' d').Holds R' := by
  obtain ⟨hsmem, hsidx⟩ := (sameObject_iff hs.head hs'.head).1 hss
  obtain ⟨hdmem, hdidx⟩ := (sameObject_iff hd.head hd'.head).1 hdd
  rw [objectGoal, holds_both, holds_all] at h ⊢
  obtain ⟨hmembers, hindex⟩ := h
  refine ⟨?_, ?_⟩
  · intro g hg
    obtain ⟨n, hn, rfl⟩ := List.mem_map.1 hg
    have hx := hdmem n.name
    rw [ObjectOf.find?_of_mem hd'.head hn] at hx
    obtain ⟨m, hfind, hmn⟩ := rel_some_right hx
    obtain ⟨hm, hname⟩ := ObjectOf.mem_of_find? hfind
    exact holds_memberGoal hR hs hs' hsmem (hd.part (.member hm rfl)) (hd'.part (.member hn rfl))
      hname hmn (hmembers _ (List.mem_map_of_mem hm))
  · unfold indexGoal at hindex ⊢
    cases hi' : d'.index with
    | none => rfl
    | some i' =>
        rw [hi'] at hdidx
        obtain ⟨i, hi, hkey, hvalue⟩ := rel_some_right hdidx
        rw [hi] at hindex
        simp only [holds_both, holds_all] at hindex ⊢
        obtain ⟨hextra, hvalues⟩ := hindex
        refine ⟨?_, ?_⟩
        · intro g hg
          obtain ⟨n, hn, rfl⟩ := List.mem_map.1 hg
          have hx := hsmem n.name
          rw [ObjectOf.find?_of_mem hs'.head hn] at hx
          obtain ⟨m, hfind, hmn⟩ := rel_some_right hx
          obtain ⟨hm, hname⟩ := ObjectOf.mem_of_find? hfind
          have hgoal := hextra _ (List.mem_map_of_mem hm)
          have hd? : (d.find? n.name).isSome = (d'.find? n.name).isSome := by
            have hrel := hdmem n.name
            generalize d.find? n.name = x at hrel
            generalize d'.find? n.name = y at hrel
            cases hrel <;> rfl
          unfold extraGoal at hgoal ⊢
          rw [hname, hd?] at hgoal
          split
          · rfl
          · rename_i hnone
            rw [if_neg hnone] at hgoal
            exact ⟨hR (normal_str _) (hd.part (.key hi rfl)) (normal_str _) (hd'.part (.key hi' rfl))
                (equivOn_wellFormed.refl (normal_str _).wellFormed) hkey hgoal.1,
              hR (hs.part (.member hm rfl)) (hd.part (.value hi rfl)) (hs'.part (.member hn rfl))
                (hd'.part (.value hi' rfl)) hmn.type hvalue hgoal.2⟩
        · cases hj' : s'.index with
          | none => rfl
          | some j' =>
              rw [hj'] at hsidx
              obtain ⟨j, hj, -, hsvalue⟩ := rel_some_right hsidx
              rw [hj] at hvalues
              exact hR (hs.part (.value hj rfl)) (hd.part (.value hi rfl)) (hs'.part (.value hj' rfl))
                (hd'.part (.value hi' rfl)) hsvalue hvalue hvalues

/-- Nor does the formula for a parameter tell equal types apart. -/
theorem holds_paramGoal {bivariant : Bool} {t t' u u' : Ty} (ht : t.Normal) (ht' : t'.Normal)
    (hu : u.Normal) (hu' : u'.Normal) (htt : t.equal t' = true) (huu : u.equal u' = true)
    (h : (paramGoal bivariant t u).Holds R) : (paramGoal bivariant t' u').Holds R' := by
  rw [paramGoal, holds_either] at h ⊢
  refine h.imp (hR ht hu ht' hu' htt huu) fun h => ?_
  cases bivariant with
  | false => exact h
  | true => exact hR hu ht hu' ht' huu htt h

/-- Nor does the formula for lists of parameters. -/
theorem holds_paramsGoal {bivariant : Bool} {d d' : Func} (hd : Normal (.func d))
    (hd' : Normal (.func d')) (hdd : List.Forall₂ (SameParam equal) d.params d'.params) {i : Nat}
    {ps qs : List Param} (hps : ∀ p ∈ ps, p.type.Normal) (hqs : ∀ q ∈ qs, q.type.Normal)
    (hpq : List.Forall₂ (SameParam equal) ps qs) (h : (paramsGoal bivariant d i ps).Holds R) :
    (paramsGoal bivariant d' i qs).Holds R' := by
  induction hpq generalizing i with
  | nil => rfl
  | @cons p q ps qs hpq _ ih =>
      have htail : (paramsGoal bivariant d (i + 1) ps).Holds R →
          (paramsGoal bivariant d' (i + 1) qs).Holds R' :=
        ih (fun p hp => hps p (.tail _ hp)) fun q hq => hqs q (.tail _ hq)
      have hp := hps p (.head _)
      have hq := hqs q (.head _)
      have hat := rel_paramAt? hdd i
      rw [paramsGoal] at h ⊢
      rw [hpq.rest, hpq.optional] at h
      split
      · rfl
      · rename_i hrest
        rw [if_neg hrest] at h
        cases ht' : d'.paramAt? i with
        | none =>
            rw [ht'] at hat
            rw [rel_none_right hat] at h
            simp only at h ⊢
            split
            · rename_i hopt
              rw [if_pos hopt] at h
              exact htail h
            · rename_i hopt
              rw [if_neg hopt] at h
              exact h
        | some t' =>
            rw [ht'] at hat
            obtain ⟨t, ht, htt⟩ := rel_some_right hat
            rw [ht] at h
            obtain ⟨k, hk, rfl⟩ := FuncOf.mem_of_paramAt? ht
            obtain ⟨l, hl, rfl⟩ := FuncOf.mem_of_paramAt? ht'
            refine ⟨?_, htail h.2⟩
            cases hopt : q.optional with
            | false =>
                have hone := h.1
                rw [hopt] at hone
                exact holds_paramGoal hR (hd.part (.param hk rfl)) (hd'.part (.param hl rfl)) hp hq
                  htt hpq.type hone
            | true =>
                have hone := h.1
                rw [hopt] at hone
                exact holds_paramGoal hR (hd.part (.param hk rfl)) (hd'.part (.param hl rfl))
                  (normal_nullable hp) (normal_nullable hq) htt (equal_nullable hp hq hpq.type) hone

/-- Nor does the formula for what a rest parameter takes. -/
theorem holds_restGoal {bivariant : Bool} {s s' d d' : Func} (hs : Normal (.func s))
    (hs' : Normal (.func s')) (hd : Normal (.func d)) (hd' : Normal (.func d'))
    (hss : List.Forall₂ (SameParam equal) s.params s'.params)
    (hdd : List.Forall₂ (SameParam equal) d.params d'.params)
    (h : (restGoal bivariant s d).Holds R) : (restGoal bivariant s' d').Holds R' := by
  have hrest := rel_rest? hss
  unfold restGoal at h ⊢
  cases hp' : s'.rest? with
  | none => rfl
  | some p' =>
      rw [hp'] at hrest
      obtain ⟨p, hp, hpp⟩ := rel_some_right hrest
      rw [hp, hss.length_eq, hdd.length_eq] at h
      simp only [holds_all, List.forall_mem_map] at h ⊢
      intro i hi
      have hgoal := h i hi
      have hat := rel_paramAt? hdd i
      cases ht' : d'.paramAt? i with
      | none => rfl
      | some t' =>
          rw [ht'] at hat
          obtain ⟨t, ht, htt⟩ := rel_some_right hat
          rw [ht] at hgoal
          obtain ⟨k, hk, rfl⟩ := FuncOf.mem_of_paramAt? ht
          obtain ⟨l, hl, rfl⟩ := FuncOf.mem_of_paramAt? ht'
          exact holds_paramGoal hR (hd.part (.param hk rfl)) (hd'.part (.param hl rfl))
            (hs.part (.param (FuncOf.mem_of_rest? hp).1 rfl))
            (hs'.part (.param (FuncOf.mem_of_rest? hp').1 rfl)) htt hpp.type hgoal

omit hR in
theorem holds_resultGoal_iff (s d : Func) :
    (resultGoal s d).Holds R ↔ d.result = .void ∨ R s.result d.result := by
  unfold resultGoal
  split
  · rename_i hvoid
    simp [hvoid]
  · rename_i hne
    exact ⟨Or.inr, fun h => h.resolve_left hne⟩

/-- Nor does the formula for signatures. -/
theorem holds_bareFuncGoal {bivariant : Bool} {s s' d d' : Func} (hs : Normal (.func s))
    (hs' : Normal (.func s')) (hd : Normal (.func d)) (hd' : Normal (.func d'))
    (hss : sameFunc equal s s' = true) (hdd : sameFunc equal d d' = true)
    (h : (bareFuncGoal bivariant s d).Holds R) : (bareFuncGoal bivariant s' d').Holds R' := by
  obtain ⟨hsparams, hsresult⟩ := (sameFunc_iff hs.head hs'.head).1 hss
  obtain ⟨hdparams, hdresult⟩ := (sameFunc_iff hd.head hd'.head).1 hdd
  have hnone : d.rest?.isNone = d'.rest?.isNone := by
    have hrest := rel_rest? hdparams
    generalize d.rest? = x at hrest
    generalize d'.rest? = y at hrest
    cases hrest <;> rfl
  unfold bareFuncGoal at h ⊢
  rw [hnone, hdparams.length_eq, required_eq hsparams] at h
  split
  · rename_i hfew
    rw [if_pos hfew] at h
    exact h
  · rename_i hfew
    rw [if_neg hfew] at h
    obtain ⟨hparams, hrest, hresult⟩ := h
    refine ⟨?_, ?_, ?_⟩
    · exact holds_paramsGoal hR hd hd' hdparams (fun p hp => hs.part (.param hp rfl))
        (fun q hq => hs'.part (.param hq rfl)) hsparams hparams
    · exact holds_restGoal hR hs hs' hd hd' hsparams hdparams hrest
    · rw [holds_resultGoal_iff] at hresult ⊢
      refine hresult.imp (prim_iff_of_equal hdresult _).1 ?_
      exact hR hs.result hd.result hs'.result hd'.result hsresult hdresult

/-- Nor does the formula for tuples. -/
theorem holds_tupleGoal {ss ss' ds ds' : List Ty} (hs : ∀ s ∈ ss, s.Normal)
    (hs' : ∀ s ∈ ss', s.Normal) (hd : ∀ d ∈ ds, d.Normal) (hd' : ∀ d ∈ ds', d.Normal)
    (hss : List.Forall₂ (fun a b => a.equal b = true) ss ss')
    (hdd : List.Forall₂ (fun a b => a.equal b = true) ds ds') (h : (tupleGoal ss ds).Holds R) :
    (tupleGoal ss' ds').Holds R' := by
  induction hdd generalizing ss ss' with
  | nil =>
      cases hss with
      | nil => rfl
      | cons _ _ => exact h
  | cons hdd _ ih =>
      have htail := fun {ss ss' : List Ty} (hs : ∀ s ∈ ss, s.Normal) (hs' : ∀ s ∈ ss', s.Normal) hss =>
        ih hs hs' (fun d hmem => hd d (.tail _ hmem)) (fun d hmem => hd' d (.tail _ hmem)) hss
      cases hss with
      | nil =>
          exact ⟨hR (normal_prim _) (hd _ (.head _)) (normal_prim _) (hd' _ (.head _))
            (equal_prim_iff.2 rfl) hdd h.1, htail hs hs' .nil h.2⟩
      | cons hss hrest =>
          exact ⟨hR (hs _ (.head _)) (hd _ (.head _)) (hs' _ (.head _)) (hd' _ (.head _)) hss hdd h.1,
            htail (fun s hmem => hs s (.tail _ hmem)) (fun s hmem => hs' s (.tail _ hmem)) hrest h.2⟩

/-- Each member of one list is equal to a member of the other. -/
theorem holds_all_src {ss ss' : List Ty} {d d' : Ty} (hs : ∀ s ∈ ss, s.Normal)
    (hs' : ∀ s ∈ ss', s.Normal) (hd : d.Normal) (hd' : d'.Normal)
    (hss : ∀ s' ∈ ss', ∃ s ∈ ss, s.equal s' = true) (hdd : d.equal d' = true)
    (h : (all (ss.map (ask · d))).Holds R) : (all (ss'.map (ask · d'))).Holds R' := by
  simp only [holds_all, List.forall_mem_map, holds_ask] at h ⊢
  intro s' hmem'
  obtain ⟨s, hmem, heq⟩ := hss s' hmem'
  exact hR (hs s hmem) hd (hs' s' hmem') hd' heq hdd (h s hmem)

theorem holds_all_dst {s s' : Ty} {ds ds' : List Ty} (hs : s.Normal) (hs' : s'.Normal)
    (hd : ∀ d ∈ ds, d.Normal) (hd' : ∀ d ∈ ds', d.Normal) (hss : s.equal s' = true)
    (hdd : ∀ d' ∈ ds', ∃ d ∈ ds, d.equal d' = true) (h : (all (ds.map (ask s))).Holds R) :
    (all (ds'.map (ask s'))).Holds R' := by
  simp only [holds_all, List.forall_mem_map, holds_ask] at h ⊢
  intro d' hmem'
  obtain ⟨d, hmem, heq⟩ := hdd d' hmem'
  exact hR hs (hd d hmem) hs' (hd' d' hmem') hss heq (h d hmem)

theorem holds_any_src {ss ss' : List Ty} {d d' : Ty} (hs : ∀ s ∈ ss, s.Normal)
    (hs' : ∀ s ∈ ss', s.Normal) (hd : d.Normal) (hd' : d'.Normal)
    (hss : ∀ s ∈ ss, ∃ s' ∈ ss', s.equal s' = true) (hdd : d.equal d' = true)
    (h : (any (ss.map (ask · d))).Holds R) : (any (ss'.map (ask · d'))).Holds R' := by
  rw [holds_any] at h ⊢
  obtain ⟨g, hg, h⟩ := h
  obtain ⟨s, hmem, rfl⟩ := List.mem_map.1 hg
  obtain ⟨s', hmem', heq⟩ := hss s hmem
  exact ⟨_, List.mem_map_of_mem hmem', hR (hs s hmem) hd (hs' s' hmem') hd' heq hdd h⟩

theorem holds_any_dst {s s' : Ty} {ds ds' : List Ty} (hs : s.Normal) (hs' : s'.Normal)
    (hd : ∀ d ∈ ds, d.Normal) (hd' : ∀ d ∈ ds', d.Normal) (hss : s.equal s' = true)
    (hdd : ∀ d ∈ ds, ∃ d' ∈ ds', d.equal d' = true) (h : (any (ds.map (ask s))).Holds R) :
    (any (ds'.map (ask s'))).Holds R' := by
  rw [holds_any] at h ⊢
  obtain ⟨g, hg, h⟩ := h
  obtain ⟨d, hmem, rfl⟩ := List.mem_map.1 hg
  obtain ⟨d', hmem', heq⟩ := hdd d hmem
  exact ⟨_, List.mem_map_of_mem hmem', hR hs (hd d hmem) hs' (hd' d' hmem') hss heq h⟩

/-- A type that fits a member of a union, or the truth values that fit it together. -/
theorem holds_unionGoal {s s' : Ty} {ds ds' : List Ty} (hs : s.Normal) (hs' : s'.Normal)
    (hd : Normal (.union ds)) (hd' : Normal (.union ds')) (hss : s.equal s' = true)
    (hdd : equal (.union ds) (.union ds') = true)
    (hcover : ∀ d ∈ ds, ∃ d' ∈ ds', d.equal d' = true) (h : (unionGoal s ds).Holds R) :
    (unionGoal s' ds').Holds R' := by
  have htruth : ∀ b : Bool, R (.bool b) (.union ds) → R' (.bool b) (.union ds') := fun b =>
    hR (normal_bool b) hd (normal_bool b) hd'
      (equivOn_wellFormed.refl (normal_bool b).wellFormed) hdd
  unfold unionGoal at h ⊢
  rw [holds_either] at h ⊢
  refine h.imp (holds_any_dst hR hs hs' (fun d hmem => hd.part (.union hmem))
    (fun d hmem => hd'.part (.union hmem)) hss hcover) fun h => ?_
  split at h
  · obtain rfl := equal_prim_iff.1 hss
    exact h.imp (htruth true) (htruth false)
  · cases h

end Formulas

/-- The members of equal sets have counterparts both ways. -/
theorem Ty.counterparts_of_sameSet {xs ys : List Ty} (hx : ∀ x ∈ xs, x.WellFormed)
    (hy : ∀ y ∈ ys, y.WellFormed) (hdist : xs.Pairwise fun a b => a.equal b = false)
    (h : sameSet equal xs ys = true) :
    (∀ x ∈ xs, ∃ y ∈ ys, x.equal y = true) ∧ ∀ y ∈ ys, ∃ x ∈ xs, x.equal y = true := by
  refine ⟨fun x hmem => ?_, (sameSet_iff.1 (equivOn_wellFormed.sameSet_symm hx hy hdist h)).2⟩
  obtain ⟨y, hmem', heq⟩ := (sameSet_iff.1 h).2 x hmem
  exact ⟨y, hmem', equivOn_wellFormed.symm (hy y hmem') (hx x hmem) heq⟩

theorem Lit.prim_of_same {a b : Lit} (h : a.same b = true) : a.prim = b.prim := by
  cases a <;> cases b <;> first | rfl | cases h

/-- Equal numbers are whole together; the two zeros are the only equal ones that differ. -/
theorem Number.isInteger_of_same {x y : Number} (h : same x y = true) :
    x.isInteger = y.isInteger := by
  have hzero : ∀ (s : Bool) (e : Int), isInteger (.finite s 0 e) = true := by
    intro s e
    cases s <;> simp [isInteger, toInt?, fitsSigned, twoTo]
  cases x with
  | nan => cases h
  | inf s =>
      cases y with
      | inf t => rfl
      | _ => cases h
  | finite s m e =>
      cases y with
      | finite t n f =>
          simp only [same, Bool.or_eq_true, Bool.and_eq_true, beq_iff_eq] at h
          rcases h with ⟨rfl, rfl⟩ | ⟨⟨rfl, rfl⟩, rfl⟩
          · rw [hzero, hzero]
          · rfl
      | _ => cases h

theorem Lit.isInteger_of_same {a b : Lit} (h : a.same b = true) : a.isInteger = b.isInteger := by
  cases a <;> cases b <;> first | rfl | cases h | exact Number.isInteger_of_same h

section Structural

open Ty Goal

/-- An intersection fits what is neither a union nor an intersection if some part does. -/
theorem structuralGoal_inter {bivariant : Bool} {r : Option Resolver} {ss : List Ty} {d : Ty}
    (hunion : ∀ ds, d ≠ .union ds) (hinter : ∀ ds, d ≠ .inter ds) :
    structuralGoal bivariant r (.inter ss) d = .any (ss.map (.ask · d)) := by
  cases d with
  | union ds => exact absurd rfl (hunion ds)
  | inter ds => exact absurd rfl (hinter ds)
  | _ => rfl

/-- A built-in type takes what the table of built-in types says. -/
theorem structuralGoal_prim {bivariant : Bool} {r : Option Resolver} {s : Ty} {p : Prim}
    (hinter : ∀ ss, s ≠ .inter ss) (htvar : ∀ v, s ≠ .tvar v) :
    structuralGoal bivariant r s (.prim p) = .answer (assignToPrim s p) := by
  cases s with
  | inter ss => exact absurd rfl (hinter ss)
  | tvar v => exact absurd rfl (htvar v)
  | _ => rfl

/-- The table of built-in types does not tell equal types apart. -/
theorem assignToPrim_congr {s s' : Ty} (hs : s.WellFormed) (hs' : s'.WellFormed)
    (h : s.equal s' = true) (p : Prim) : assignToPrim s p = assignToPrim s' p := by
  rw [equal_eq_sameNode hs hs'] at h
  cases s with
  | prim q =>
      obtain rfl := sameNode_prim_iff.1 h
      rfl
  | lit l =>
      obtain ⟨k, rfl, hlk⟩ := sameNode_lit_iff.1 h
      cases p <;> simp [assignToPrim, Lit.prim_of_same hlk, Lit.isInteger_of_same hlk]
  | _ => cases s' <;> first | rfl | cases h

variable {R R' : Ty → Ty → Prop} (hR : Carries R R')

include hR

/-- **The formula of two types carries over to types equal to them.** -/
theorem holds_structuralGoal {bivariant : Bool} {s s' d d' : Ty} (hs : s.Normal) (hs' : s'.Normal)
    (hd : d.Normal) (hd' : d'.Normal) (hss : s.equal s' = true) (hdd : d.equal d' = true)
    (h : (structuralGoal bivariant none s d).Holds R) :
    (structuralGoal bivariant none s' d').Holds R' := by
  have hsnode := hss
  have hdnode := hdd
  rw [equal_eq_sameNode hs.wellFormed hs'.wellFormed] at hsnode
  rw [equal_eq_sameNode hd.wellFormed hd'.wellFormed] at hdnode
  have hE := equivOn_wellFormed
  unfold structuralGoal at h
  split at h
  · rename_i ds
    obtain ⟨ds', rfl, hset⟩ := sameNode_union_iff.1 hdnode
    have hds : ∀ d ∈ ds, d.Normal := fun d hmem => hd.part (.union hmem)
    have hds' : ∀ d ∈ ds', d.Normal := fun d hmem => hd'.part (.union hmem)
    have hcover := counterparts_of_sameSet (fun d hmem => (hds d hmem).wellFormed)
      (fun d hmem => (hds' d hmem).wellFormed) (unionOf_eq_union_iff.1 hd.head).1.distinct hset
    exact holds_unionGoal hR hs hs' hd hd' hss hdd hcover.1 h
  · rename_i ds
    obtain ⟨ds', rfl, hset⟩ := sameNode_inter_iff.1 hdnode
    have hds : ∀ d ∈ ds, d.Normal := fun d hmem => hd.part (.inter hmem)
    have hds' : ∀ d ∈ ds', d.Normal := fun d hmem => hd'.part (.inter hmem)
    have hcover := counterparts_of_sameSet (fun d hmem => (hds d hmem).wellFormed)
      (fun d hmem => (hds' d hmem).wellFormed) (pairwise_of_interOf hd.head) hset
    exact holds_all_dst hR hs hs' hds hds' hss hcover.2 h
  · rename_i ss hunion hinter
    obtain ⟨ss', rfl, hset⟩ := sameNode_inter_iff.1 hsnode
    have hss : ∀ s ∈ ss, s.Normal := fun s hmem => hs.part (.inter hmem)
    have hss' : ∀ s ∈ ss', s.Normal := fun s hmem => hs'.part (.inter hmem)
    have hcover := counterparts_of_sameSet (fun s hmem => (hss s hmem).wellFormed)
      (fun s hmem => (hss' s hmem).wellFormed) (pairwise_of_interOf hs.head) hset
    rw [structuralGoal_inter]
    · exact holds_any_src hR hss hss' hd hd' hcover.1 hdd h
    · rintro ds' rfl
      cases d <;> first | cases hdnode | exact hunion _ rfl
    · rintro ds' rfl
      cases d <;> first | cases hdnode | exact hinter _ rfl
  · simp at h
  · rename_i hinter htvar
    obtain rfl := sameNode_prim_iff.1 hdnode
    rw [structuralGoal_prim, ← assignToPrim_congr hs.wellFormed hs'.wellFormed hss]
    · exact h
    · rintro ss' rfl
      cases s <;> first | cases hsnode | exact hinter _ rfl
    · rintro v' rfl
      cases s <;> first | cases hsnode | exact htvar _ rfl
  · obtain ⟨e, rfl, hd'e⟩ := sameNode_array_iff.1 hdnode
    obtain ⟨f, rfl, hs'f⟩ := sameNode_array_iff.1 hsnode
    exact hR (hs.part .array) (hd.part .array) (hs'.part .array) (hd'.part .array) hs'f hd'e h
  · obtain ⟨e, rfl, hd'e⟩ := sameNode_array_iff.1 hdnode
    obtain ⟨ss', rfl, hlist⟩ := sameNode_tuple_iff.1 hsnode
    exact holds_all_src hR (fun s hmem => hs.part (.tuple hmem)) (fun s hmem => hs'.part (.tuple hmem))
      (hd.part .array) (hd'.part .array) (exists_of_forall₂ (sameList_iff.1 hlist)) hd'e h
  · obtain ⟨ds', rfl, hdlist⟩ := sameNode_tuple_iff.1 hdnode
    obtain ⟨ss', rfl, hslist⟩ := sameNode_tuple_iff.1 hsnode
    rw [sameList_iff] at hdlist hslist
    rw [hdlist.length_eq, hslist.length_eq] at h
    simp only [structuralGoal]
    split
    · rename_i hlen
      rwa [if_pos hlen] at h
    · rename_i hlen
      rw [if_neg hlen] at h
      exact holds_tupleGoal hR (fun s hmem => hs.part (.tuple hmem))
        (fun s hmem => hs'.part (.tuple hmem)) (fun d hmem => hd.part (.tuple hmem))
        (fun d hmem => hd'.part (.tuple hmem)) hslist hdlist h
  · obtain ⟨e, rfl, hde⟩ := sameNode_object_iff.1 hdnode
    obtain ⟨o, rfl, hso⟩ := sameNode_object_iff.1 hsnode
    exact holds_objectGoal hR hs hs' hd hd' hso hde h
  · obtain ⟨e, rfl, hde⟩ := sameNode_func_iff.1 hdnode
    obtain ⟨o, rfl, hso⟩ := sameNode_func_iff.1 hsnode
    rw [funcGoal, FuncOf.erased_eq hs.head, FuncOf.erased_eq hd.head] at h
    change (funcGoal bivariant o e).Holds R'
    rw [funcGoal, FuncOf.erased_eq hs'.head, FuncOf.erased_eq hd'.head]
    exact holds_bareFuncGoal hR hs hs' hd hd' hso hde h
  · simp at h

/-- No step of the comparison tells equal types apart. -/
theorem holds_openGoal {rules : Rules} {s s' d d' : Ty} (hs : s.Normal) (hs' : s'.Normal)
    (hd : d.Normal) (hd' : d'.Normal) (hss : s.equal s' = true) (hdd : d.equal d' = true)
    (h : (rules.openGoal none s d).Holds R) : (rules.openGoal none s' d').Holds R' := by
  unfold Rules.openGoal at h
  split at h
  · rename_i ss
    have hnode := hss
    rw [equal_eq_sameNode hs.wellFormed hs'.wellFormed] at hnode
    obtain ⟨ss', rfl, hset⟩ := sameNode_union_iff.1 hnode
    have hss : ∀ s ∈ ss, s.Normal := fun s hmem => hs.part (.union hmem)
    have hss' : ∀ s ∈ ss', s.Normal := fun s hmem => hs'.part (.union hmem)
    have hcover := counterparts_of_sameSet (fun s hmem => (hss s hmem).wellFormed)
      (fun s hmem => (hss' s hmem).wellFormed) (unionOf_eq_union_iff.1 hs.head).1.distinct hset
    exact holds_all_src hR hss hss' hd hd' hcover.2 hdd h
  · rename_i hunion
    have hgoal : rules.openGoal none s' d' = structuralGoal rules.bivariant none s' d' := by
      unfold Rules.openGoal
      split
      · rw [equal_eq_sameNode hs.wellFormed hs'.wellFormed] at hss
        cases s <;> first | cases hss | exact absurd rfl (hunion _)
      · rfl
    rw [hgoal]
    exact holds_structuralGoal hR hs hs' hd hd' hss hdd h

end Structural

/-! ### The comparison -/

section Equal

variable {a a' b b' : Ty} (ha : a.Normal) (ha' : a'.Normal) (hb : b.Normal) (hb' : b'.Normal)
  (haa : a.equal a' = true) (hbb : b.equal b' = true)

include ha ha' haa

theorem Ty.equal_predToBoolean : a.predToBoolean.equal a'.predToBoolean = true := by
  have hnode := haa
  rw [equal_eq_sameNode ha.wellFormed ha'.wellFormed] at hnode
  cases a with
  | pred x t =>
      obtain ⟨t', rfl, -⟩ := sameNode_pred_iff.1 hnode
      exact equal_prim_iff.2 rfl
  | _ => cases a' <;> first | exact haa | cases hnode

theorem Ty.isUnion_of_equal : a.isUnion = a'.isUnion := by
  rw [equal_eq_sameNode ha.wellFormed ha'.wellFormed] at haa
  cases a <;> cases a' <;> first | rfl | cases haa

theorem Ty.isNamed_of_equal : a.isNamed = a'.isNamed := by
  rw [equal_eq_sameNode ha.wellFormed ha'.wellFormed] at haa
  cases a <;> cases a' <;> first | rfl | cases haa

include hb hb' hbb

/-- Equality itself does not see the difference between equal types. -/
theorem Ty.equal_congr : a.equal b = a'.equal b' := by
  have hE := equivOn_wellFormed
  have ha := ha.wellFormed
  have ha' := ha'.wellFormed
  have hb := hb.wellFormed
  have hb' := hb'.wellFormed
  rw [Bool.eq_iff_iff]
  constructor
  · intro h
    exact hE.trans ha' ha hb' (hE.symm ha ha' haa) (hE.trans ha hb hb' h hbb)
  · intro h
    exact hE.trans ha ha' hb haa (hE.trans ha' hb' hb h (hE.symm hb hb' hbb))

namespace Rules

variable {rules : Rules}

theorem opensNames_congr : opensNames a b = opensNames a' b' := by
  unfold opensNames
  rw [Ty.isUnion_of_equal ha ha' haa, Ty.isNamed_of_equal ha ha' haa, Ty.isNamed_of_equal hb hb' hbb]

theorem early?_congr : rules.early? a b = rules.early? a' b' := by
  have hpred := Ty.equal_congr (Ty.normal_predToBoolean ha) (Ty.normal_predToBoolean ha')
    (Ty.normal_predToBoolean hb) (Ty.normal_predToBoolean hb') (Ty.equal_predToBoolean ha ha' haa)
    (Ty.equal_predToBoolean hb hb' hbb)
  unfold early?
  rw [Ty.isUnknown_of_equal haa, Ty.isUnknown_of_equal hbb, Ty.isNever_of_equal haa,
    Ty.isNever_of_equal hbb, Ty.isNil_of_equal haa, Ty.equal_congr ha ha' hb hb' haa hbb, hpred]

end Rules

end Equal

namespace Rules

variable {rules : Rules}

/-- The induction is on the depth of the first comparison: what it finds to hold of two types, the
comparison of types equal to them finds too. -/
theorem assignable_none_of_equal (n : Nat) :
    Carries (fun a b => assignUpTo rules none n [] a b = .ok true)
      fun a b => rules.assignable none a b = .ok true := by
  induction n with
  | zero =>
      intro a b a' b' _ _ _ _ _ _ h
      cases h
  | succ n ih =>
      intro a b a' b' ha hb ha' hb' haa hbb h
      have hpa := Ty.normal_predToBoolean ha
      have hpb := Ty.normal_predToBoolean hb
      have hpa' := Ty.normal_predToBoolean ha'
      have hpb' := Ty.normal_predToBoolean hb'
      have hpaa := Ty.equal_predToBoolean ha ha' haa
      have hpbb := Ty.equal_predToBoolean hb hb' hbb
      rw [assignUpTo_none_succ, early?_congr ha ha' hb hb' haa hbb,
        opensNames_congr hpa hpa' hpb hpb' hpaa hpbb] at h
      have hok : ∃ answer, rules.assignable none a' b' = .ok answer := assignable_none_ok ha' hb'
      rw [assignable_none_eq ha' hb'] at hok ⊢
      cases hearly : rules.early? a' b' with
      | some answer =>
          rw [hearly] at h
          exact h
      | none =>
          rw [hearly] at h hok
          simp only at h hok ⊢
          split
          · rename_i hnamed
            rw [if_pos hnamed] at h
            exact h
          · rename_i hnamed
            rw [if_neg hnamed] at h hok
            have hholds := Goal.holds_mono (Goal.holds_of_run h) fun s d _ hsd => hsd.2
            have hgoal := holds_openGoal ih hpa hpa' hpb hpb' hpaa hpbb hholds
            have hne : (rules.openGoal none a'.predToBoolean b'.predToBoolean).run
                (rules.assignable none) ≠ .ok false :=
              Goal.run_ne_false hgoal fun s d hsd => by rw [hsd]; simp
            obtain ⟨answer, hanswer⟩ := hok
            cases answer with
            | false => exact absurd hanswer hne
            | true => exact hanswer

/-- Equal types in normal form are compared alike under any rules. -/
theorem assignable_none_congr {a a' b b' : Ty} (ha : a.Normal) (ha' : a'.Normal) (hb : b.Normal)
    (hb' : b'.Normal) (haa : a.equal a' = true) (hbb : b.equal b' = true) :
    ∃ answer, rules.assignable none a b = .ok answer ∧ rules.assignable none a' b' = .ok answer := by
  have hE := Ty.equivOn_wellFormed
  have haa' := hE.symm ha.wellFormed ha'.wellFormed haa
  have hbb' := hE.symm hb.wellFormed hb'.wellFormed hbb
  obtain ⟨x, hx⟩ : ∃ x, rules.assignable none a b = .ok x := assignable_none_ok ha hb
  obtain ⟨y, hy⟩ : ∃ y, rules.assignable none a' b' = .ok y := assignable_none_ok ha' hb'
  cases x with
  | true => exact ⟨true, hx, assignable_none_of_equal _ ha hb ha' hb' haa hbb hx⟩
  | false =>
      cases y with
      | false => exact ⟨false, hx, hy⟩
      | true =>
          have hx' : rules.assignable none a b = .ok true :=
            assignable_none_of_equal _ ha' hb' ha hb haa' hbb' hy
          rw [hx] at hx'
          cases hx'

end Rules

/-- **Assignability does not see representation order.**  Equal types in normal form get the same
answer, and they get one. -/
theorem isAssignable_none_congr {a a' b b' : Ty} (ha : a.Normal) (ha' : a'.Normal) (hb : b.Normal)
    (hb' : b'.Normal) (haa : a.equal a' = true) (hbb : b.equal b' = true) :
    ∃ answer, isAssignable none a b = .ok answer ∧ isAssignable none a' b' = .ok answer :=
  Rules.assignable_none_congr ha ha' hb hb' haa hbb

/-- Two records that list their members and the members of a union the other way round. -/
theorem isAssignable_none_congr_reversed :
    ∃ answer,
      isAssignable none
        (.object { members := [{ name := "x", type := .union [.string, .nil] },
          { name := "y", type := .number }] })
        (.object { members := [{ name := "x", type := .union [.nil, .string] }] }) = .ok answer ∧
      isAssignable none
        (.object { members := [{ name := "y", type := .number },
          { name := "x", type := .union [.nil, .string] }] })
        (.object { members := [{ name := "x", type := .union [.string, .nil] }] }) = .ok answer := by
  have hunion : ∀ {p q : Prim}, Ty.unionOf [.prim p, .prim q] = .union [.prim p, .prim q] →
      Ty.Normal (.union [.prim p, .prim q]) := by
    intro p q h
    refine .intro h fun u hu => ?_
    cases hu with
    | union hu =>
        rcases List.mem_pair.1 hu with rfl | rfl <;> exact Ty.normal_prim _
  have hstring : Ty.Normal (.union [.string, .nil]) := hunion rfl
  have hnil : Ty.Normal (.union [.nil, .string]) := hunion rfl
  have hobject : ∀ {ms : List Member}, (ms.map (·.name)).Nodup → (∀ m ∈ ms, m.type.Normal) →
      Ty.Normal (.object { members := ms }) := by
    intro ms hnames hms
    refine .intro hnames fun u hu => ?_
    cases hu with
    | member hm h => exact h ▸ hms _ hm
    | key h => cases h
    | value h => cases h
  refine isAssignable_none_congr (hobject (by decide) ?_) (hobject (by decide) ?_)
    (hobject (by decide) ?_) (hobject (by decide) ?_) rfl rfl
  all_goals simp [hstring, hnil, Ty.normal_prim]

end TreeCheck
