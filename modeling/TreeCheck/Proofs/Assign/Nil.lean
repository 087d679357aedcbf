import TreeCheck.Proofs.Assign.Levels
import TreeCheck.Proofs.Assign.Recursive

/-!
# Types that list `nil`

Where a type lists `nil`, everything that the type fits takes `nil` as well.  With definitions a comparison
need not end, so what is shown is that `nil` is never refused; without definitions it is accepted.

* `Rules.exists_closed` — a positive answer comes from a relation that every step keeps;
* `NormalNames`, `Alike` — names that stand for types in normal form, and types that are equal to some depth;
* `ListsNil` — `nil` is the type, a member of a union, in all parts of an intersection, or so in what a name stands
  for;
* `closed_nilTo` — from what a type fits to what `nil` fits, step by step;
* `AcceptsNil`, `acceptsNil_of_listsNil`, `acceptsNil_nullable` — types where `nil` is not refused.
-/

namespace TreeCheck

open Ty

namespace Rules

variable {r : Option Resolver} {s d : Ty}

theorem closed_equal : ({} : Rules).Closed r fun s d => s.equal d = true :=
  fun _ _ h => Or.inl (early?_of_equal h)

/-- Fitting is kept by every step of the comparison. -/
theorem closed_fits :
    ({} : Rules).Closed none fun s d => (∃ h k, Low h s ∧ Low k d) ∧ Fits s d := by
  rintro s d ⟨⟨h, k, hs, hd⟩, hfits⟩
  rw [fits_iff_of_low hs hd] at hfits
  cases hearly : early? {} s d with
  | some b =>
      rw [hearly] at hfits
      exact Or.inl (congrArg some hfits)
  | none =>
      rw [hearly] at hfits
      refine Or.inr ⟨rfl, ?_⟩
      rw [StepAt, if_neg (by simp [hfits.1])]
      obtain ⟨i, hi, -⟩ := exists_low_predToBoolean hs
      obtain ⟨j, hj, -⟩ := exists_low_predToBoolean hd
      refine Goal.holds_mono hfits.2 fun s' d' hask hsd => ⟨?_, hsd⟩
      obtain ⟨h', k', hlow, -⟩ := (leads_of_mem_asked hask).exists_level hi hj
      exact ⟨h', k', hlow⟩

/-- **A positive answer comes from a relation that every step keeps.** -/
theorem exists_closed (hs : s.Canonical) (hd : d.Canonical)
    (htells : ∀ r', r = some r' → ({} : Rules).TellsApart r' s d) (h : isAssignable r s d = .ok true) :
    ∃ R, ({} : Rules).Closed r R ∧ R s d := by
  cases r with
  | none => exact ⟨_, closed_fits, ⟨_, _, hs.low, hd.low⟩, h⟩
  | some r =>
      refine ⟨_, closed_compatible r, compatible_of_assignUpTo (htells r rfl) (by simp) .start h⟩

end Rules

/-! ### Types that list `nil` -/

/-- Names stand for types in normal form. -/
def NormalNames (r : Option Resolver) : Prop := ∀ r' t u, r = some r' → r'.expand t = .ok (some u) → u.Canonical

/-- The types are the same, or they are no unions and equal down to some depth, either way. -/
def Alike (t d : Ty) : Prop :=
  t = d ∨ t.isUnion = false ∧ ∃ n, equalUpTo n t d = true ∨ equalUpTo n d t = true

/-- `nil` or `void` is the type, a member of a union, listed by all parts of an intersection and of those that are
equal to it, or listed by what the name of the type stands for, with its arguments or equal ones.  `unknown` lists
nothing, nor does a name that stands for nothing, or for no more than itself: they take every type, but they also
are taken everywhere. -/
inductive Ty.ListsNil (r : Option Resolver) : Ty → Prop
  | nil : ListsNil r .nil
  | void : ListsNil r .void
  | member {ts : List Ty} {t : Ty} : t ∈ ts → t.isUnion = false → ListsNil r t → ListsNil r (.union ts)
  | parts {ts : List Ty} : NormalNames r →
      (∀ us, Canonical (.inter us) → Alike (.inter ts) (.inter us) → ∀ u ∈ us, ListsNil r u) → ListsNil r (.inter ts)
  | name {r' : Resolver} {x : String} {args : List Ty} {u : Ty} : r = some r' → r'.isClass x = false →
      r'.expand (.ref x args) = .ok (some u) →
      (∀ args' v, Alike (.ref x args) (.ref x args') → r'.expand (.ref x args') = .ok (some v) → ListsNil r v) →
      ListsNil r (.ref x args)

section ListsNil

variable {r : Option Resolver} {C : Ty → Ty → Prop} {s t d : Ty}

/-- Both types are in normal form, if what names stand for is. -/
def BothNormal (r : Option Resolver) (t d : Ty) : Prop := NormalNames r → t.Canonical ∧ d.Canonical

/-- `nil` and what is fitted, or nearly so, by a type that lists `nil`. -/
def NilTo (r : Option Resolver) (C : Ty → Ty → Prop) (s d : Ty) : Prop :=
  s = .nil ∧ ∃ t, t.ListsNil r ∧ BothNormal r t d ∧ (Alike t d ∨ C t d)

/-- What is kept in one step from `nil`. -/
def KeptNil (r : Option Resolver) (C : Ty → Ty → Prop) (d : Ty) : Prop :=
  Rules.early? {} .nil d = some true ∨
    Rules.early? {} .nil d = none ∧ ({} : Rules).StepAt r (NilTo r C) .nil d.predToBoolean

/-- What one step asks of a type that `nil` fits is kept. -/
theorem keptNil_of_step (hnever : d.isNever = false)
    (hstep : ({} : Rules).StepAt r (NilTo r C) .nil d.predToBoolean) : KeptNil r C d := by
  cases hearly : Rules.early? {} .nil d with
  | some b =>
      cases b with
      | true => exact Or.inl hearly
      | false =>
          rw [isNever_of_early hearly] at hnever
          cases hnever
  | none => exact Or.inr ⟨hearly, hstep⟩

/-- Steps from `nil` to a union, by one of the members. -/
theorem stepAt_nil_union {ts : List Ty} {R : Ty → Ty → Prop} (h : ∃ m ∈ ts, R .nil m) :
    ({} : Rules).StepAt r R .nil (.union ts) := by
  obtain ⟨m, hm, hR⟩ := h
  exact Or.inl ((Goal.holds_any _).2 ⟨.ask .nil m, List.mem_map_of_mem hm, hR⟩)

/-- Steps from `nil` to an intersection, by all of the parts. -/
theorem stepAt_nil_inter {ts : List Ty} {R : Ty → Ty → Prop} (h : ∀ m ∈ ts, R .nil m) :
    ({} : Rules).StepAt r R .nil (.inter ts) :=
  (Goal.holds_all _).2 (List.forall_mem_map.2 h)

/-- Steps from `nil` to a name, by what it stands for. -/
theorem stepAt_nil_ref {r' : Resolver} {x : String} {args : List Ty} {R : Ty → Ty → Prop}
    (h : ∀ v, r'.expand (.ref x args) = .ok (some v) → R .nil v) :
    ({} : Rules).StepAt (some r') R .nil (.ref x args) := by
  refine ⟨r', rfl, fun s' d' hs hd => ?_⟩
  cases hs
  exact h d' hd

/-! What is alike. -/

/-- Types that are alike have the same head. -/
theorem Alike.exists_sameNode (h : Alike t d) :
    t = d ∨ ∃ eq, sameNode eq t d = true ∨ sameNode eq d t = true := by
  rcases h with rfl | ⟨-, n, h⟩
  · exact Or.inl rfl
  · cases n with
    | zero => rcases h with h | h <;> cases h
    | succ n => exact Or.inr ⟨_, by simpa only [equalUpTo_succ] using h⟩

theorem Alike.eq_prim {p : Prim} (h : Alike (.prim p) d) : d = .prim p := by
  rcases h.exists_sameNode with rfl | ⟨eq, h | h⟩
  · rfl
  · exact sameNode_prim_iff.1 h
  · cases d <;> simp only [sameNode, beq_iff_eq, Bool.false_eq_true] at h
    rw [h]

theorem Alike.eq_union {ts : List Ty} (h : Alike (.union ts) d) : d = .union ts := by
  rcases h with rfl | ⟨hunion, -⟩
  · rfl
  · cases hunion

theorem Alike.exists_inter {ts : List Ty} (h : Alike (.inter ts) d) : ∃ us, d = .inter us := by
  rcases h.exists_sameNode with rfl | ⟨eq, h | h⟩
  · exact ⟨ts, rfl⟩
  · obtain ⟨us, rfl, -⟩ := sameNode_inter_iff.1 h
    exact ⟨us, rfl⟩
  · cases d with
    | inter us => exact ⟨us, rfl⟩
    | _ => cases h

/-- What is like a name is the same name. -/
theorem Alike.exists_ref {x : String} {args : List Ty} (h : Alike (.ref x args) d) : ∃ args', d = .ref x args' := by
  rcases h.exists_sameNode with rfl | ⟨eq, h | h⟩
  · exact ⟨args, rfl⟩
  · obtain ⟨args', rfl, -⟩ := sameNode_ref_iff.1 h
    exact ⟨args', rfl⟩
  · cases d with
    | ref y args' =>
        obtain ⟨_, heq, -⟩ := sameNode_ref_iff.1 h
        cases heq
        exact ⟨args', rfl⟩
    | _ => cases h

/-- What is alike to a type that lists `nil` takes `nil`. -/
theorem keptNil_of_alike (ht : t.ListsNil r) (hnormal : BothNormal r t d) (h : Alike t d) : KeptNil r C d := by
  cases ht with
  | nil =>
      rw [h.eq_prim]
      exact Or.inl (Rules.early?_of_equal (equal_prim_iff.2 rfl))
  | void =>
      rw [h.eq_prim]
      exact keptNil_of_step rfl (show Goal.Holds (NilTo r C) (.answer true) from rfl)
  | @member ts m hm _ hlists =>
      obtain rfl := h.eq_union
      refine keptNil_of_step rfl (stepAt_nil_union ⟨m, hm, rfl, m, hlists, fun hr => ?_, Or.inl (Or.inl rfl)⟩)
      have hm := (hnormal hr).1.part (.union hm)
      exact ⟨hm, hm⟩
  | parts hr hall =>
      obtain ⟨us, rfl⟩ := h.exists_inter
      have hus := (hnormal hr).2
      exact keptNil_of_step rfl (stepAt_nil_inter fun u hu =>
        ⟨rfl, u, hall us hus h u hu, fun _ => ⟨hus.part (.inter hu), hus.part (.inter hu)⟩, Or.inl (Or.inl rfl)⟩)
  | @name r' x args u hr _ _ hall =>
      subst hr
      obtain ⟨args', rfl⟩ := h.exists_ref
      exact keptNil_of_step rfl (stepAt_nil_ref fun v hv =>
        ⟨rfl, v, hall args' v h hv, fun hr => ⟨hr r' _ v rfl hv, hr r' _ v rfl hv⟩, Or.inl (Or.inl rfl)⟩)

/-- What lists `nil` keeps it in an equal type. -/
theorem keptNil_of_equal (ht : t.ListsNil r) (hnormal : BothNormal r t d) (h : t.equal d = true) : KeptNil r C d := by
  cases hunion : t.isUnion with
  | false => exact keptNil_of_alike ht hnormal (Or.inr ⟨hunion, _, Or.inl h⟩)
  | true =>
      cases ht with
      | @member ts m hm hmember hlists =>
          rw [equal, depthBound, equalUpTo_succ] at h
          obtain ⟨us, rfl, hsame⟩ := sameNode_union_iff.1 h
          obtain ⟨u, hu, heq⟩ := (sameSet_iff.1 hsame).2 m hm
          exact keptNil_of_step rfl (stepAt_nil_union ⟨u, hu, rfl, m, hlists,
            fun hr => ⟨(hnormal hr).1.part (.union hm), (hnormal hr).2.part (.union hu)⟩,
            Or.inl (Or.inr ⟨hmember, _, Or.inr heq⟩)⟩)
      | _ => cases hunion

/-- One step from the target: to a part, or to what a name stands for. -/
def Beneath (r : Option Resolver) (d x : Ty) : Prop :=
  Part x d ∨ ∃ r', r = some r' ∧ r'.expand d = .ok (some x)

theorem Beneath.canonical {x : Ty} (h : Beneath r d x) (hr : NormalNames r) (hd : d.Canonical) : x.Canonical := by
  rcases h with h | ⟨r', hr', h⟩
  · exact hd.part h
  · exact hr r' d x hr' h

/-- The target is taken apart before the source is. -/
def Ty.leadsFirst : Ty → Bool
  | .union _ => true
  | .inter _ => true
  | .ref _ _ => true
  | .classRef _ => true
  | _ => false

/-- Where the target is taken apart first, the same steps are taken from `nil` as from `void` and from an
intersection. -/
theorem stepAt_nil_of_leadsFirst {R : Ty → Ty → Prop} (hs : s = .nil ∨ s = .void ∨ ∃ ts, s = .inter ts)
    (h : ({} : Rules).StepAt r C s d) (hsub : ∀ x, Beneath r d x → C s x → R .nil x) (hd : d.leadsFirst = true) :
    ({} : Rules).StepAt r R .nil d := by
  cases d with
  | union ds =>
      have hgoal : (unionGoal s ds).Holds C := by rcases hs with rfl | rfl | ⟨ts, rfl⟩ <;> exact h
      refine stepAt_nil_union ?_
      rcases hgoal with hany | hboolean
      · obtain ⟨g, hg, hC⟩ := (Goal.holds_any _).1 hany
        obtain ⟨m, hm, rfl⟩ := List.mem_map.1 hg
        exact ⟨m, hm, hsub m (Or.inl (.union hm)) hC⟩
      · rcases hs with rfl | rfl | ⟨ts, rfl⟩ <;> cases hboolean
  | inter ds =>
      have hgoal : (Goal.all (ds.map (.ask s))).Holds C := by rcases hs with rfl | rfl | ⟨ts, rfl⟩ <;> exact h
      exact stepAt_nil_inter fun m hm => hsub m (Or.inl (.inter hm))
        ((Goal.holds_all _).1 hgoal _ (List.mem_map_of_mem hm))
  | ref x args =>
      obtain ⟨r', rfl, hnamed⟩ : ∃ r', r = some r' ∧ r'.NamedHolds C s (.ref x args) := by
        rcases hs with rfl | rfl | ⟨ts, rfl⟩ <;> exact h
      refine stepAt_nil_ref fun v hv => hsub v (Or.inr ⟨r', rfl, hv⟩) ?_
      rcases hs with rfl | rfl | ⟨ts, rfl⟩ <;> exact hnamed _ v rfl hv
  | classRef x =>
      obtain ⟨r', rfl, hnamed⟩ : ∃ r', r = some r' ∧ r'.NamedHolds C s (.classRef x) := by
        rcases hs with rfl | rfl | ⟨ts, rfl⟩ <;> exact h
      refine ⟨r', rfl, fun s' d' hs' hd' => ?_⟩
      cases hs'
      refine hsub d' (Or.inr ⟨r', rfl, hd'⟩) ?_
      rcases hs with rfl | rfl | ⟨ts, rfl⟩ <;> exact hnamed _ d' rfl hd'
  | _ => cases hd

/-- From `void` the same steps are taken as from `nil`. -/
theorem stepAt_nil_of_scalar {R : Ty → Ty → Prop} (hs : s = .nil ∨ s = .void)
    (h : ({} : Rules).StepAt r C s d) (hsub : ∀ x, Beneath r d x → C s x → R .nil x) :
    ({} : Rules).StepAt r R .nil d := by
  cases hd : d.leadsFirst with
  | true => exact stepAt_nil_of_leadsFirst (hs.imp_right Or.inl) h hsub hd
  | false =>
      cases d with
      | prim p =>
          have hgoal : assignToPrim s p = true := by rcases hs with rfl | rfl <;> exact h
          change assignToPrim .nil p = true
          rcases hs with rfl | rfl
          · exact hgoal
          · cases p <;> first | rfl | cases hgoal
      | union | inter | ref | classRef => cases hd
      | _ => rcases hs with rfl | rfl <;> cases h

theorem isNever_of_early_eq_none (h : Rules.early? {} s d = none) : d.isNever = false := by
  unfold Rules.early? at h
  split_ifs at h with _ hnever
  exact Bool.eq_false_iff.2 hnever

/-- A predicate takes `nil` where a truth value does. -/
theorem keptNil_of_predToBoolean (h : KeptNil r C d.predToBoolean) : KeptNil r C d := by
  cases d with
  | pred x t =>
      rcases h with hearly | ⟨-, hstep⟩
      · cases hearly
      · exact keptNil_of_step rfl hstep
  | _ => exact h

theorem BothNormal.predToBoolean (h : BothNormal r t d) : BothNormal r t d.predToBoolean := by
  cases d with
  | pred x u => exact fun hr => ⟨(h hr).1, (normal_prim _).canonical⟩
  | _ => exact h

/-- An early answer says that the types are equal, or nothing of the target. -/
theorem keptNil_of_early (ht : t.ListsNil r) (hnormal : BothNormal r t d) (h : Rules.early? {} t d = some true) :
    KeptNil r C d := by
  have hself : t.predToBoolean = t := by cases ht <;> rfl
  rcases cases_of_early h with rfl | rfl | rfl | heq
  · exact Or.inl rfl
  · cases ht
  · cases ht
  · rw [hself] at heq
    exact keptNil_of_predToBoolean (keptNil_of_equal ht hnormal.predToBoolean heq)

/-- A step from `nil` or `void` is one from `nil`. -/
theorem keptNil_of_scalar_step (hs : t = .nil ∨ t = .void) (hnormal : BothNormal r t d)
    (hnone : Rules.early? {} t d = none) (hstep : ({} : Rules).StepAt r C t d.predToBoolean) : KeptNil r C d := by
  have hlists : t.ListsNil r := by rcases hs with rfl | rfl <;> constructor
  exact keptNil_of_step (isNever_of_early_eq_none hnone) (stepAt_nil_of_scalar hs hstep fun x hx hCx =>
    ⟨rfl, t, hlists, fun hr => ⟨(hnormal hr).1, hx.canonical hr (hnormal.predToBoolean hr).2⟩, Or.inr hCx⟩)

/-- A step from an intersection is one from `nil`, or one of the parts fits the target. -/
theorem keptNil_of_inter_step {ts : List Ty} (hlists : Ty.ListsNil r (.inter ts)) (hr : NormalNames r)
    (hnormal : BothNormal r (.inter ts) d) (hstep : ({} : Rules).StepAt r C (.inter ts) d)
    (hpart : ∀ m ∈ ts, C m d → KeptNil r C d) : KeptNil r C d := by
  cases hd : d.leadsFirst with
  | true =>
      have hsame : d.predToBoolean = d := by cases d <;> first | rfl | cases hd
      refine keptNil_of_step (by cases d <;> first | rfl | cases hd) (hsame.symm ▸ ?_)
      exact stepAt_nil_of_leadsFirst (Or.inr (Or.inr ⟨ts, rfl⟩)) hstep (fun x hx hCx =>
        ⟨rfl, _, hlists, fun _ => ⟨(hnormal hr).1, hx.canonical hr (hnormal hr).2⟩, Or.inr hCx⟩) hd
  | false =>
      have hany : (Goal.any (ts.map (.ask · d))).Holds C := by
        cases d with
        | union | inter | ref | classRef => cases hd
        | _ => exact hstep
      obtain ⟨g, hg, hC⟩ := (Goal.holds_any _).1 hany
      obtain ⟨m, hm, rfl⟩ := List.mem_map.1 hg
      exact hpart m hm hC

/-- A step from a name that is opened is one from `nil`, or what the name stands for fits the target. -/
theorem keptNil_of_ref_step {r' : Resolver} {x : String} {args : List Ty} {u : Ty} (hclass : r'.isClass x = false)
    (hopen : r'.expand (.ref x args) = .ok (some u)) (hlists : u.ListsNil (some r'))
    (hstep : ({} : Rules).StepAt (some r') C (.ref x args) d) (hopened : C u d → KeptNil (some r') C d) :
    KeptNil (some r') C d := by
  obtain ⟨_, hr, hnamed⟩ : ∃ r'', some r' = some r'' ∧ r''.NamedHolds C (.ref x args) d := hstep
  cases hr
  have hby : r'.byName? (.ref x args) d = none := by
    unfold Resolver.byName?
    split
    · rename_i heq
      cases heq
    · rename_i heq
      cases heq
      rw [hclass]
      rfl
    · rfl
  rw [Resolver.NamedHolds, hby] at hnamed
  have hexpanded : ∀ {v}, r'.expand d = .ok (some v) → BothNormal (some r') u v := fun hv hr =>
    ⟨hr r' _ u rfl hopen, hr r' _ _ rfl hv⟩
  cases d with
  | ref y args' =>
      exact keptNil_of_step rfl (stepAt_nil_ref fun v hv =>
        ⟨rfl, u, hlists, hexpanded hv, Or.inr (hnamed u v hopen hv)⟩)
  | classRef y =>
      refine keptNil_of_step rfl ⟨r', rfl, fun s' v hs' hv => ?_⟩
      cases hs'
      exact ⟨rfl, u, hlists, hexpanded hv, Or.inr (hnamed u v hopen hv)⟩
  | _ => exact hopened (hnamed u _ hopen rfl)

/-- **What a type fits that lists `nil` takes `nil`**, step by step. -/
theorem keptNil_of_closed (hC : ({} : Rules).Closed r C) (ht : t.ListsNil r) :
    ∀ d, BothNormal r t d → C t d → KeptNil r C d := by
  induction ht with
  | nil =>
      intro d hnormal hCd
      rcases hC _ d hCd with h | ⟨hnone, hstep⟩
      · exact keptNil_of_early .nil hnormal h
      · exact keptNil_of_scalar_step (Or.inl rfl) hnormal hnone hstep
  | void =>
      intro d hnormal hCd
      rcases hC _ d hCd with h | ⟨hnone, hstep⟩
      · exact keptNil_of_early .void hnormal h
      · exact keptNil_of_scalar_step (Or.inr rfl) hnormal hnone hstep
  | @member ts m hm hunion hlists ih =>
      intro d hnormal hCd
      rcases hC _ d hCd with h | ⟨-, hstep⟩
      · exact keptNil_of_early (.member hm hunion hlists) hnormal h
      · have hall : (Goal.all (ts.map (.ask · d.predToBoolean))).Holds C := hstep
        have hpart : BothNormal r m d.predToBoolean := fun hr =>
          ⟨(hnormal hr).1.part (.union hm), (hnormal.predToBoolean hr).2⟩
        exact keptNil_of_predToBoolean (ih _ hpart ((Goal.holds_all _).1 hall _ (List.mem_map_of_mem hm)))
  | @parts ts hr hall ih =>
      intro d hnormal hCd
      rcases hC _ d hCd with h | ⟨-, hstep⟩
      · exact keptNil_of_early (.parts hr hall) hnormal h
      · have hnormal := hnormal.predToBoolean
        have hts := (hnormal hr).1
        exact keptNil_of_predToBoolean (keptNil_of_inter_step (.parts hr hall) hr hnormal hstep fun m hm hCm =>
          ih ts hts (Or.inl rfl) m hm _ (fun _ => ⟨hts.part (.inter hm), (hnormal hr).2⟩) hCm)
  | @name r' x args u hr hclass hopen hall ih =>
      intro d hnormal hCd
      subst hr
      have hself : Alike (.ref x args) (.ref x args) := Or.inl rfl
      rcases hC _ d hCd with h | ⟨-, hstep⟩
      · exact keptNil_of_early (.name rfl hclass hopen hall) hnormal h
      · exact keptNil_of_predToBoolean (keptNil_of_ref_step hclass hopen (hall args u hself hopen) hstep fun hCu =>
          ih args u hself hopen _ (fun hr => ⟨hr r' _ u rfl hopen, (hnormal.predToBoolean hr).2⟩) hCu)

theorem closed_nilTo (hC : ({} : Rules).Closed r C) : ({} : Rules).Closed r (NilTo r C) := by
  rintro _ d ⟨rfl, t, ht, hnormal, halike | hrelated⟩
  · exact keptNil_of_alike ht hnormal halike
  · exact keptNil_of_closed hC ht d hnormal hrelated

end ListsNil

/-! ### Types that accept `nil` -/

/-- `nil` is never refused, and without definitions it is accepted. -/
def AcceptsNil (r : Option Resolver) (t : Ty) : Prop :=
  isAssignable r .nil t ≠ .ok false ∧ (r = none → isAssignable r .nil t = .ok true)

section Accepts

variable {r : Option Resolver} {t d : Ty}

/-- Where a relation that every step keeps relates `nil` to a type, `nil` is accepted there. -/
theorem acceptsNil_of_closed {R : Ty → Ty → Prop} {h : ℕ} (hd : Low h d) (hR : ({} : Rules).Closed r R)
    (hnil : R .nil d) : AcceptsNil r d := by
  have hne : isAssignable r .nil d ≠ .ok false := hR.assignUpTo_ne_false hnil _ _
  refine ⟨hne, ?_⟩
  rintro rfl
  have hsource : Low 1 .nil := low_prim .nil
  obtain ⟨b, hb⟩ : ∃ b, isAssignable none .nil d = .ok b := assignable_ok_of_low hsource hd
  cases b with
  | true => exact hb
  | false => exact absurd hb hne

/-- A type that lists `nil` accepts it. -/
theorem acceptsNil_of_listsNil (ht : t.Canonical) (hlists : t.ListsNil r) : AcceptsNil r t :=
  acceptsNil_of_closed ht.low (closed_nilTo Rules.closed_equal)
    ⟨rfl, t, hlists, fun _ => ⟨ht, ht⟩, Or.inl (Or.inl rfl)⟩

/-- Only a name without arguments equals one. -/
theorem eq_name_of_equalUpTo {n : ℕ} {x : String} (h : equalUpTo n (.ref x []) d = true ∨ equalUpTo n d (.ref x []) = true) :
    d = .ref x [] := by
  cases n with
  | zero => rcases h with h | h <;> cases h
  | succ n =>
      rw [equalUpTo_succ, equalUpTo_succ] at h
      rcases h with h | h
      · obtain ⟨args, rfl, hargs⟩ := sameNode_ref_iff.1 h
        rw [List.forall₂_nil_left_iff.1 (sameList_iff.1 hargs)]
      · cases d with
        | ref y args =>
            obtain ⟨_, heq, hargs⟩ := sameNode_ref_iff.1 h
            cases heq
            rw [List.forall₂_nil_right_iff.1 (sameList_iff.1 hargs)]
        | _ => cases h

/-- The intersection of two names lists `nil` if both do. -/
theorem listsNil_names {x y : String} (hne : x ≠ y) (hr : NormalNames r) (hx : Ty.ListsNil r (.ref x []))
    (hy : Ty.ListsNil r (.ref y [])) : Ty.ListsNil r (.inter [.ref x [], .ref y []]) := by
  refine .parts hr fun us _ halike => ?_
  suffices ∀ u ∈ us, u = .ref x [] ∨ u = .ref y [] by
    intro u hu
    rcases this u hu with rfl | rfl
    · exact hx
    · exact hy
  rcases halike with heq | ⟨-, n, h⟩
  · cases heq
    simp
  · cases n with
    | zero => rcases h with h | h <;> cases h
    | succ n =>
        rw [equalUpTo_succ, equalUpTo_succ] at h
        rcases h with h | h
        · -- both names are found among two parts
          obtain ⟨_, heq, hsame⟩ := sameNode_inter_iff.1 h
          cases heq
          obtain ⟨hlength, hmem⟩ := sameSet_iff.1 hsame
          obtain ⟨u, hu, hux⟩ := hmem (.ref x []) (by simp)
          obtain ⟨v, hv, hvy⟩ := hmem (.ref y []) (by simp)
          obtain rfl := eq_name_of_equalUpTo (Or.inr hux)
          obtain rfl := eq_name_of_equalUpTo (Or.inr hvy)
          obtain ⟨a, b, rfl⟩ := List.length_eq_two.1 hlength.symm
          simp only [List.mem_pair] at hu hv ⊢
          rcases hu with rfl | rfl <;> rcases hv with hv | hv
          · cases hv
            exact absurd rfl hne
          · simp [hv]
          · simp [hv]
          · cases hv
            exact absurd rfl hne
        · obtain ⟨_, heq, hsame⟩ := sameNode_inter_iff.1 h
          cases heq
          intro u hu
          obtain ⟨t, ht, htu⟩ := (sameSet_iff.1 hsame).2 u hu
          rcases List.mem_pair.1 ht with rfl | rfl
          · exact Or.inl (eq_name_of_equalUpTo (Or.inl htu))
          · exact Or.inr (eq_name_of_equalUpTo (Or.inl htu))

/-- `nil`, and unions that it is a member of. -/
theorem closed_memberNil : ({} : Rules).Closed r fun s d =>
    s = .nil ∧ (d = .unknown ∨ d = .nil ∨ ∃ ts, d = .union ts ∧ .nil ∈ ts) := by
  rintro _ d ⟨rfl, rfl | rfl | ⟨ts, rfl, hnil⟩⟩
  · exact Or.inl rfl
  · exact Or.inl (Rules.early?_of_equal (equal_prim_iff.2 rfl))
  · refine Or.inr ⟨rfl, stepAt_nil_union ⟨.nil, hnil, rfl, Or.inr (Or.inl rfl)⟩⟩

/-- An optional type accepts `nil`. -/
theorem acceptsNil_nullable {h : ℕ} (ht : Low h t) : AcceptsNil r t.nullable := by
  obtain ⟨k, hk, -⟩ := exists_low_nullable ht
  refine acceptsNil_of_closed hk closed_memberNil ⟨rfl, ?_⟩
  rcases t.nullable_cases with hcase | hcase | ⟨ts, hnil, hcase⟩
  · exact Or.inl hcase
  · exact Or.inr (Or.inl hcase)
  · exact Or.inr (Or.inr ⟨ts, hcase, hnil⟩)

end Accepts

end TreeCheck
