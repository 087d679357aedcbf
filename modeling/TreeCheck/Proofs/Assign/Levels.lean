import TreeCheck.Proofs.Assign.Fits
import TreeCheck.Proofs.Ty.Generic
import TreeCheck.Proofs.Ty.Union

/-!
# Comparing types by height

Without definitions a comparison goes down in the two types also where signatures have type parameters,
though it erases them first: putting `unknown` in builds unions and intersections anew, and only the
height of a type tells that they do not grow.  So every comparison of types of bounded height answers,
and its answer is one step over its own answers.

* `Ty.low_erased`, `Ty.low_removeNil`, `Ty.exists_low_nullable` — heights of what a comparison builds;
* `level`, `Leads.exists_level` — every step goes down in height, or takes an intersection or `boolean`
  apart;
* `assignable_ok_of_low`, `fits_iff_of_low` — the comparison answers, and one step of it;
* `cases_of_early` — what is answered early, read backwards;
* `fits_of_part`, `fits_inter_of_parts`, `fits_union_of_member`, `fits_of_members` — ways to fit;
* `fits_union_cases` — the ways to fit a union.
-/

namespace TreeCheck

open Ty

/-! ### Heights -/

namespace Ty

variable {h k : ℕ} {t : Ty}

theorem low_lit (l : Lit) : Low (h + 1) (.lit l) := .node rfl fun u hu => by
  cases hu with
  | part hu => cases hu

theorem low_bare {f : Func} (hf : Low h (.func f)) : Low h (.func f.bare) := by
  obtain ⟨k, rfl⟩ := hf.exists_succ
  refine .node rfl fun u hu => ?_
  cases hu with
  | part hu => exact hf.child rfl (.part (part_of_bare hu))
  | constraint hp _ | default hp _ => cases hp

/-- Erasing the type parameters of a signature does not make it higher. -/
theorem low_erased {f : Func} (hf : Low h (.func f)) : Low h (.func f.erased) := by
  unfold FuncOf.erased
  split
  · exact hf
  · have hlow : PutsInLow (f.tparams.map fun p => (p.name, Ty.unknown)) := by
      intro v
      cases hv : Subst.get? (f.tparams.map fun p => (p.name, Ty.unknown)) v with
      | none =>
          rw [Subst.image, hv]
          exact low_tvar v
      | some a =>
          rw [Subst.image, hv]
          obtain ⟨p, -, hp⟩ := List.mem_map.1 (Assoc.mem_of_get? hv)
          cases hp
          exact low_prim _
    exact hlow.low_applyWith equal (low_bare hf)

theorem members_of_not_isUnion (hunion : t.isUnion = false) : t.members = [t] := by
  cases t <;> first | rfl | cases hunion

/-- Only `nil` itself and unions change when `nil` is taken off. -/
theorem removeNil_of_not_isUnion (hunion : t.isUnion = false) :
    t.removeNil = if t.isNil then .never else t := by
  rw [removeNil, filter, members_of_not_isUnion hunion, List.filter_singleton]
  cases t.isNil with
  | true => rfl
  | false => exact unionOf_singleton_of_not_isUnion hunion

theorem low_removeNil (ht : Low h t) : Low h t.removeNil := by
  obtain ⟨k, rfl⟩ := ht.exists_succ
  cases hunion : t.isUnion with
  | true =>
      cases t with
      | union ts =>
          exact low_unionWith equal fun u hu => ht.child rfl (.part (.union (List.mem_of_mem_filter hu)))
      | _ => cases hunion
  | false =>
      rw [removeNil_of_not_isUnion hunion]
      split
      · exact low_prim _
      · exact ht

/-- A type with `nil` added is `unknown`, `nil` or a union with the member `nil`. -/
theorem nullable_cases (t : Ty) :
    t.nullable = .unknown ∨ t.nullable = .nil ∨ ∃ ts, .nil ∈ ts ∧ t.nullable = .union ts := by
  unfold nullable
  by_cases hunknown : .unknown ∈ flatList [t, .nil]
  · exact Or.inl (unionOf_of_mem_unknown hunknown)
  · have hflat : ∀ u ∈ flatList [t, .nil], u.isUnknown = false := by
      intro u hu
      rw [← Bool.not_eq_true, isUnknown_iff]
      rintro rfl
      exact hunknown hu
    -- `nil` is covered by nothing, so it stays
    have hnil : .nil ∈ unionMembers [t, .nil] := by
      have hgiven : Ty.nil ∈ (flatList [t, .nil]).filter (!Ty.isNever ·) := by
        refine List.mem_filter.2 ⟨?_, rfl⟩
        rw [flatList_eq_flatMap, List.mem_flatMap]
        exact ⟨.nil, by simp, .head _⟩
      obtain ⟨u, hu, heq⟩ := exists_equal_of_mem equal hgiven
      obtain ⟨v, hv, hwider⟩ := exists_wider_of_mem hu
      obtain rfl : u = .nil := heq.elim id (equal_prim_right_iff.1 ·)
      rcases hwider with rfl | hwider
      · exact hv
      · cases hwider
    rw [unionOf_eq_ofMembers_unionMembers hflat]
    generalize unionMembers [t, .nil] = us at hnil
    match us, hnil with
    | [u], hnil => exact Or.inr (Or.inl (List.mem_singleton.1 hnil).symm)
    | u :: v :: us, hnil => exact Or.inr (Or.inr ⟨u :: v :: us, hnil, rfl⟩)

end Ty

/-! ### Levels -/

/-- What a step at one height takes apart: an intersection, or `boolean`. -/
def Ty.weight : Ty → ℕ
  | .inter _ => 2
  | .prim .boolean => 1
  | _ => 0

theorem Ty.weight_le (t : Ty) : t.weight ≤ 2 := by
  unfold weight
  split <;> omega

theorem Ty.weight_le_one {t : Ty} (h : t.isInter = false) : t.weight ≤ 1 := by
  unfold weight
  split
  · cases h
  · exact le_refl 1
  · omega

/-- A type with `nil` added is one higher at most, and then it is nothing that a step takes apart at that
height. -/
theorem Ty.exists_low_nullable {h : ℕ} {t : Ty} (ht : Low h t) :
    ∃ k, Low k t.nullable ∧ 4 * k + t.nullable.weight ≤ 4 * (h + 1) := by
  obtain ⟨h, rfl⟩ := ht.exists_succ
  have hpair : ∀ u ∈ [t, .nil], Low (h + 1) u := by
    intro u hu
    rcases List.mem_pair.1 hu with rfl | rfl
    · exact ht
    · exact low_prim _
  refine ⟨h + 2, low_unionWith equal hpair, ?_⟩
  have hweight : t.nullable.weight = 0 := by
    rcases t.nullable_cases with hcase | hcase | ⟨ts, -, hcase⟩ <;> rw [hcase] <;> rfl
  omega

/-- A predicate is higher than a truth value. -/
theorem Ty.exists_low_predToBoolean {h : ℕ} {t : Ty} (ht : Low h t) :
    ∃ k, Low k t.predToBoolean ∧ 4 * k + t.predToBoolean.weight ≤ 4 * h + t.weight := by
  cases t with
  | pred x u =>
      obtain ⟨h, rfl⟩ := ht.exists_succ
      obtain ⟨k, rfl⟩ := (ht.child rfl (.part .pred)).exists_succ
      refine ⟨1, low_prim _, ?_⟩
      simp only [predToBoolean, weight]
      omega
  | _ => exact ⟨h, ht, le_refl _⟩

/-- What every step without definitions makes smaller, if signatures may have type parameters. -/
def level (h k : ℕ) (s d : Ty) : ℕ := 4 * (h + k) + s.weight + d.weight

section

variable {rules : Rules} {h k : ℕ} {s d s' d' : Ty}

theorem Ty.exists_low_accepts {p : Param} (hp : Low h p.type) :
    ∃ k, Low k p.accepts ∧ 4 * k + p.accepts.weight ≤ 4 * (h + 1) := by
  rcases p.accepts_cases with heq | heq <;> rw [heq]
  · refine ⟨h, hp, ?_⟩
    have := p.type.weight_le
    omega
  · exact exists_low_nullable hp

/-- **Every step goes down** in height, or takes an intersection or `boolean` apart at its height. -/
theorem Leads.exists_level (hleads : Leads rules none s d s' d') (hs : Low h s) (hd : Low k d) :
    ∃ h' k', (Low h' s' ∧ Low k' d') ∧ level h' k' s' d' < level h k s d := by
  have hsw := s'.weight_le
  have hdw := d'.weight_le
  obtain ⟨h, rfl⟩ := hs.exists_succ
  obtain ⟨k, rfl⟩ := hd.exists_succ
  -- what stands below both types is compared at lower heights on both sides
  have hboth : Low h s' → Low k d' → ∃ h' k', (Low h' s' ∧ Low k' d') ∧
      level h' k' s' d' < level (h + 1) (k + 1) s d := fun hs hd =>
    ⟨h, k, ⟨hs, hd⟩, by unfold level; omega⟩
  have hright : Low (h + 1) s' → Low k d' → s'.weight ≤ s.weight → ∃ h' k', (Low h' s' ∧ Low k' d') ∧
      level h' k' s' d' < level (h + 1) (k + 1) s d := fun hs hd hw =>
    ⟨h + 1, k, ⟨hs, hd⟩, by unfold level; omega⟩
  cases hleads with
  | unionSrc hmem =>
      exact ⟨h, k + 1, ⟨hs.child rfl (.part (.union hmem)), hd⟩, by unfold level; omega⟩
  | unionDst hmem => exact hright hs (hd.child rfl (.part (.union hmem))) (le_refl _)
  | truth b => exact ⟨h + 1, k + 1, ⟨low_lit _, hd⟩, by unfold level; simp [weight]⟩
  | interDst hmem =>
      have hone := weight_le_one (hd.isInter_of_mem _ hmem)
      refine ⟨h + 1, k + 1, ⟨hs, hd.of_mem_inter _ hmem⟩, ?_⟩
      rw [level, level, show (Ty.inter _).weight = 2 from rfl]
      omega
  | interSrc hmem =>
      have hone := weight_le_one (hs.isInter_of_mem _ hmem)
      refine ⟨h + 1, k + 1, ⟨hs.of_mem_inter _ hmem, hd⟩, ?_⟩
      rw [level, level, show (Ty.inter _).weight = 2 from rfl]
      omega
  | bound hb => cases hb
  | array => exact hboth (hs.child rfl (.part .array)) (hd.child rfl (.part .array))
  | elem hmem => exact hboth (hs.child rfl (.part (.tuple hmem))) (hd.child rfl (.part .array))
  | tuple hmem hmem' => exact hboth (hs.child rfl (.part (.tuple hmem))) (hd.child rfl (.part (.tuple hmem')))
  | missing hmem => exact hright (low_prim _) (hd.child rfl (.part (.tuple hmem))) (Nat.zero_le _)
  | member hn hm _ =>
      exact hboth (hs.child rfl (.part (.member (ObjectOf.mem_of_find? hm).1 rfl)))
        (hd.child rfl (.part (.member hn rfl)))
  | optional hn hm _ =>
      have hown := low_removeNil (hs.child rfl (.part (.member (ObjectOf.mem_of_find? hm).1 rfl)))
      obtain ⟨j, hj, hle⟩ := exists_low_nullable (hd.child rfl (.part (.member hn rfl)))
      exact ⟨h, j, ⟨hown, hj⟩, by unfold level; omega⟩
  | key _ hi => exact hright (low_lit _) (hd.child rfl (.part (.key hi rfl))) (Nat.zero_le _)
  | extra hm hi =>
      exact hboth (hs.child rfl (.part (.member hm rfl))) (hd.child rfl (.part (.value hi rfl)))
  | value hi hj => exact hboth (hs.child rfl (.part (.value hi rfl))) (hd.child rfl (.part (.value hj rfl)))
  | param hp hq =>
      obtain ⟨j, hj, hle⟩ := exists_low_accepts ((low_erased hs).child rfl (.part (.param hp rfl)))
      exact ⟨k, j, ⟨(low_erased hd).child rfl (.part (.param hq rfl)), hj⟩, by unfold level; omega⟩
  | paramBack _ hp hq =>
      obtain ⟨j, hj, hle⟩ := exists_low_accepts ((low_erased hs).child rfl (.part (.param hp rfl)))
      exact ⟨j, k, ⟨hj, (low_erased hd).child rfl (.part (.param hq rfl))⟩, by unfold level; omega⟩
  | @result f g t hret =>
      have hd' := (low_erased hd).child rfl (.part (.ret hret))
      cases hown : f.erased.ret with
      | none =>
          have hvoid : f.erased.result = .void := by rw [FuncOf.result, hown]; rfl
          exact hright (hvoid ▸ low_prim _) hd' (hvoid ▸ Nat.zero_le _)
      | some u =>
          have hresult : f.erased.result = u := by rw [FuncOf.result, hown]; rfl
          exact hboth (hresult ▸ (low_erased hs).child rfl (.part (.ret hown))) hd'

/-- Types of bounded height are ranked by their level. -/
theorem descends_low :
    rules.Descends fun n s d => ∃ h k, (Low h s ∧ Low k d) ∧ level h k s d = n := by
  rintro _ s d ⟨h, k, ⟨hs, hd⟩, rfl⟩ p hp
  obtain ⟨i, hi, hile⟩ := exists_low_predToBoolean hs
  obtain ⟨j, hj, hjle⟩ := exists_low_predToBoolean hd
  obtain ⟨h', k', hlow, hlt⟩ := (Rules.leads_of_mem_asked hp).exists_level hi hj
  exact ⟨_, by unfold level at hlt ⊢; omega, h', k', hlow, rfl⟩

theorem level_lt_depth (s d : Ty) : level s.size d.size s d < 4 * (s.size + d.size) + queryDepth := by
  have := s.weight_le
  have := d.weight_le
  unfold level queryDepth
  omega

end

/-! ### Answers -/

section Answers

variable {rules : Rules} {h k : ℕ} {s d : Ty} (hs : Low h s) (hd : Low k d)

include hs hd

/-- **Without definitions types of bounded height are compared with an answer.** -/
theorem assignable_ok_of_low : ∃ b, rules.assignable none s d = .ok b :=
  descends_low.ok ⟨s.size, d.size, ⟨hs.size, hd.size⟩, rfl⟩ (level_lt_depth s d)

/-- **One step**: an early answer, or the formula of two types that are no names. -/
theorem fits_iff_of_low :
    Fits s d ↔
      match Rules.early? {} s d with
      | some b => b = true
      | none => Rules.opensNames s.predToBoolean d.predToBoolean = false ∧
          (Rules.openGoal {} none s.predToBoolean d.predToBoolean).Holds Fits := by
  rw [Fits, isAssignable, descends_low.assignable_eq ?depth ⟨h, k, ⟨hs, hd⟩, rfl⟩]
  case depth =>
    rintro - s d ⟨h, k, hlow, -⟩
    exact ⟨_, level_lt_depth s d, s.size, d.size, ⟨hlow.1.size, hlow.2.size⟩, rfl⟩
  cases Rules.early? {} s d with
  | some b => simp
  | none =>
      simp only
      split
      · rename_i hnamed
        simp [hnamed]
      · rename_i hnamed
        rw [Goal.run_eq_true_iff fun p hp => ?_]
        · simp only [hnamed, true_and]
          exact Iff.rfl
        · obtain ⟨_, -, h', k', ⟨hs', hd'⟩, -⟩ := descends_low _ s d ⟨h, k, ⟨hs, hd⟩, rfl⟩ p hp
          exact assignable_ok_of_low hs' hd'

end Answers

/-! ### Ways to fit -/

theorem fits_of_early {s d : Ty} (h : Rules.early? {} s d = some true) : Fits s d := by
  obtain ⟨n, hn⟩ : ∃ n, 4 * (s.size + d.size) + queryDepth = n + 1 := ⟨_, rfl⟩
  rw [Fits, isAssignable, Rules.assignable_none, hn, Rules.assignUpTo_succ, h]

theorem fits_unknown (s : Ty) : Fits s .unknown :=
  fits_of_early (by simp [Rules.early?, show isUnknown .unknown = true from rfl])

/-- An early no is given where nothing but `never` would do. -/
theorem isNever_of_early {rules : Rules} {s d : Ty} (h : rules.early? s d = some false) :
    d.isNever = true := by
  unfold Rules.early? at h
  split_ifs at h
  all_goals first | assumption | cases h

/-- Equal types are predicates together. -/
theorem equal_predToBoolean_of_equal {s d : Ty} (h : s.equal d = true) :
    s.predToBoolean.equal d.predToBoolean = true := by
  have hnode : sameNode (equalUpTo (2 * (s.size + d.size) + 1)) s d = true := by
    rwa [equal, depthBound, equalUpTo_succ] at h
  cases s with
  | pred x t =>
      cases d with
      | pred y u => rfl
      | _ => cases hnode
  | _ =>
      cases d with
      | pred y u => cases hnode
      | _ => exact h

/-- A strict yes is given early to `unknown`, from `never`, and between types that are equal once predicates
are taken as truth values. -/
theorem cases_of_early {s d : Ty} (h : Rules.early? {} s d = some true) :
    d = .unknown ∨ s = .unknown ∨ s = .never ∨ s.predToBoolean.equal d.predToBoolean = true := by
  unfold Rules.early? at h
  split at h
  · rename_i hhead
    rw [Bool.or_eq_true, Bool.or_eq_true, isUnknown_iff, isUnknown_iff, isNever_iff] at hhead
    rcases hhead with (hhead | hhead) | hhead
    · exact Or.inl hhead
    · exact Or.inr (Or.inl hhead)
    · exact Or.inr (Or.inr (Or.inl hhead))
  · split at h
    · cases h
    · split at h
      · rename_i hnil
        cases hnil
      · split at h
        · rename_i heq
          exact Or.inr (Or.inr (Or.inr (equal_predToBoolean_of_equal heq)))
        · split at h
          · rename_i heq
            exact Or.inr (Or.inr (Or.inr heq))
          · cases h

/-- What is equal to a union is a union. -/
theorem exists_union_of_equal {s : Ty} {ss : List Ty} (h : (Ty.union ss).equal s = true) :
    ∃ ds, s = .union ds := by
  rw [equal, depthBound, equalUpTo_succ] at h
  cases s with
  | union ds => exact ⟨ds, rfl⟩
  | _ => cases h

theorem isUnion_of_equal_union {s : Ty} {ds : List Ty} (h : s.equal (.union ds) = true) :
    s.isUnion = true := by
  rw [equal, depthBound, equalUpTo_succ] at h
  cases s with
  | union ss => rfl
  | _ => cases h

section Low

variable {h k : ℕ} {s d : Ty} (hs : Low h s) (hd : Low k d)

include hs hd

/-- A predicate is compared as a truth value. -/
theorem fits_predToBoolean_of_low : Fits s d ↔ Fits s.predToBoolean d.predToBoolean := by
  by_cases heq : s.equal d = true
  · exact iff_of_true (fits_of_early (Rules.early?_of_equal heq))
      (fits_of_early (Rules.early?_of_equal (equal_predToBoolean_of_equal heq)))
  · have hearly : Rules.early? {} s d = Rules.early? {} s.predToBoolean d.predToBoolean := by
      simp only [Rules.early?, isUnknown_predToBoolean, isNever_predToBoolean, predToBoolean_idem,
        Bool.false_and, Bool.false_eq_true, if_false, heq]
      split
      · rfl
      · split
        · rfl
        · split <;> rfl
    obtain ⟨i, hi, -⟩ := exists_low_predToBoolean hs
    obtain ⟨j, hj, -⟩ := exists_low_predToBoolean hd
    rw [fits_iff_of_low hs hd, fits_iff_of_low hi hj, hearly, predToBoolean_idem, predToBoolean_idem]

theorem fits_predToBoolean_left_iff : Fits s.predToBoolean d ↔ Fits s d := by
  obtain ⟨i, hi, -⟩ := exists_low_predToBoolean hs
  rw [fits_predToBoolean_of_low hi hd, predToBoolean_idem, ← fits_predToBoolean_of_low hs hd]

theorem fits_predToBoolean_right_iff : Fits s d.predToBoolean ↔ Fits s d := by
  obtain ⟨j, hj, -⟩ := exists_low_predToBoolean hd
  rw [fits_predToBoolean_of_low hs hj, predToBoolean_idem, ← fits_predToBoolean_of_low hs hd]

variable (hsn : s.isNamed = false) (hdn : d.isNamed = false)

include hsn hdn

/-- Types that are no names fit by the formula of their heads, whatever is answered early. -/
theorem fits_of_openGoal (hnever : d.isNever = false)
    (hgoal : (Rules.openGoal {} none s.predToBoolean d.predToBoolean).Holds Fits) : Fits s d := by
  rw [fits_iff_of_low hs hd]
  cases hearly : Rules.early? {} s d with
  | some b =>
      cases b with
      | true => rfl
      | false =>
          rw [isNever_of_early hearly] at hnever
          cases hnever
  | none =>
      refine ⟨?_, hgoal⟩
      rw [Rules.opensNames, isNamed_predToBoolean, isNamed_predToBoolean, hsn, hdn]
      simp

/-- An intersection fits what one of its parts fits, if that is no union and no intersection. -/
theorem fits_of_part {ss : List Ty} (hss : s = .inter ss) (hunion : d.isUnion = false)
    (hinter : d.isInter = false) (hnever : d.isNever = false) (hpart : ∃ p ∈ ss, Fits p d) : Fits s d := by
  subst hss
  obtain ⟨p, hp, hfits⟩ := hpart
  refine fits_of_openGoal hs hd hsn hdn hnever ?_
  have hgoal : Rules.openGoal {} none (.inter ss) d.predToBoolean =
      .any (ss.map (.ask · d.predToBoolean)) := by
    cases d with
    | union ds => cases hunion
    | inter ds => cases hinter
    | _ => rfl
  rw [show (Ty.inter ss).predToBoolean = .inter ss from rfl, hgoal, Goal.holds_any]
  exact ⟨_, List.mem_map_of_mem hp, (fits_predToBoolean_right_iff (hs.of_mem_inter p hp) hd).2 hfits⟩

/-- What fits every part of an intersection fits the intersection. -/
theorem fits_inter_of_parts {ds : List Ty} (hds : d = .inter ds) (hunion : s.isUnion = false)
    (hparts : ∀ p ∈ ds, Fits s p) : Fits s d := by
  subst hds
  refine fits_of_openGoal hs hd hsn hdn rfl ?_
  have hgoal : Rules.openGoal {} none s.predToBoolean (.inter ds) =
      .all (ds.map (.ask s.predToBoolean)) := by
    cases s with
    | union ss => cases hunion
    | _ => rfl
  rw [show (Ty.inter ds).predToBoolean = .inter ds from rfl, hgoal, Goal.holds_all]
  exact List.forall_mem_map.2 fun p hp => (fits_predToBoolean_left_iff hs (hd.of_mem_inter p hp)).2 (hparts p hp)

/-- What fits a member of a union fits the union. -/
theorem fits_union_of_member {ds : List Ty} (hds : d = .union ds) (hunion : s.isUnion = false)
    (hmember : ∃ m ∈ ds, Fits s m) : Fits s d := by
  subst hds
  obtain ⟨m, hm, hfits⟩ := hmember
  obtain ⟨k, rfl⟩ := hd.exists_succ
  refine fits_of_openGoal hs hd hsn hdn rfl ?_
  have hgoal : Rules.openGoal {} none s.predToBoolean (.union ds) = unionGoal s.predToBoolean ds := by
    cases s with
    | union ss => cases hunion
    | _ => rfl
  rw [show (Ty.union ds).predToBoolean = .union ds from rfl, hgoal]
  exact Or.inl ((Goal.holds_any _).2 ⟨_, List.mem_map_of_mem hm,
    (fits_predToBoolean_left_iff hs (hd.child rfl (.part (.union hm)))).2 hfits⟩)

omit hsn hdn in
/-- What is no union fits a union only by one of its members, or as `boolean` by both truth values. -/
theorem fits_union_cases {ds : List Ty} (hds : d = .union ds) (hunion : s.isUnion = false)
    (hfits : Fits s d) : s = .unknown ∨ s = .never ∨ (∃ m ∈ ds, Fits s m) ∨
      s.predToBoolean = .boolean ∧ ∀ b, Fits (.bool b) d := by
  subst hds
  obtain ⟨k, rfl⟩ := hd.exists_succ
  have hfirm : s.predToBoolean.isUnion = false := by rwa [isUnion_predToBoolean]
  rw [fits_iff_of_low hs hd] at hfits
  cases hearly : Rules.early? {} s (.union ds) with
  | some b =>
      rw [hearly] at hfits
      subst hfits
      rcases cases_of_early hearly with hd | rfl | rfl | heq
      · cases hd
      · exact Or.inl rfl
      · exact Or.inr (Or.inl rfl)
      · rw [isUnion_of_equal_union heq] at hfirm
        cases hfirm
  | none =>
      rw [hearly] at hfits
      have hgoal : Rules.openGoal {} none s.predToBoolean (.union ds) = unionGoal s.predToBoolean ds := by
        cases s with
        | union ss => cases hunion
        | _ => rfl
      rw [show (Ty.union ds).predToBoolean = .union ds from rfl, hgoal] at hfits
      refine Or.inr (Or.inr ?_)
      rcases hfits.2 with hfits | hfits
      · obtain ⟨g, hg, hfits⟩ := (Goal.holds_any _).1 hfits
        obtain ⟨m, hm, rfl⟩ := List.mem_map.1 hg
        exact Or.inl ⟨m, hm, (fits_predToBoolean_left_iff hs (hd.child rfl (.part (.union hm)))).1 hfits⟩
      · split at hfits
        · rename_i hboolean
          exact Or.inr ⟨hboolean, fun b => by cases b; exacts [hfits.2, hfits.1]⟩
        · cases hfits

/-- A union fits where all of its members do. -/
theorem fits_of_members {ss : List Ty} (hss : s = .union ss) (hnever : d.isNever = false)
    (hmembers : ∀ m ∈ ss, Fits m d) : Fits s d := by
  subst hss
  obtain ⟨h, rfl⟩ := hs.exists_succ
  refine fits_of_openGoal hs hd hsn hdn hnever ((Goal.holds_all _).2 (List.forall_mem_map.2 ?_))
  exact fun m hm => (fits_predToBoolean_right_iff (hs.child rfl (.part (.union hm))) hd).2 (hmembers m hm)

end Low

end TreeCheck
