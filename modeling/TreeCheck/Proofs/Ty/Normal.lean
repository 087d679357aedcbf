import TreeCheck.Proofs.Ty.Equivalence
import TreeCheck.Ty.Union

/-!
# Types in normal form

A union is in normal form when building it again from its members changes nothing.  What that says
about the members is read off once, and adding or removing `nil` then works on member lists:

* `Ty.UnionList` — member lists without unions, `unknown`, `never`, doubles, covered members, and not
  with both truth values;
* `Ty.unionOf_eq_ofMembers`, `Ty.unionOf_eq_union_iff` — these are the lists that stay as they are;
* `Ty.Normal` — types in normal form throughout, `Ty.Normal.wellFormed`;
* `Ty.normal_nullable`, `Ty.normal_removeNil` — normal forms are kept;
* `Ty.equal_nullable`, `Ty.equal_removeNil` — equal types in normal form stay equal.
-/

namespace TreeCheck.Ty

/-! ### Members one by one -/

def isUnion : Ty → Bool
  | .union _ => true
  | _ => false

theorem isNil_iff {t : Ty} : t.isNil = true ↔ t = .nil := by
  unfold isNil
  split <;> simp_all

theorem isUnknown_iff {t : Ty} : t.isUnknown = true ↔ t = .unknown := by
  unfold isUnknown
  split <;> simp_all

theorem isNever_iff {t : Ty} : t.isNever = true ↔ t = .never := by
  unfold isNever
  split <;> simp_all

theorem unknown_or_never_or (t : Ty) :
    t = .unknown ∨ t = .never ∨ t.isUnknown = false ∧ t.isNever = false := by
  rw [← isUnknown_iff, ← isNever_iff]
  cases t.isUnknown <;> cases t.isNever <;> simp

theorem hasNil_eq_false_iff {t : Ty} : t.hasNil = false ↔ ∀ m ∈ t.members, m.isNil = false := by
  simp [hasNil]

/-- A type whose members are no unions is flat. -/
theorem flat_eq_members {t : Ty} (h : ∀ u ∈ t.members, u.isUnion = false) : t.flat = t.members := by
  have hlist : ∀ {ts : List Ty}, (∀ u ∈ ts, u.isUnion = false) → flatList ts = ts := by
    intro ts hts
    induction ts with
    | nil => rfl
    | cons u us ih =>
        have hu : u.flat = [u] := by
          have := hts u (.head _)
          cases u <;> simp_all [flat, isUnion]
        rw [flatList, hu, ih fun v hv => hts v (.tail _ hv)]
        rfl
  cases t with
  | union ts => exact hlist h
  | _ => rfl

mutual
theorem isUnion_of_mem_flat : ∀ {t u : Ty}, u ∈ t.flat → u.isUnion = false
  | .union ts, _, h => by
      rw [flat] at h
      exact isUnion_of_mem_flatList h
  | .prim _, _, h | .lit _, _, h | .array _, _, h | .tuple _, _, h | .object _, _, h
  | .func _, _, h | .pred _ _, _, h | .inter _, _, h | .ref _ _, _, h | .tvar _, _, h
  | .classRef _, _, h => by
      rw [List.mem_singleton.1 h]
      rfl

theorem isUnion_of_mem_flatList : ∀ {ts : List Ty} {u : Ty}, u ∈ flatList ts → u.isUnion = false
  | [], _, h => by cases h
  | t :: ts, u, h => by
      rw [flatList, List.mem_append] at h
      rcases h with h | h
      · exact isUnion_of_mem_flat h
      · exact isUnion_of_mem_flatList h
end

theorem hasPrim_iff {p : Prim} {ts : List Ty} : hasPrim p ts = true ↔ .prim p ∈ ts := by
  rw [hasPrim, List.any_eq_true]
  constructor
  · rintro ⟨t, ht, h⟩
    split at h
    · rwa [beq_iff_eq.1 h] at ht
    · cases h
  · exact fun h => ⟨_, h, beq_self_eq_true p⟩

theorem hasBool_iff {b : Bool} {ts : List Ty} : hasBool b ts = true ↔ .bool b ∈ ts := by
  rw [hasBool, List.any_eq_true]
  constructor
  · rintro ⟨t, ht, h⟩
    split at h
    · rwa [beq_iff_eq.1 h] at ht
    · cases h
  · exact fun h => ⟨_, h, beq_self_eq_true b⟩

/-- What covers a member covers it in every larger list. -/
theorem absorbed_mono {ts us : List Ty} (hsub : ts ⊆ us) {t : Ty} (h : absorbed ts t = true) :
    absorbed us t = true := by
  have hprim : ∀ p, hasPrim p ts = true → hasPrim p us = true := fun p hp =>
    hasPrim_iff.2 (hsub (hasPrim_iff.1 hp))
  unfold absorbed at h ⊢
  split at h
  · rw [Bool.or_eq_true, Bool.and_eq_true] at h ⊢
    exact h.imp (hprim _) (And.imp_right (hprim _))
  · exact hprim _ h
  · cases h

/-! ### Doubles -/

section Distinct

variable (eq : Ty → Ty → Bool)

/-- Dropping repetitions leaves a sublist. -/
private theorem foldl_distinct_sublist (kept ts : List Ty) :
    (ts.foldl (fun kept t => if kept.any (eq · t) then kept else kept ++ [t]) kept).Sublist
      (kept ++ ts) := by
  induction ts generalizing kept with
  | nil => simp
  | cons t ts ih =>
      rw [List.foldl_cons]
      split
      · exact (ih kept).trans (List.Sublist.append_left (List.sublist_cons_self t ts) kept)
      · simpa using ih (kept ++ [t])

theorem distinctWith_sublist (ts : List Ty) : (distinctWith eq ts).Sublist ts :=
  foldl_distinct_sublist eq [] ts

/-- It leaves a list without repetitions. -/
private theorem foldl_distinct_pairwise {kept : List Ty} (ts : List Ty)
    (h : kept.Pairwise fun a b => eq a b = false) :
    (ts.foldl (fun kept t => if kept.any (eq · t) then kept else kept ++ [t]) kept).Pairwise
      fun a b => eq a b = false := by
  induction ts generalizing kept with
  | nil => exact h
  | cons t ts ih =>
      rw [List.foldl_cons]
      split
      · exact ih h
      · rename_i hnew
        refine ih (List.pairwise_append.2 ⟨h, List.pairwise_singleton _ _, ?_⟩)
        rintro a ha b hb
        rw [List.mem_singleton.1 hb]
        simpa using fun heq => hnew (List.any_eq_true.2 ⟨a, ha, heq⟩)

theorem distinctWith_pairwise (ts : List Ty) :
    (distinctWith eq ts).Pairwise fun a b => eq a b = false :=
  foldl_distinct_pairwise eq ts .nil

/-- It leaves a list without repetitions as it is. -/
private theorem foldl_distinct_eq {kept ts : List Ty}
    (h : (kept ++ ts).Pairwise fun a b => eq a b = false) :
    ts.foldl (fun kept t => if kept.any (eq · t) then kept else kept ++ [t]) kept = kept ++ ts := by
  induction ts generalizing kept with
  | nil => simp
  | cons t ts ih =>
      have hnew : ¬ (kept.any (eq · t) = true) := by
        rw [List.any_eq_true]
        rintro ⟨a, ha, heq⟩
        rw [(List.pairwise_append.1 h).2.2 a ha t (.head _)] at heq
        cases heq
      rw [List.foldl_cons, if_neg hnew, ih (by simpa using h)]
      simp

variable {eq}

theorem distinctWith_eq_self {ts : List Ty} (h : ts.Pairwise fun a b => eq a b = false) :
    distinctWith eq ts = ts :=
  foldl_distinct_eq eq h

/-- A last entry stays if no other one equals it. -/
theorem distinctWith_concat {ts : List Ty} (h : ts.Pairwise fun a b => eq a b = false) (t : Ty) :
    distinctWith eq (ts ++ [t]) = if ts.any (eq · t) then ts else ts ++ [t] := by
  have hts : distinctWith eq ts = ts := distinctWith_eq_self h
  unfold distinctWith at hts ⊢
  rw [List.foldl_append, hts]
  rfl

end Distinct

/-! ### Covered members and truth values -/

/-- Collapsing both truth values adds the type of truth values only. -/
theorem mem_collapseBools {ts : List Ty} {t : Ty} (h : t ∈ collapseBools ts) :
    t ∈ ts ∨ t = .boolean := by
  induction ts with
  | nil => cases h
  | cons u us ih =>
      rw [collapseBools] at h
      split at h
      · rcases List.mem_cons.1 h with rfl | h
        · exact Or.inr rfl
        · exact Or.inl (.tail _ (List.mem_of_mem_filter h))
      · rcases List.mem_cons.1 h with rfl | h
        · exact Or.inl (.head _)
        · exact (ih h).imp_left (.tail _)

/-- It makes a list with both shorter. -/
theorem length_collapseBools_lt {ts : List Ty} (ht : .bool true ∈ ts) (hf : .bool false ∈ ts) :
    (collapseBools ts).length < ts.length := by
  induction ts with
  | nil => cases ht
  | cons u us ih =>
      rw [collapseBools]
      split
      · rename_i hu
        have hother : ∃ t ∈ us, isBoolLit t = true := by
          rcases List.mem_cons.1 ht with rfl | ht
          · exact ⟨_, (List.mem_cons.1 hf).resolve_left (by simp), rfl⟩
          · exact ⟨_, ht, rfl⟩
        obtain ⟨t, hmem, hbool⟩ := hother
        simp only [List.length_cons, Nat.add_lt_add_iff_right]
        exact List.length_filter_lt_length_iff_exists.2 ⟨t, hmem, by simp [hbool]⟩
      · rename_i hu
        have hne : ∀ b, .bool b ≠ u := by
          rintro b rfl
          exact hu rfl
        simp only [List.length_cons, Nat.add_lt_add_iff_right]
        exact ih ((List.mem_cons.1 ht).resolve_left (hne _))
          ((List.mem_cons.1 hf).resolve_left (hne _))

theorem mem_absorb {ts : List Ty} {t : Ty} (h : t ∈ absorb ts) : t ∈ ts ∨ t = .boolean := by
  simp only [absorb] at h
  split at h
  · exact (mem_collapseBools h).imp_left List.mem_of_mem_filter
  · exact Or.inl (List.mem_of_mem_filter h)

theorem length_absorb_le (ts : List Ty) : (absorb ts).length ≤ ts.length := by
  have hkept : (ts.filter (!absorbed ts ·)).length ≤ ts.length := List.length_filter_le _ _
  simp only [absorb]
  split
  · rename_i hbools
    rw [Bool.and_eq_true, hasBool_iff, hasBool_iff] at hbools
    exact (length_collapseBools_lt hbools.1 hbools.2).le.trans hkept
  · exact hkept

/-- A list that keeps its length has no covered member, and not both truth values. -/
theorem covers_nothing_of_length {ts : List Ty} (h : ts.length ≤ (absorb ts).length) :
    (∀ t ∈ ts, absorbed ts t = false) ∧ (hasBool true ts && hasBool false ts) = false := by
  have hkept : (ts.filter (!absorbed ts ·)).length ≤ ts.length := List.length_filter_le _ _
  simp only [absorb] at h
  split at h
  · rename_i hbools
    rw [Bool.and_eq_true, hasBool_iff, hasBool_iff] at hbools
    have hlt := length_collapseBools_lt hbools.1 hbools.2
    omega
  · rename_i hbools
    have hall : ∀ t ∈ ts, (!absorbed ts t) = true :=
      List.length_filter_eq_length_iff.1 (Nat.le_antisymm hkept h)
    rw [List.filter_eq_self.2 hall] at hbools
    exact ⟨fun t ht => by simpa using hall t ht, by simpa using hbools⟩

/-- Absorption leaves a list in which nothing is absorbed. -/
theorem absorb_eq_self {ts : List Ty} (h : ∀ t ∈ ts, absorbed ts t = false)
    (hbools : (hasBool true ts && hasBool false ts) = false) : absorb ts = ts := by
  have hkept : ts.filter (!absorbed ts ·) = ts :=
    List.filter_eq_self.2 fun t ht => by rw [h t ht]; rfl
  simp only [absorb, hkept, hbools]
  rfl

/-! ### Member lists of normal unions -/

/-- A list of members as they stand in a union in normal form. -/
structure UnionList (ts : List Ty) : Prop where
  isUnion : ∀ t ∈ ts, t.isUnion = false
  isUnknown : ∀ t ∈ ts, t.isUnknown = false
  isNever : ∀ t ∈ ts, t.isNever = false
  distinct : ts.Pairwise fun a b => a.equal b = false
  absorbed : ∀ t ∈ ts, absorbed ts t = false
  bools : (hasBool true ts && hasBool false ts) = false

theorem ofMembers_eq_union {ts : List Ty} (h : 2 ≤ ts.length) : ofMembers ts = .union ts := by
  match ts, h with
  | _ :: _ :: _, _ => rfl

theorem flatList_eq_self {ts : List Ty} (h : ∀ t ∈ ts, t.isUnion = false) : flatList ts = ts :=
  flat_eq_members (t := .union ts) h

/-- Without `unknown` and `never` only doubles and covered members are dropped. -/
theorem unionOf_eq_of_flat {ts us : List Ty} (hflat : flatList ts = us)
    (hunknown : ∀ t ∈ us, t.isUnknown = false) (hnever : ∀ t ∈ us, t.isNever = false) :
    unionOf ts = ofMembers (absorb (distinctWith equal us)) := by
  have hany : us.any Ty.isUnknown = false := by
    rw [List.any_eq_false]
    exact fun t ht => by simp [hunknown t ht]
  have hkept : us.filter (!Ty.isNever ·) = us :=
    List.filter_eq_self.2 fun t ht => by rw [hnever t ht]; rfl
  rw [unionOf, unionWith, hflat, hany, hkept]
  rfl

/-- **Normal member lists stay as they are.** -/
theorem unionOf_eq_ofMembers {ts : List Ty} (h : UnionList ts) : unionOf ts = ofMembers ts := by
  rw [unionOf_eq_of_flat (flatList_eq_self h.isUnion) h.isUnknown h.isNever,
    distinctWith_eq_self h.distinct, absorb_eq_self h.absorbed h.bools]

/-- A union that was built has the members that were left, and they are at least two: one member
would be no union. -/
theorem members_of_unionOf {ts us : List Ty} (h : unionOf ts = .union us) :
    (flatList ts).any Ty.isUnknown = false ∧ 2 ≤ us.length ∧
      us = absorb (distinctWith equal ((flatList ts).filter (!Ty.isNever ·))) := by
  simp only [unionOf, unionWith] at h
  split at h
  · cases h
  · rename_i hunknown
    refine ⟨by simpa using hunknown, ?_⟩
    generalize hms : absorb (distinctWith equal ((flatList ts).filter (!Ty.isNever ·))) = ms at h ⊢
    match ms, h with
    | [m], h =>
        have hm : m ∈ flatList ts ∨ m = .boolean := by
          have hmem := mem_absorb (t := m) (by rw [hms]; exact .head _)
          exact hmem.imp_left fun h => List.mem_of_mem_filter ((distinctWith_sublist _ _).subset h)
        have hm' : m.isUnion = false := by
          rcases hm with hm | rfl
          · exact isUnion_of_mem_flatList hm
          · rfl
        rw [show m = .union us from h] at hm'
        cases hm'
    | _ :: _ :: _, h =>
        cases h
        exact ⟨by simp, rfl⟩

/-- No member of a union that was built is a union, `unknown` or `never`. -/
theorem heads_of_unionOf {ts us : List Ty} (h : unionOf ts = .union us) {t : Ty} (ht : t ∈ us) :
    t.isUnion = false ∧ t.isUnknown = false ∧ t.isNever = false := by
  obtain ⟨hunknown, -, rfl⟩ := members_of_unionOf h
  rcases mem_absorb ht with ht | rfl
  · have hkept := List.mem_filter.1 ((distinctWith_sublist _ _).subset ht)
    exact ⟨isUnion_of_mem_flatList hkept.1,
      by simpa using List.any_eq_false.1 hunknown t hkept.1, by simpa using hkept.2⟩
  · exact ⟨rfl, rfl, rfl⟩

/-- **The unions in normal form** are those with a normal list of two members or more. -/
theorem unionOf_eq_union_iff {ts : List Ty} :
    unionOf ts = .union ts ↔ UnionList ts ∧ 2 ≤ ts.length := by
  constructor
  · intro h
    have hheads := fun t (ht : t ∈ ts) => heads_of_unionOf h ht
    obtain ⟨-, hlen, hself⟩ := members_of_unionOf h
    rw [flatList_eq_self fun t ht => (hheads t ht).1,
      List.filter_eq_self.2 fun t ht => by rw [(hheads t ht).2.2]; rfl] at hself
    -- dropping doubles and covered members has dropped nothing, as the length is the same
    have hdistinct : distinctWith equal ts = ts := by
      refine (distinctWith_sublist equal ts).eq_of_length_le ?_
      calc ts.length = (absorb (distinctWith equal ts)).length := by rw [← hself]
        _ ≤ (distinctWith equal ts).length := length_absorb_le _
    rw [hdistinct] at hself
    have hlength : ts.length ≤ (absorb ts).length := by rw [← hself]
    obtain ⟨habsorbed, hbools⟩ := covers_nothing_of_length hlength
    refine ⟨⟨fun t ht => (hheads t ht).1, fun t ht => (hheads t ht).2.1,
      fun t ht => (hheads t ht).2.2, ?_, habsorbed, hbools⟩, hlen⟩
    rw [← hdistinct]
    exact distinctWith_pairwise equal ts
  · rintro ⟨h, hlen⟩
    rw [unionOf_eq_ofMembers h, ofMembers_eq_union hlen]

/-! Normal lists are closed under leaving members out and under adding `nil`. -/

/-- A sublist of a union's members is one of a union's. -/
theorem UnionList.sublist {ts us : List Ty} (h : UnionList ts) (hsub : us.Sublist ts) :
    UnionList us where
  isUnion t ht := h.isUnion t (hsub.subset ht)
  isUnknown t ht := h.isUnknown t (hsub.subset ht)
  isNever t ht := h.isNever t (hsub.subset ht)
  distinct := h.distinct.sublist hsub
  absorbed t ht := by
    by_contra hcov
    have hcov' := absorbed_mono hsub.subset (by simpa using hcov)
    rw [h.absorbed t (hsub.subset ht)] at hcov'
    cases hcov'
  bools := by
    have hbools := h.bools
    rw [Bool.and_eq_false_iff, ← Bool.not_eq_true, ← Bool.not_eq_true, hasBool_iff, hasBool_iff]
      at hbools ⊢
    exact hbools.imp (mt (hsub.subset ·)) (mt (hsub.subset ·))

/-- `nil` covers nothing. -/
theorem absorbed_concat_nil (ts : List Ty) (t : Ty) :
    absorbed (ts ++ [.nil]) t = absorbed ts t := by
  have hprim : ∀ p, p ≠ .nil → hasPrim p (ts ++ [.nil]) = hasPrim p ts := by
    intro p hp
    rw [Bool.eq_iff_iff, hasPrim_iff, hasPrim_iff]
    simp [hp]
  cases t with
  | prim p => cases p <;> simp [absorbed, hprim]
  | lit l =>
      have hl : l.prim ≠ .nil := by cases l <;> simp [Lit.prim]
      simp [absorbed, hprim, hl]
  | _ => rfl

/-- So are the members with nil at the end. -/
theorem UnionList.concat_nil {ts : List Ty} (h : UnionList ts) (hnil : ∀ t ∈ ts, t.isNil = false) :
    UnionList (ts ++ [.nil]) where
  isUnion t ht := by
    rcases List.mem_append.1 ht with ht | ht
    · exact h.isUnion t ht
    · rw [List.mem_singleton.1 ht]; rfl
  isUnknown t ht := by
    rcases List.mem_append.1 ht with ht | ht
    · exact h.isUnknown t ht
    · rw [List.mem_singleton.1 ht]; rfl
  isNever t ht := by
    rcases List.mem_append.1 ht with ht | ht
    · exact h.isNever t ht
    · rw [List.mem_singleton.1 ht]; rfl
  distinct := by
    refine List.pairwise_append.2 ⟨h.distinct, List.pairwise_singleton _ _, fun a ha b hb => ?_⟩
    rw [List.mem_singleton.1 hb, ← Bool.not_eq_true, equal_prim_right_iff]
    rintro rfl
    cases hnil _ ha
  absorbed t ht := by
    rw [absorbed_concat_nil]
    rcases List.mem_append.1 ht with ht | ht
    · exact h.absorbed t ht
    · rw [List.mem_singleton.1 ht]; rfl
  bools := by
    have hbools := h.bools
    rw [Bool.and_eq_false_iff, ← Bool.not_eq_true, ← Bool.not_eq_true, hasBool_iff, hasBool_iff]
      at hbools ⊢
    simpa using hbools

/-- So is a single type that is no union, not unknown and not empty. -/
theorem UnionList.singleton {t : Ty} (hunion : t.isUnion = false) (hunknown : t.isUnknown = false)
    (hnever : t.isNever = false) : UnionList [t] where
  isUnion u hu := by rwa [List.mem_singleton.1 hu]
  isUnknown u hu := by rwa [List.mem_singleton.1 hu]
  isNever u hu := by rwa [List.mem_singleton.1 hu]
  distinct := List.pairwise_singleton _ _
  absorbed u hu := by
    rw [List.mem_singleton.1 hu]
    unfold Ty.absorbed
    split <;> simp [hasPrim]
  bools := by
    rw [Bool.and_eq_false_iff, ← Bool.not_eq_true, ← Bool.not_eq_true, hasBool_iff, hasBool_iff]
    cases t <;> simp
    rename_i l
    cases l <;> simp

/-! ### Intersections -/

theorem equal_object_eq_false {o : Object} {t : Ty} (h : t.isObject = false) :
    equal (.object o) t = false := by
  rw [equal, depthBound, equalUpTo_succ]
  cases t <;> first | rfl | cases h

/-- A part of an entry is no larger than the list. -/
theorem size_le_of_mem_parts {ts : List Ty} {t : Ty} (h : t ∈ ts.flatMap parts) :
    t.size ≤ sizeList ts := by
  obtain ⟨u, hu, ht⟩ := List.mem_flatMap.1 h
  refine le_trans ?_ (size_le_sizeList hu)
  cases u with
  | inter us =>
      have := size_le_sizeList (show t ∈ us from ht)
      simp only [size]
      omega
  | _ => rw [List.mem_singleton.1 ht]

/-- An intersection that stays as it is has the members that were left: a single one would be smaller
than the intersection. -/
theorem members_of_interOf {ts : List Ty} (h : interOf ts = .inter ts) :
    ∃ merged : Option Object, ts = merged.toList.map .object ++
      distinctWith equal ((ts.flatMap parts).filter fun t => !(t.isObject || t.isUnknown)) := by
  simp only [interOf, interWith] at h
  split at h
  · cases h
  · refine ⟨mergeObjects (fun a b => interWith equal (sizeList ts) [a, b])
      (objectsOf (ts.flatMap parts)), ?_⟩
    generalize mergeObjects (fun a b => interWith equal (sizeList ts) [a, b])
      (objectsOf (ts.flatMap parts)) = merged at h ⊢
    generalize hms : merged.toList.map Ty.object ++ _ = ms at h
    match ms, h with
    | [m], h =>
        have hm : m ∈ merged.toList.map Ty.object ∨ m ∈ ts.flatMap parts := by
          refine (List.mem_append.1 (hms ▸ List.mem_singleton_self m)).imp_right fun h => ?_
          exact List.mem_of_mem_filter ((distinctWith_sublist _ _).subset h)
        rw [show m = .inter ts from h] at hm
        rcases hm with hm | hm
        · simp at hm
        · have := size_le_of_mem_parts hm
          simp only [size] at this
          omega
    | _ :: _ :: _, h =>
        cases h
        rfl

/-- The members of a built intersection differ. -/
theorem pairwise_of_interOf {ts : List Ty} (h : interOf ts = .inter ts) :
    ts.Pairwise fun a b => a.equal b = false := by
  obtain ⟨merged, hts⟩ := members_of_interOf h
  rw [hts]
  refine List.pairwise_append.2 ⟨?_, distinctWith_pairwise _ _, fun a ha b hb => ?_⟩
  · cases merged <;> simp
  · obtain ⟨o, -, rfl⟩ := List.mem_map.1 ha
    have hkept := (List.mem_filter.1 ((distinctWith_sublist _ _).subset hb)).2
    rw [Bool.not_eq_true', Bool.or_eq_false_iff] at hkept
    exact equal_object_eq_false hkept.1

/-! ### Normal form throughout -/

/-- What normal form asks of the head of a type. -/
def NormalHead : Ty → Prop
  | .lit l => l ≠ .num .nan
  | .object o => o.names.Nodup
  | .func f => f.tparams = []
  | .union ts => unionOf ts = .union ts
  | .inter ts => interOf ts = .inter ts
  | _ => True

/-- Types without type parameters that are in normal form at every node. -/
inductive Normal : Ty → Prop
  | intro {t : Ty} : t.NormalHead → (∀ u, Part u t → Normal u) → Normal t

theorem Normal.head {t : Ty} (h : t.Normal) : t.NormalHead := by
  cases h with
  | intro hhead _ => exact hhead

theorem Normal.part {t u : Ty} (h : t.Normal) (hu : Part u t) : u.Normal := by
  cases h with
  | intro _ hparts => exact hparts u hu

theorem normal_prim (p : Prim) : Normal (.prim p) :=
  .intro trivial fun _ hu => nomatch hu

theorem normal_str (x : String) : Normal (.str x) :=
  .intro (by simp [NormalHead]) fun _ hu => nomatch hu

theorem normal_bool (b : Bool) : Normal (.bool b) :=
  .intro (by simp [NormalHead]) fun _ hu => nomatch hu

theorem Normal.wellFormed {t : Ty} (h : t.Normal) : t.WellFormed := by
  induction h with
  | @intro t hhead _ ih =>
      cases t with
      | prim p => exact .prim p
      | lit l => exact .lit hhead
      | array e => exact .array (ih _ .array)
      | tuple es => exact .tuple fun e he => ih e (.tuple he)
      | object o =>
          exact .object hhead (fun m hm => ih _ (.member hm rfl)) (fun i hi => ih _ (.key hi rfl))
            fun i hi => ih _ (.value hi rfl)
      | func f => exact .func hhead (fun p hp => ih _ (.param hp rfl)) fun r hr => ih r (.ret hr)
      | pred x t => exact .pred (ih _ .pred)
      | union ts =>
          exact .union (unionOf_eq_union_iff.1 hhead).1.distinct fun t ht => ih t (.union ht)
      | inter ts => exact .inter (pairwise_of_interOf hhead) fun t ht => ih t (.inter ht)
      | ref x args => exact .ref fun a ha => ih a (.arg ha)
      | tvar n => exact .tvar n
      | classRef n => exact .classRef n

/-! Members of types in normal form. -/

theorem Normal.of_mem_members {t m : Ty} (h : t.Normal) (hm : m ∈ t.members) : m.Normal := by
  cases t with
  | union ts => exact h.part (.union hm)
  | _ => rwa [List.mem_singleton.1 hm]

/-- The members of a normal type are a union's. -/
theorem Normal.unionList {t : Ty} (h : t.Normal) (hunknown : t.isUnknown = false)
    (hnever : t.isNever = false) : UnionList t.members := by
  cases t with
  | union ts => exact (unionOf_eq_union_iff.1 h.head).1
  | _ => exact .singleton rfl hunknown hnever

theorem Normal.ofMembers_members {t : Ty} (h : t.Normal) : ofMembers t.members = t := by
  cases t with
  | union ts => exact ofMembers_eq_union (unionOf_eq_union_iff.1 h.head).2
  | _ => rfl

/-- What normal members build is normal. -/
theorem normal_ofMembers {ts : List Ty} (h : UnionList ts) (hts : ∀ t ∈ ts, t.Normal) :
    (ofMembers ts).Normal := by
  match ts with
  | [] => exact normal_prim _
  | [t] => exact hts t (.head _)
  | t :: u :: us =>
      refine .intro (unionOf_eq_union_iff.2 ⟨h, by simp⟩) fun v hv => ?_
      cases hv with
      | union hv => exact hts v hv

/-! ### `nil` as a member -/

theorem hasNil_iff {t : Ty} : t.hasNil = true ↔ .nil ∈ t.members := by
  rw [hasNil, List.any_eq_true]
  simp only [isNil_iff, exists_eq_right]

/-- Adding `nil` to a type whose members make a normal list. -/
theorem nullable_eq_of_unionList {t : Ty} (hlist : UnionList t.members) (hself : ofMembers t.members = t) :
    t.nullable = if t.hasNil then t else ofMembers (t.members ++ [.nil]) := by
  have hflat : flatList [t, .nil] = t.members ++ [.nil] := by
    rw [flatList, flat_eq_members hlist.isUnion]
    rfl
  have hmem : ∀ m ∈ t.members ++ [Ty.nil], m.isUnknown = false ∧ m.isNever = false := by
    intro m hm
    rcases List.mem_append.1 hm with hm | hm
    · exact ⟨hlist.isUnknown m hm, hlist.isNever m hm⟩
    · rw [List.mem_singleton.1 hm]
      exact ⟨rfl, rfl⟩
  have hany : (t.members.any fun m => m.equal .nil) = t.hasNil := by
    rw [Bool.eq_iff_iff, hasNil_iff, List.any_eq_true]
    simp only [equal_prim_right_iff, exists_eq_right]
  rw [nullable, unionOf_eq_of_flat hflat (fun m hm => (hmem m hm).1) fun m hm => (hmem m hm).2,
    distinctWith_concat hlist.distinct, hany]
  cases hnil : t.hasNil with
  | true =>
      rw [if_pos rfl, if_pos rfl, absorb_eq_self hlist.absorbed hlist.bools, hself]
  | false =>
      have hnew := hlist.concat_nil (hasNil_eq_false_iff.1 hnil)
      rw [if_neg (by simp), if_neg (by simp), absorb_eq_self hnew.absorbed hnew.bools]

/-- Adding `nil` to a type in normal form. -/
theorem nullable_eq {t : Ty} (h : t.Normal) (hunknown : t.isUnknown = false)
    (hnever : t.isNever = false) :
    t.nullable = if t.hasNil then t else ofMembers (t.members ++ [.nil]) :=
  nullable_eq_of_unionList (h.unionList hunknown hnever) h.ofMembers_members

/-- Removing `nil` from a type in normal form. -/
theorem removeNil_eq {t : Ty} (h : t.Normal) (hunknown : t.isUnknown = false)
    (hnever : t.isNever = false) :
    t.removeNil = ofMembers (t.members.filter fun m => !m.isNil) :=
  unionOf_eq_ofMembers ((h.unionList hunknown hnever).sublist List.filter_sublist)

theorem normal_nullable {t : Ty} (h : t.Normal) : t.nullable.Normal := by
  obtain rfl | rfl | ⟨hunknown, hnever⟩ := t.unknown_or_never_or
  · exact normal_prim _
  · exact normal_prim _
  · rw [nullable_eq h hunknown hnever]
    cases hnil : t.hasNil with
    | true => exact h
    | false =>
        refine normal_ofMembers
          ((h.unionList hunknown hnever).concat_nil (hasNil_eq_false_iff.1 hnil)) fun m hm => ?_
        rcases List.mem_append.1 hm with hm | hm
        · exact h.of_mem_members hm
        · rw [List.mem_singleton.1 hm]
          exact normal_prim _

theorem normal_removeNil {t : Ty} (h : t.Normal) : t.removeNil.Normal := by
  obtain rfl | rfl | ⟨hunknown, hnever⟩ := t.unknown_or_never_or
  · exact normal_prim _
  · exact normal_prim _
  · rw [removeNil_eq h hunknown hnever]
    exact normal_ofMembers ((h.unionList hunknown hnever).sublist List.filter_sublist)
      fun m hm => h.of_mem_members (List.mem_of_mem_filter hm)

/-! Sizes. -/

theorem sizeList_append (xs ys : List Ty) : sizeList (xs ++ ys) = sizeList xs + sizeList ys := by
  induction xs with
  | nil => simp [sizeList]
  | cons x xs ih =>
      rw [List.cons_append, sizeList, sizeList, ih]
      omega

/-- A sublist is no larger. -/
theorem sizeList_sublist {xs ys : List Ty} (h : xs.Sublist ys) : sizeList xs ≤ sizeList ys := by
  induction h with
  | slnil => exact le_refl _
  | cons y _ ih =>
      rw [sizeList]
      omega
  | cons_cons y _ ih =>
      rw [sizeList, sizeList]
      omega

theorem sizeList_members_le (t : Ty) : sizeList t.members ≤ t.size := by
  cases t <;> simp [members, sizeList, size]

/-- What some of a type's members build is no larger than the type. -/
theorem size_ofMembers_le {t : Ty} {us : List Ty} (h : us.Sublist t.members) :
    (ofMembers us).size ≤ t.size := by
  have hpos := t.size_pos
  match us with
  | [] => exact hpos
  | [u] => exact (size_le_sizeList (h.subset (.head _))).trans (sizeList_members_le t)
  | u :: v :: us =>
      cases t with
      | union ts =>
          have := sizeList_sublist h
          simp only [ofMembers, size, members] at this ⊢
          omega
      | _ => simpa [members] using h.length_le

/-- Adding `nil` makes a type larger only if it becomes a union. -/
theorem size_nullable_le {t : Ty} (h : t.Normal) :
    t.nullable.size ≤ t.size ∨ t.nullable.isUnion = true ∧ t.nullable.size ≤ t.size + 2 := by
  obtain rfl | rfl | ⟨hunknown, hnever⟩ := t.unknown_or_never_or
  · exact Or.inl (le_refl _)
  · exact Or.inl (le_refl _)
  · rw [nullable_eq h hunknown hnever]
    cases t.hasNil with
    | true => exact Or.inl (le_refl _)
    | false =>
        have hsize := sizeList_members_le t
        have hlen : 2 ≤ (t.members ++ [Ty.nil]).length := by
          cases t with
          | union ts =>
              have := (unionOf_eq_union_iff.1 h.head).2
              simp only [members, List.length_append, List.length_singleton]
              omega
          | _ => simp [members]
        rw [if_neg (by simp), ofMembers_eq_union hlen]
        refine Or.inr ⟨rfl, ?_⟩
        simp only [size, sizeList_append, sizeList]
        omega

theorem size_removeNil_le {t : Ty} (h : t.Normal) : t.removeNil.size ≤ t.size := by
  obtain rfl | rfl | ⟨hunknown, hnever⟩ := t.unknown_or_never_or
  · exact le_refl _
  · exact le_refl _
  · rw [removeNil_eq h hunknown hnever]
    exact size_ofMembers_le List.filter_sublist

/-! ### Equal types in normal form -/

/-- Two lists without doubles whose members have counterparts in each other make equal unions. -/
theorem equal_ofMembers {xs ys : List Ty} (hx : ∀ x ∈ xs, x.WellFormed) (hy : ∀ y ∈ ys, y.WellFormed)
    (hdx : xs.Pairwise fun a b => a.equal b = false) (hdy : ys.Pairwise fun a b => a.equal b = false)
    (hxy : ∀ x ∈ xs, ∃ y ∈ ys, y.equal x = true) (hyx : ∀ y ∈ ys, ∃ x ∈ xs, x.equal y = true) :
    (ofMembers xs).equal (ofMembers ys) = true := by
  have hE := equivOn_wellFormed
  have hlen : xs.length = ys.length := by
    refine Nat.le_antisymm (length_le_of_cover hdx hxy fun a ha b hb y hmem hya hyb => ?_)
      (length_le_of_cover hdy hyx fun a ha b hb x hmem hxa hxb => ?_)
    · exact hE.trans (hx a ha) (hy y hmem) (hx b hb) (hE.symm (hy y hmem) (hx a ha) hya) hyb
    · exact hE.trans (hy a ha) (hx x hmem) (hy b hb) (hE.symm (hx x hmem) (hy a ha) hxa) hxb
  match xs, ys, hlen with
  | [], [], _ => exact equal_prim_iff.2 rfl
  | [x], [y], _ =>
      obtain ⟨x', hx', heq⟩ := hyx y (.head _)
      rwa [List.mem_singleton.1 hx'] at heq
  | x :: x' :: xs, y :: y' :: ys, hlen =>
      change equal (.union _) (.union _) = true
      rw [equal_eq_sameNode (.union hdx hx) (.union hdy hy)]
      exact sameNode_union_iff.2 ⟨_, rfl, sameSet_iff.2 ⟨hlen, hxy⟩⟩

theorem prim_iff_of_equal {t u : Ty} (h : t.equal u = true) (p : Prim) : t = .prim p ↔ u = .prim p := by
  constructor
  · rintro rfl
    exact equal_prim_iff.1 h
  · rintro rfl
    exact equal_prim_right_iff.1 h

theorem isNil_of_equal {t u : Ty} (h : t.equal u = true) : t.isNil = u.isNil := by
  rw [Bool.eq_iff_iff, isNil_iff, isNil_iff, prim_iff_of_equal h]

theorem isUnknown_of_equal {t u : Ty} (h : t.equal u = true) : t.isUnknown = u.isUnknown := by
  rw [Bool.eq_iff_iff, isUnknown_iff, isUnknown_iff, prim_iff_of_equal h]

theorem isNever_of_equal {t u : Ty} (h : t.equal u = true) : t.isNever = u.isNever := by
  rw [Bool.eq_iff_iff, isNever_iff, isNever_iff, prim_iff_of_equal h]

/-- Equal types have equal members. -/
theorem counterpart_of_equal {t u : Ty} (ht : t.WellFormed) (hu : u.WellFormed)
    (h : t.equal u = true) : ∀ m ∈ t.members, ∃ n ∈ u.members, n.equal m = true := by
  have hself : ∃ n ∈ [u], n.equal t = true := ⟨u, .head _, equivOn_wellFormed.symm ht hu h⟩
  rw [equal_eq_sameNode ht hu] at h
  cases t with
  | union ts =>
      obtain ⟨us, rfl, hs⟩ := sameNode_union_iff.1 h
      exact (sameSet_iff.1 hs).2
  | _ =>
      have hmem : u.members = [u] := by
        cases u <;> first | rfl | cases h
      rw [hmem]
      intro m hm
      rwa [List.mem_singleton.1 hm]

/-- Equal types both list nil or both do not. -/
theorem hasNil_of_equal {t u : Ty} (ht : t.WellFormed) (hu : u.WellFormed) (h : t.equal u = true) :
    t.hasNil = u.hasNil := by
  have hle : ∀ {t u : Ty}, t.WellFormed → u.WellFormed → t.equal u = true →
      t.hasNil = true → u.hasNil = true := by
    intro t u ht hu h hnil
    obtain ⟨n, hn, heq⟩ := counterpart_of_equal ht hu h _ (hasNil_iff.1 hnil)
    rw [equal_prim_right_iff.1 heq] at hn
    exact hasNil_iff.2 hn
  exact Bool.eq_iff_iff.2 ⟨hle ht hu h, hle hu ht (equivOn_wellFormed.symm ht hu h)⟩

section Equal

variable {t u : Ty} (ht : t.Normal) (hu : u.Normal) (h : t.equal u = true)

include ht hu h

theorem equal_nullable : t.nullable.equal u.nullable = true := by
  have hback := equivOn_wellFormed.symm ht.wellFormed hu.wellFormed h
  obtain rfl | rfl | ⟨hunknown, hnever⟩ := t.unknown_or_never_or
  · rw [equal_prim_iff.1 h]
    exact equal_prim_iff.2 rfl
  · rw [equal_prim_iff.1 h]
    exact equal_prim_iff.2 rfl
  · have hunknown' := isUnknown_of_equal h ▸ hunknown
    have hnever' := isNever_of_equal h ▸ hnever
    have hnils := hasNil_of_equal ht.wellFormed hu.wellFormed h
    rw [nullable_eq ht hunknown hnever, nullable_eq hu hunknown' hnever', ← hnils]
    cases hnil : t.hasNil with
    | true => exact h
    | false =>
        -- both lists get `nil` as a last member, and it is its own counterpart
        have hcover : ∀ {v w : Ty}, v.WellFormed → w.WellFormed → v.equal w = true →
            ∀ m ∈ v.members ++ [.nil], ∃ n ∈ w.members ++ [.nil], n.equal m = true := by
          intro v w hv hw heq m hm
          rcases List.mem_append.1 hm with hm | hm
          · obtain ⟨n, hn, hnm⟩ := counterpart_of_equal hv hw heq m hm
            exact ⟨n, List.mem_append_left _ hn, hnm⟩
          · rw [List.mem_singleton.1 hm]
            exact ⟨.nil, by simp, equal_prim_iff.2 rfl⟩
        have hmem : ∀ {v : Ty}, v.Normal → ∀ m ∈ v.members ++ [.nil], m.WellFormed := by
          intro v hv m hm
          rcases List.mem_append.1 hm with hm | hm
          · exact (hv.of_mem_members hm).wellFormed
          · rw [List.mem_singleton.1 hm]
            exact .prim _
        rw [if_neg (by simp), if_neg (by simp)]
        exact equal_ofMembers (hmem ht) (hmem hu)
          ((ht.unionList hunknown hnever).concat_nil (hasNil_eq_false_iff.1 hnil)).distinct
          ((hu.unionList hunknown' hnever').concat_nil (hasNil_eq_false_iff.1 (hnils ▸ hnil))).distinct
          (hcover ht.wellFormed hu.wellFormed h) (hcover hu.wellFormed ht.wellFormed hback)

theorem equal_removeNil : t.removeNil.equal u.removeNil = true := by
  have hback := equivOn_wellFormed.symm ht.wellFormed hu.wellFormed h
  obtain rfl | rfl | ⟨hunknown, hnever⟩ := t.unknown_or_never_or
  · rw [equal_prim_iff.1 h]
    exact equal_prim_iff.2 rfl
  · rw [equal_prim_iff.1 h]
    exact equal_prim_iff.2 rfl
  · have hunknown' := isUnknown_of_equal h ▸ hunknown
    have hnever' := isNever_of_equal h ▸ hnever
    have hcover : ∀ {v w : Ty}, v.WellFormed → w.WellFormed → v.equal w = true →
        ∀ m ∈ v.members.filter (!·.isNil), ∃ n ∈ w.members.filter (!·.isNil), n.equal m = true := by
      intro v w hv hw heq m hm
      obtain ⟨hm, hkeep⟩ := List.mem_filter.1 hm
      obtain ⟨n, hn, hnm⟩ := counterpart_of_equal hv hw heq m hm
      exact ⟨n, List.mem_filter.2 ⟨hn, by rwa [isNil_of_equal hnm]⟩, hnm⟩
    rw [removeNil_eq ht hunknown hnever, removeNil_eq hu hunknown' hnever']
    exact equal_ofMembers
      (fun m hm => (ht.of_mem_members (List.mem_of_mem_filter hm)).wellFormed)
      (fun m hm => (hu.of_mem_members (List.mem_of_mem_filter hm)).wellFormed)
      ((ht.unionList hunknown hnever).distinct.sublist List.filter_sublist)
      ((hu.unionList hunknown' hnever').distinct.sublist List.filter_sublist)
      (hcover ht.wellFormed hu.wellFormed h) (hcover hu.wellFormed ht.wellFormed hback)

end Equal

end TreeCheck.Ty
