import TreeCheck.Proofs.Ty.Node

/-!
# Comparing generic signatures

Two generic signatures are compared by giving the type parameters of the one the names of the other.
That is a substitution, so it brings types into normal form again, and normal forms compare types in
turn, one depth below.  All of this is to a depth that is fixed at the start.  Here it is shown that the
depth does not matter: a renaming makes no type higher, when intersections do not count, and as far as
comparisons go, every depth that is large enough for the height of two types gives the same answer.

* `Ty.Low` — types of a bounded height; `Ty.low_applyWith` — renamings keep the height;
* `Ty.applyWith_congr` — a renaming sees the equality test only at types that are not higher;
* `Ty.equalUpTo_eq_equal_of_low`, `Ty.equal_eq_sameNode_of_low` — equality by parts, also for generic
  signatures.
-/

namespace TreeCheck

namespace Ty

/-! ### Height -/

/-- The type is at most `h` nodes high.  An intersection counts as its highest part, and none of its
parts is an intersection again. -/
inductive Low : ℕ → Ty → Prop
  | node {h : ℕ} {t : Ty} : t.isInter = false → (∀ u, Child u t → Low h u) → Low (h + 1) t
  | inter {h : ℕ} {ts : List Ty} : (∀ t ∈ ts, t.isInter = false) → (∀ t ∈ ts, Low (h + 1) t) →
      Low (h + 1) (.inter ts)

section Low

variable {h k : ℕ} {t u : Ty}

theorem Low.exists_succ (ht : Low h t) : ∃ k, h = k + 1 := by
  cases ht with
  | node _ _ => exact ⟨_, rfl⟩
  | inter _ _ => exact ⟨_, rfl⟩

/-- A child of a low type is lower by one. -/
theorem Low.child (ht : Low (h + 1) t) (hinter : t.isInter = false) (hu : Child u t) : Low h u := by
  cases ht with
  | node _ hchildren => exact hchildren u hu
  | inter _ _ => cases hinter

theorem Low.isInter_of_mem {ts : List Ty} (ht : Low h (.inter ts)) : ∀ t ∈ ts, t.isInter = false := by
  cases ht with
  | node hinter _ => cases hinter
  | inter hinter _ => exact hinter

theorem Low.of_mem_inter {ts : List Ty} (ht : Low h (.inter ts)) : ∀ t ∈ ts, Low h t := by
  cases ht with
  | node hinter _ => cases hinter
  | inter _ hts => exact hts

theorem Low.mono (ht : Low h t) (hk : h ≤ k) : Low k t := by
  induction ht generalizing k with
  | node hinter _ ih =>
      obtain ⟨k, rfl⟩ : ∃ m, k = m + 1 := ⟨k - 1, by omega⟩
      exact .node hinter fun u hu => ih u hu (by omega)
  | inter hinter _ ih =>
      obtain ⟨k, rfl⟩ : ∃ m, k = m + 1 := ⟨k - 1, by omega⟩
      exact .inter hinter fun t ht => ih t ht hk

/-- What stands below is not higher. -/
theorem Low.child_le (ht : Low h t) (hu : Child u t) : Low h u := by
  cases ht with
  | node _ hchildren => exact (hchildren u hu).mono (Nat.le_succ _)
  | inter _ hts =>
      cases hu with
      | part hu =>
          cases hu with
          | inter hu => exact hts u hu

theorem low_prim (p : Prim) : Low (h + 1) (.prim p) := .node rfl fun u hu => by
  cases hu with
  | part hu => cases hu

theorem low_tvar (v : String) : Low (h + 1) (.tvar v) := .node rfl fun u hu => by
  cases hu with
  | part hu => cases hu

/-- Only the parts of the outermost intersection count more than once. -/
theorem Low.size (ht : Low h t) : Low t.size t := by
  obtain ⟨n, hn⟩ : ∃ n, t.size = n + 1 := ⟨t.size - 1, by have := t.size_pos; omega⟩
  induction ht generalizing n with
  | node hinter _ ih =>
      rw [hn]
      refine .node hinter fun u hu => ?_
      have := hu.size_lt
      have := u.size_pos
      exact (ih u hu (u.size - 1) (by omega)).mono (by omega)
  | inter hinter _ ih =>
      rw [hn]
      refine .inter hinter fun t ht => ?_
      have := (Part.inter ht).size_lt
      have := t.size_pos
      exact (ih t ht (t.size - 1) (by omega)).mono (by omega)

/-- A union of low types is higher by one. -/
theorem low_union {ts : List Ty} (hts : ∀ t ∈ ts, Low h t) : Low (h + 1) (.union ts) :=
  .node rfl fun u hu => by
    cases hu with
    | part hu =>
        cases hu with
        | union hu => exact hts u hu

/-- The flat members of a type are not higher. -/
theorem Low.flat (ht : Low h t) : ∀ u ∈ t.flat, Low h u := by
  induction hn : t.size using Nat.strong_induction_on generalizing h t with
  | _ n ih =>
      subst hn
      intro u hu
      cases t with
      | union ts =>
          rw [Ty.flat, flatList_eq_flatMap, List.mem_flatMap] at hu
          obtain ⟨m, hm, hu⟩ := hu
          obtain ⟨h, rfl⟩ := ht.exists_succ
          exact (ih _ (Part.union hm).size_lt (ht.child rfl (.part (.union hm))) rfl u hu).mono (by omega)
      | _ => rwa [List.mem_singleton.1 hu]

theorem low_flatList {ts : List Ty} (hts : ∀ t ∈ ts, Low h t) : ∀ u ∈ flatList ts, Low h u := by
  intro u hu
  rw [flatList_eq_flatMap, List.mem_flatMap] at hu
  obtain ⟨t, ht, hu⟩ := hu
  exact (hts t ht).flat u hu

/-- A built union is one higher than what it is built from. -/
theorem low_unionWith (eq : Ty → Ty → Bool) {ts : List Ty} (hts : ∀ t ∈ ts, Low h t) :
    Low (h + 1) (unionWith eq ts) := by
  simp only [unionWith]
  split
  · exact low_prim _
  · have hgiven : ∀ u ∈ distinctWith eq ((flatList ts).filter (!isNever ·)), Low h u := fun u hu =>
      low_flatList hts u (List.mem_of_mem_filter ((distinctWith_sublist _ _).subset hu))
    have hmem : ∀ u ∈ absorb (distinctWith eq ((flatList ts).filter (!isNever ·))), Low h u := by
      intro u hu
      rcases mem_absorb_cases hu with hu | ⟨rfl, hbools⟩
      · exact hgiven u hu
      · obtain ⟨k, rfl⟩ := (hgiven _ (hbools true)).exists_succ
        exact low_prim _
    generalize absorb (distinctWith eq ((flatList ts).filter (!isNever ·))) = us at hmem
    rcases us with _ | ⟨u, _ | ⟨v, us⟩⟩
    · exact low_prim _
    · exact (hmem u (.head _)).mono (by omega)
    · exact low_union hmem

/-- The parts of a low intersection are as low, and no intersections. -/
theorem Low.of_mem_parts (ht : Low h t) (hu : u ∈ t.parts) : Low h u ∧ u.isInter = false := by
  cases t with
  | inter ts => exact ⟨ht.of_mem_inter u hu, ht.isInter_of_mem u hu⟩
  | _ =>
      rw [List.mem_singleton.1 hu]
      exact ⟨ht, rfl⟩

theorem low_flatMap_parts {ts : List Ty} (hts : ∀ t ∈ ts, Low h t) :
    ∀ u ∈ ts.flatMap parts, Low h u ∧ u.isInter = false := by
  intro u hu
  obtain ⟨t, ht, hu⟩ := List.mem_flatMap.1 hu
  exact (hts t ht).of_mem_parts hu

/-- A record is low if its entries are lower by one. -/
theorem low_object_iff {o : Object} : Low (h + 1) (.object o) ↔ Entries (Low h) o := by
  constructor
  · intro ho
    exact ⟨fun m hm => ho.child rfl (.part (.member hm rfl)), fun i hi => ho.child rfl (.part (.key hi rfl)),
      fun i hi => ho.child rfl (.part (.value hi rfl))⟩
  · intro ho
    refine .node rfl fun u hu => ?_
    cases hu with
    | part hu =>
        cases hu with
        | member hm hu => exact hu ▸ ho.members _ hm
        | key hi hu => exact hu ▸ ho.key _ hi
        | value hi hu => exact hu ▸ ho.value _ hi

/-- The entries of the records among low types are lower by one. -/
theorem entries_of_mem_objectsOf {ts : List Ty} (hts : ∀ t ∈ ts, Low (h + 1) t) :
    ∀ o ∈ objectsOf ts, Entries (Low h) o := by
  intro o ho
  obtain ⟨t, ht, hto⟩ := List.mem_filterMap.1 ho
  cases t with
  | object p =>
      cases hto
      exact low_object_iff.1 (hts _ ht)
  | _ => cases hto

/-- What low parts build is as low. -/
theorem low_ofParts {us : List Ty} (hus : ∀ u ∈ us, Low (h + 1) u ∧ u.isInter = false) :
    Low (h + 1) (ofParts us) := by
  rcases us with _ | ⟨u, _ | ⟨v, us⟩⟩
  · exact low_prim _
  · exact (hus u (.head _)).1
  · exact .inter (fun t ht => (hus t ht).2) fun t ht => (hus t ht).1

/-- **A built intersection is not higher than what it is built from**, if its records are merged deep
enough: where they have members in common, intersections are built below. -/
theorem low_interWith (eq : Ty → Ty → Bool) {ts : List Ty} (hts : ∀ t ∈ ts, Low (h + 1) t) (hk : h < k) :
    Low (h + 1) (interWith eq k ts) := by
  induction k generalizing h ts with
  | zero => omega
  | succ k ih =>
      have hparts := low_flatMap_parts hts
      have hmeet : ∀ a b, Low h a → Low h b → Low h (interWith eq k [a, b]) := by
        intro a b ha hb
        obtain ⟨h, rfl⟩ := ha.exists_succ
        exact ih (by simp [ha, hb]) (by omega)
      simp only [interWith]
      split
      · exact low_prim _
      · refine low_ofParts fun u hu => ?_
        rcases List.mem_append.1 hu with hu | hu
        · obtain ⟨o, ho, rfl⟩ := List.mem_map.1 hu
          exact ⟨low_object_iff.2 (Entries.mergeObjects hmeet
            (entries_of_mem_objectsOf fun t ht => (hparts t ht).1) (Option.mem_toList.1 ho)), rfl⟩
        · exact hparts u (List.mem_of_mem_filter ((distinctWith_sublist _ _).subset hu))

/-- The depth that substitution merges records to is enough. -/
theorem low_interWith_size (eq : Ty → Ty → Bool) {ts : List Ty} (hts : ∀ t ∈ ts, Low (h + 1) t) :
    Low (h + 1) (interWith eq (sizeList ts + 1) ts) := by
  rcases Nat.le_total h (sizeList ts) with hle | hle
  · exact low_interWith eq hts (by omega)
  · have hsize : ∀ t ∈ ts, Low (sizeList ts + 1) t := fun t ht =>
      (hts t ht).size.mono ((size_le_sizeList ht).trans (Nat.le_succ _))
    exact (low_interWith eq hsize (Nat.lt_succ_self _)).mono (by omega)

/-- What is put in for a variable is as low as the variable. -/
def PutsInLow (s : Subst) : Prop := ∀ v, Low 1 (s.image v)

theorem PutsInLow.without {s : Subst} (hs : PutsInLow s) (ns : List String) : PutsInLow (s.without ns) := by
  intro v
  rw [Subst.image_without]
  split
  · exact low_tvar v
  · exact hs v

/-- **Types with low ones put in are not higher.** -/
theorem PutsInLow.low_applyWith (eq : Ty → Ty → Bool) {s : Subst} (hs : PutsInLow s) (ht : Low h t) :
    Low h (applyWith eq s t) := by
  induction ht generalizing s with
  | @node h t hinter hchildren ih =>
      rcases t.keepsHead_or with hkeeps | ⟨v, rfl⟩ | ⟨ts, rfl⟩ | ⟨ts, rfl⟩
      · rw [applyWith_of_keepsHead eq s hkeeps]
        refine .node (hkeeps.mapNode _ _).isInter fun u hu => ?_
        obtain ⟨v, hv, rfl⟩ := exists_child_of_mapNode hu
        exact ih v hv (hs.without _)
      · exact (hs v).mono (by omega)
      · rw [applyWith_union]
        exact low_unionWith eq (List.forall_mem_map.2 fun t ht => ih t (.part (.union ht)) hs)
      · cases hinter
  | inter _ _ ih =>
      rw [applyWith_inter]
      exact low_interWith_size eq (List.forall_mem_map.2 fun t ht => ih t ht hs)

/-- A renaming puts variables in for variables. -/
def Renames (s : Subst) : Prop := ∀ v, ∃ w, s.image v = .tvar w

theorem Renames.putsInLow {s : Subst} (hs : Renames s) : PutsInLow s := fun v => by
  obtain ⟨w, hw⟩ := hs v
  rw [hw]
  exact low_tvar w

theorem Renames.without {s : Subst} (hs : Renames s) (ns : List String) : Renames (s.without ns) := by
  intro v
  rw [Subst.image_without]
  split
  · exact ⟨v, rfl⟩
  · exact hs v

/-- **Renamed types are not higher.** -/
theorem low_applyWith (eq : Ty → Ty → Bool) {s : Subst} (hs : Renames s) (ht : Low h t) :
    Low h (applyWith eq s t) :=
  hs.putsInLow.low_applyWith eq ht

/-- No part of an intersection in normal form is an intersection: the highest one would stand in another
part. -/
theorem isInter_of_interOf {ts : List Ty} (hts : interOf ts = .inter ts) (ht : t ∈ ts) :
    t.isInter = false := by
  induction hn : sizeList ts - t.size using Nat.strong_induction_on generalizing t with
  | _ n ih =>
      by_contra hinter
      obtain ⟨merged, hmembers⟩ := members_of_interOf hts
      have hmem := ht
      rw [hmembers, List.mem_append] at hmem
      rcases hmem with hmem | hmem
      · obtain ⟨o, -, rfl⟩ := List.mem_map.1 hmem
        exact hinter rfl
      · obtain ⟨u, hu, htu⟩ := List.mem_flatMap.1
          (List.mem_of_mem_filter ((distinctWith_sublist _ _).subset hmem))
        cases u with
        | inter us =>
            have hlt : t.size < (inter us).size := (Part.inter (show t ∈ us from htu)).size_lt
            have hle := size_le_sizeList hu
            have hfalse := ih _ (by omega) hu rfl
            cases hfalse
        | _ =>
            rw [List.mem_singleton.1 htu] at hinter
            exact hinter rfl

/-- Types in normal form are low. -/
theorem Canonical.low (ht : t.Canonical) : Low t.size t := by
  induction ht with
  | @intro t hhead hchildren ih =>
      obtain ⟨n, hn⟩ : ∃ n, t.size = n + 1 := ⟨t.size - 1, by have := t.size_pos; omega⟩
      have hbelow : ∀ u, Child u t → Low n u := fun u hu =>
        (ih u hu).mono (by have := hu.size_lt; omega)
      rw [hn]
      cases hinter : t.isInter with
      | false => exact .node hinter hbelow
      | true =>
          cases t with
          | inter ts =>
              exact .inter (fun t ht => isInter_of_interOf hhead ht) fun t ht =>
                (hbelow t (.part (.inter ht))).mono (Nat.le_succ n)
          | _ => cases hinter

end Low

/-! ### What the normal forms ask of the equality test -/

section Congruence

variable {eq eq' : Ty → Ty → Bool}

/-- Comparisons that agree on the entries of a list drop the same ones. -/
private theorem foldl_distinct_congr {kept ts : List Ty}
    (h : ∀ a ∈ kept ++ ts, ∀ b ∈ ts, eq a b = eq' a b) :
    ts.foldl (fun kept t => if kept.any (eq · t) then kept else kept ++ [t]) kept =
      ts.foldl (fun kept t => if kept.any (eq' · t) then kept else kept ++ [t]) kept := by
  induction ts generalizing kept with
  | nil => rfl
  | cons t ts ih =>
      have hany : kept.any (eq · t) = kept.any (eq' · t) := by
        rw [Bool.eq_iff_iff, List.any_eq_true, List.any_eq_true]
        refine exists_congr fun a => and_congr_right fun ha => ?_
        rw [h a (List.mem_append_left _ ha) t (.head _)]
      rw [List.foldl_cons, List.foldl_cons, hany]
      refine ih fun a ha b hb => h a ?_ b (.tail _ hb)
      split at ha <;> simp_all [or_left_comm]

theorem distinctWith_congr {ts : List Ty} (h : ∀ a ∈ ts, ∀ b ∈ ts, eq a b = eq' a b) :
    distinctWith eq ts = distinctWith eq' ts :=
  foldl_distinct_congr h

theorem unionWith_congr {ts : List Ty} (h : ∀ a ∈ flatList ts, ∀ b ∈ flatList ts, eq a b = eq' a b) :
    unionWith eq ts = unionWith eq' ts := by
  simp only [unionWith]
  rw [distinctWith_congr fun a ha b hb => h a (List.mem_of_mem_filter ha) b (List.mem_of_mem_filter hb)]

variable {P : Ty → Prop} {meet meet' : Ty → Ty → Ty} (hmeet : ∀ a b, P a → P b → P (meet a b))
  (hagree : ∀ a b, P a → P b → meet a b = meet' a b)

include hmeet hagree

/-- Meets that agree on the entries merge two records alike. -/
theorem mergeObject_congr {o p : Object} (ho : Entries P o) (hp : Entries P p) :
    mergeObject meet o p = mergeObject meet' o p := by
  have hmembers : p.members.foldl (mergeMember meet) o = p.members.foldl (mergeMember meet') o := by
    have hms := hp.members
    generalize p.members = ms at hms
    induction ms generalizing o with
    | nil => rfl
    | cons m ms ih =>
        have hstep : mergeMember meet o m = mergeMember meet' o m := by
          unfold mergeMember
          cases he : o.find? m.name with
          | none => rfl
          | some e =>
              simp only
              rw [hagree _ _ (ho.members e (ObjectOf.mem_of_find? he).1) (hms m (.head _))]
        rw [List.foldl_cons, List.foldl_cons, ← hstep]
        exact ih (ho.mergeMember hmeet (hms m (.head _))) fun x hx => hms x (.tail _ hx)
  unfold mergeObject
  rw [hmembers]

/-- They merge a list of records alike. -/
theorem mergeObjects_congr {os : List Object} (hos : ∀ o ∈ os, Entries P o) :
    mergeObjects meet os = mergeObjects meet' os := by
  cases os with
  | nil => rfl
  | cons o os =>
      have ho := hos o (.head _)
      have hrest : ∀ p ∈ os, Entries P p := fun p hp => hos p (.tail _ hp)
      clear hos
      rw [mergeObjects, mergeObjects]
      refine congrArg some ?_
      induction os generalizing o with
      | nil => rfl
      | cons p ps ih =>
          rw [List.foldl_cons, List.foldl_cons,
            ← mergeObject_congr hmeet hagree ho (hrest p (.head _))]
          exact ih _ (ho.mergeObject hmeet (hrest p (.head _))) fun q hq => hrest q (.tail _ hq)

end Congruence

/-- Two equality tests agree on what normal forms of types of the height compare: on lower types, and on
types of the height that are no intersections. -/
structure Agree (h : ℕ) (eq eq' : Ty → Ty → Bool) : Prop where
  below : ∀ {k : ℕ} {a b : Ty}, k < h → Low k a → Low k b → eq a b = eq' a b
  level : ∀ {a b : Ty}, Low h a → Low h b → a.isInter = false → b.isInter = false → eq a b = eq' a b

section Agree

variable {eq eq' : Ty → Ty → Bool} {h k : ℕ} {ts : List Ty}

theorem Agree.mono (hagree : Agree h eq eq') (hk : k ≤ h) : Agree k eq eq' where
  below hlt ha hb := hagree.below (hlt.trans_le hk) ha hb
  level ha hb hia hib := hagree.level (ha.mono hk) (hb.mono hk) hia hib

/-- Comparisons that agree on low types build the same intersection at every depth above. -/
theorem interWith_congr (hagree : Agree (h + 1) eq eq') (hts : ∀ t ∈ ts, Low (h + 1) t) (hk : h < k) :
    interWith eq k ts = interWith eq' k ts := by
  induction k generalizing h ts with
  | zero => rfl
  | succ k ih =>
      have hparts := low_flatMap_parts hts
      have hpair : ∀ {a b : Ty} {n : ℕ}, Low (n + 1) a → Low (n + 1) b → ∀ t ∈ [a, b], Low (n + 1) t :=
        fun ha hb => by simp [ha, hb]
      have hmeet : ∀ a b, Low h a → Low h b → Low h (interWith eq k [a, b]) := by
        intro a b ha hb
        obtain ⟨h, rfl⟩ := ha.exists_succ
        exact low_interWith eq (hpair ha hb) (by omega)
      have hmeets : ∀ a b, Low h a → Low h b → interWith eq k [a, b] = interWith eq' k [a, b] := by
        intro a b ha hb
        obtain ⟨h, rfl⟩ := ha.exists_succ
        exact ih (hagree.mono (Nat.le_succ _)) (hpair ha hb) (by omega)
      have hdistinct : distinctWith eq ((ts.flatMap parts).filter fun t => !(t.isObject || t.isUnknown)) =
          distinctWith eq' ((ts.flatMap parts).filter fun t => !(t.isObject || t.isUnknown)) :=
        distinctWith_congr fun a ha b hb =>
          have ha' := hparts a (List.mem_of_mem_filter ha)
          have hb' := hparts b (List.mem_of_mem_filter hb)
          hagree.level ha'.1 hb'.1 ha'.2 hb'.2
      simp only [interWith]
      rw [hdistinct, mergeObjects_congr hmeet hmeets
        (entries_of_mem_objectsOf fun t ht => (hparts t ht).1)]

/-- They do at the depth that the size of the list gives. -/
theorem interWith_congr_size (hagree : Agree (h + 1) eq eq') (hts : ∀ t ∈ ts, Low (h + 1) t) :
    interWith eq (sizeList ts + 1) ts = interWith eq' (sizeList ts + 1) ts := by
  rcases Nat.le_total h (sizeList ts) with hle | hle
  · exact interWith_congr hagree hts (by omega)
  · exact interWith_congr (hagree.mono (Nat.succ_le_succ hle)) (fun t ht =>
      (hts t ht).size.mono ((size_le_sizeList ht).trans (Nat.le_succ _))) (Nat.lt_succ_self _)

/-- Depths above the height of the types build the same intersection. -/
theorem interWith_depth (eq : Ty → Ty → Bool) (hts : ∀ t ∈ ts, Low (h + 1) t) {n m : ℕ} (hn : h < n)
    (hm : h < m) : interWith eq n ts = interWith eq m ts := by
  induction n generalizing h m ts with
  | zero => omega
  | succ n ih =>
      obtain ⟨m, rfl⟩ : ∃ k, m = k + 1 := ⟨m - 1, by omega⟩
      have hpair : ∀ {a b : Ty} {k : ℕ}, Low (k + 1) a → Low (k + 1) b → ∀ t ∈ [a, b], Low (k + 1) t :=
        fun ha hb => by simp [ha, hb]
      have hmeet : ∀ a b, Low h a → Low h b → Low h (interWith eq n [a, b]) := by
        intro a b ha hb
        obtain ⟨h, rfl⟩ := ha.exists_succ
        exact low_interWith eq (hpair ha hb) (by omega)
      have hmeets : ∀ a b, Low h a → Low h b → interWith eq n [a, b] = interWith eq m [a, b] := by
        intro a b ha hb
        obtain ⟨h, rfl⟩ := ha.exists_succ
        exact ih (hpair ha hb) (by omega) (by omega)
      simp only [interWith]
      rw [mergeObjects_congr hmeet hmeets
        (entries_of_mem_objectsOf fun t ht => (low_flatMap_parts hts t ht).1)]

/-- **A renaming sees the equality test** only at types that are not higher than what it is applied to. -/
theorem applyWith_congr (hagree : Agree h eq eq') {s : Subst} (hs : Renames s) {t : Ty} (ht : Low h t) :
    applyWith eq s t = applyWith eq' s t := by
  induction ht generalizing s with
  | @node h t hinter hchildren ih =>
      have ih : ∀ {s : Subst}, Renames s → ∀ u, Child u t → applyWith eq s u = applyWith eq' s u :=
        fun hs u hu => ih u hu (hagree.mono (Nat.le_succ h)) hs
      rcases t.keepsHead_or with hkeeps | ⟨v, rfl⟩ | ⟨ts, rfl⟩ | ⟨ts, rfl⟩
      · rw [applyWith_of_keepsHead eq s hkeeps, applyWith_of_keepsHead eq' s hkeeps]
        exact mapNode_congr (ih (hs.without _))
      · rfl
      · have hlow : ∀ t ∈ ts.map (applyWith eq' s), Low h t :=
          List.forall_mem_map.2 fun t ht => low_applyWith eq' hs (hchildren t (.part (.union ht)))
        rw [applyWith_union, applyWith_union, List.map_congr_left fun t ht => ih hs t (.part (.union ht))]
        exact unionWith_congr fun a ha b hb =>
          hagree.below (Nat.lt_succ_self h) (low_flatList hlow a ha) (low_flatList hlow b hb)
      · cases hinter
  | @inter h ts _ hts ih =>
      rw [applyWith_inter, applyWith_inter,
        List.map_congr_left fun t ht => ih t ht hagree hs]
      exact interWith_congr_size hagree
        (List.forall_mem_map.2 fun t ht => low_applyWith eq' hs (hts t ht))

end Agree

/-! ### Signatures -/

/-- The substitution that gives the type parameters of `g` the names of those of `f`, by position. -/
def renameParams (f g : Func) : Subst := (g.tparams.zip f.tparams).map fun p => (p.1.name, .tvar p.2.name)

/-- The parts of a signature are left when its type parameters are dropped. -/
theorem part_of_bare {f : Func} {u : Ty} (hu : Part u (.func f.bare)) : Part u (.func f) := by
  cases hu with
  | param hp hu => exact .param hp hu
  | ret hr => exact .ret hr

/-- The signature `g` without type parameters, as it is compared with `f`. -/
def renamedFor (eq : Ty → Ty → Bool) (f g : Func) : Func :=
  if f.tparams.isEmpty then g.bare else g.bare.mapTypes (applyWith eq (renameParams f g))

/-- Signatures with as many type parameters are compared without them, once they have the same names. -/
theorem sameFunc_eq_bare (eq : Ty → Ty → Bool) (f g : Func) :
    sameFunc eq f g = (f.tparams.length == g.tparams.length && sameFunc eq f.bare (renamedFor eq f g)) := by
  rw [sameFunc_eq eq (show f.bare.tparams = [] from rfl)
    (show (renamedFor eq f g).tparams = [] by unfold renamedFor; split <;> rfl)]
  unfold renamedFor sameFunc
  cases f.tparams.isEmpty with
  | true => simp [FuncOf.bare, FuncOf.result, Bool.and_assoc]
  | false =>
      simp [FuncOf.bare, FuncOf.result, FuncOf.mapTypes, applyParamsWith_eq_map, applyOptionWith_eq_map,
        renameParams, Bool.and_assoc]

/-- A binder of the second function is renamed to the one at its place in the first. -/
theorem get?_renameParams (f g : Func) (v : String) :
    (renameParams f g).get? v =
      (Assoc.get? ((typeParamNames g.tparams).zip (typeParamNames f.tparams)) v).map .tvar := by
  unfold renameParams typeParamNames Subst.get?
  generalize g.tparams = ps
  generalize f.tparams = qs
  induction ps generalizing qs with
  | nil => rfl
  | cons p ps ih =>
      cases qs with
      | nil => rfl
      | cons q qs =>
          simp only [List.zip_cons_cons, List.map_cons, Assoc.get?, ih]
          split <;> rfl

theorem renames_renameParams (f g : Func) : Renames (renameParams f g) := by
  intro v
  rw [Subst.image, get?_renameParams]
  cases Assoc.get? ((typeParamNames g.tparams).zip (typeParamNames f.tparams)) v with
  | none => exact ⟨v, rfl⟩
  | some w => exact ⟨w, rfl⟩

/-- The results of signatures whose types are low are low, or are the missing `void`. -/
theorem result_mem (f : Func) : f.ret = some f.result ∨ f.result = .void := by
  unfold FuncOf.result
  cases f.ret with
  | none => exact Or.inr rfl
  | some r => exact Or.inl rfl

section Height

variable {eq eq' : Ty → Ty → Bool} {h : ℕ}

/-- Two tests that agree on low types and on `void` compare signatures of low types alike. -/
theorem sameFunc_congr_of_low (hagree : ∀ {a b : Ty}, Low h a → Low h b → eq a b = eq' a b)
    (hvoid : ∀ a : Ty, eq .void a = eq' .void a ∧ eq a .void = eq' a .void) {f g : Func}
    (hf : ∀ u, Child u (.func f) → Low h u) (hg : ∀ u, Child u (.func g) → Low h u) :
    sameFunc eq f g = sameFunc eq' f g := by
  have hagree' : Agree h eq eq' :=
    ⟨fun hlt ha hb => hagree (ha.mono hlt.le) (hb.mono hlt.le), fun ha hb _ _ => hagree ha hb⟩
  have hbare : ∀ u, Part u (.func g.bare) → Low h u := fun u hu => hg u (.part (part_of_bare hu))
  have hrenamed : renamedFor eq f g = renamedFor eq' f g := by
    unfold renamedFor
    rw [FuncOf.mapTypes_congr fun u hu => applyWith_congr hagree' (renames_renameParams f g) (hbare u hu)]
  have hlow : ∀ u, Part u (.func (renamedFor eq' f g)) → Low h u := by
    intro u hu
    unfold renamedFor at hu
    split at hu
    · exact hbare u hu
    · obtain ⟨v, hv, rfl⟩ := exists_part_of_func hu
      exact low_applyWith eq' (renames_renameParams f g) (hbare v hv)
  rw [sameFunc_eq_bare, sameFunc_eq_bare eq', hrenamed]
  refine congrArg _ (sameFunc_congr rfl (by unfold renamedFor; split <;> rfl) (fun p hp q hq => ?_) ?_)
  · exact hagree (hf _ (.part (.param hp rfl))) (hlow _ (.param hq rfl))
  · rcases result_mem f.bare with hf' | hf'
    · rcases result_mem (renamedFor eq' f g) with hg' | hg'
      · exact hagree (hf _ (.part (.ret hf'))) (hlow _ (.ret hg'))
      · rw [hg']
        exact (hvoid _).2
    · rw [hf']
      exact (hvoid _).1

end Height

/-! ### Depths that are large enough -/

theorem equalUpTo_prim_left (p : Prim) (a : Ty) (n m : ℕ) :
    equalUpTo (n + 1) (.prim p) a = equalUpTo (m + 1) (.prim p) a := by
  cases a <;> rfl

theorem equalUpTo_prim_right (p : Prim) (a : Ty) (n m : ℕ) :
    equalUpTo (n + 1) a (.prim p) = equalUpTo (m + 1) a (.prim p) := by
  cases a <;> rfl

section Depths

variable {h n m : ℕ} {a b : Ty}

/-- One more level is enough for intersections, since their parts are none. -/
private theorem agree_of_level
    (hlevel : ∀ {n m : ℕ} {a b : Ty}, Low h a → Low h b → a.isInter = false → b.isInter = false →
      2 * h ≤ n → 2 * h ≤ m → equalUpTo n a b = equalUpTo m a b)
    (ha : Low h a) (hb : Low h b) (hn : 2 * h + 1 ≤ n) (hm : 2 * h + 1 ≤ m) :
    equalUpTo n a b = equalUpTo m a b := by
  obtain ⟨n, rfl⟩ : ∃ k, n = k + 1 := ⟨n - 1, by omega⟩
  obtain ⟨m, rfl⟩ : ∃ k, m = k + 1 := ⟨m - 1, by omega⟩
  cases hia : a.isInter with
  | false =>
      cases hib : b.isInter with
      | false => exact hlevel ha hb hia hib (by omega) (by omega)
      | true =>
          cases b with
          | inter ts => cases a <;> first | rfl | cases hia
          | _ => cases hib
  | true =>
      cases a with
      | inter ss =>
          cases b with
          | inter ts =>
              exact sameSet_congr fun s hs t ht => hlevel (hb.of_mem_inter t ht) (ha.of_mem_inter s hs)
                (hb.isInter_of_mem t ht) (ha.isInter_of_mem s hs) (by omega) (by omega)
          | _ => rfl
      | _ => cases hia

/-- On types as low as that, comparisons at large depths agree. -/
private theorem agree_level (ha : Low h a) (hb : Low h b) (hia : a.isInter = false)
    (hib : b.isInter = false) (hn : 2 * h ≤ n) (hm : 2 * h ≤ m) : equalUpTo n a b = equalUpTo m a b := by
  induction h generalizing n m a b with
  | zero =>
      obtain ⟨k, hk⟩ := ha.exists_succ
      omega
  | succ h ih =>
      obtain ⟨n, rfl⟩ : ∃ k, n = k + 1 := ⟨n - 1, by omega⟩
      obtain ⟨m, rfl⟩ : ∃ k, m = k + 1 := ⟨m - 1, by omega⟩
      have hbelow : ∀ {a b : Ty}, Low h a → Low h b → equalUpTo n a b = equalUpTo m a b := fun ha hb =>
        agree_of_level (fun ha hb hia hib hn hm => ih ha hb hia hib hn hm) ha hb (by omega) (by omega)
      have hvoid : ∀ a : Ty, equalUpTo n .void a = equalUpTo m .void a ∧
          equalUpTo n a .void = equalUpTo m a .void := by
        intro a
        obtain ⟨n, rfl⟩ : ∃ k, n = k + 1 := ⟨n - 1, by omega⟩
        obtain ⟨m, rfl⟩ : ∃ k, m = k + 1 := ⟨m - 1, by omega⟩
        exact ⟨equalUpTo_prim_left _ a n m, equalUpTo_prim_right _ a n m⟩
      have hca := fun u hu => ha.child (u := u) hia hu
      have hcb := fun u hu => hb.child (u := u) hib hu
      rw [equalUpTo_succ, equalUpTo_succ]
      refine sameNode_congr_of_func (fun x y hx hy => ?_) ?_
      · have hx' := hca x (.part hx)
        have hy' := hcb y (.part hy)
        exact ⟨hbelow hx' hy', hbelow hy' hx'⟩
      · rintro f g rfl rfl
        exact sameFunc_congr_of_low hbelow hvoid hca hcb

/-- **Depths that are large enough** for the height of two types give the same answer. -/
theorem equalUpTo_agree_of_low (ha : Low h a) (hb : Low h b) (hn : 2 * h + 1 ≤ n) (hm : 2 * h + 1 ≤ m) :
    equalUpTo n a b = equalUpTo m a b :=
  agree_of_level agree_level ha hb hn hm

/-- A comparison at a depth above twice the level is the comparison. -/
theorem equalUpTo_eq_equal_of_low (ha : Low h a) (hb : Low h b) (hn : 2 * h + 1 ≤ n) :
    equalUpTo n a b = a.equal b := by
  rcases Nat.le_total h (max a.size b.size) with hle | hle
  · refine equalUpTo_agree_of_low ha hb hn ?_
    unfold depthBound
    omega
  · refine equalUpTo_agree_of_low (ha.size.mono (le_max_left _ _)) (hb.size.mono (le_max_right _ _))
      (by omega) ?_
    unfold depthBound
    omega

/-- **Equality by parts**, also for generic signatures. -/
theorem equal_eq_sameNode_of_low (ha : Low h a) (hb : Low h b) : a.equal b = sameNode equal a b := by
  have hsa := a.size_pos
  have hsb := b.size_pos
  have ha' : Low (max a.size b.size) a := ha.size.mono (le_max_left _ _)
  have hb' : Low (max a.size b.size) b := hb.size.mono (le_max_right _ _)
  have hbelow : ∀ {x y : Ty}, Low (max a.size b.size) x → Low (max a.size b.size) y →
      equalUpTo (2 * (a.size + b.size) + 1) x y = x.equal y := fun hx hy =>
    equalUpTo_eq_equal_of_low hx hy (by omega)
  rw [equal, depthBound, equalUpTo_succ]
  refine sameNode_congr_of_func (fun x y hx hy => ?_) ?_
  · have hx' := ha'.child_le (.part hx)
    have hy' := hb'.child_le (.part hy)
    exact ⟨hbelow hx' hy', hbelow hy' hx'⟩
  · rintro f g rfl rfl
    exact sameFunc_congr_of_low hbelow
      (fun x => ⟨equalUpTo_prim_left _ x _ _, equalUpTo_prim_right _ x _ _⟩)
      (fun u hu => ha'.child_le hu) fun u hu => hb'.child_le hu

end Depths

/-- Equality by parts of types in normal form. -/
theorem equal_eq_sameNode_of_canonical {a b : Ty} (ha : a.Canonical) (hb : b.Canonical) :
    a.equal b = sameNode equal a b :=
  equal_eq_sameNode_of_low (ha.low.mono (le_max_left _ b.size)) (hb.low.mono (le_max_right a.size _))

end Ty

end TreeCheck
