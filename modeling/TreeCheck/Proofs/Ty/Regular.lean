import TreeCheck.Proofs.Ty.Normal

/-!
# Normal forms are what unions are built as

Building a union brings its members into normal form, whatever they were before.  Types in normal form
are therefore closed under building unions, and so are the types without intersections whose names
are chosen from a given set.

* `Ty.unionList_absorb`, `Ty.normal_unionOf` — a built union is in normal form;
* `Ty.NormalWith`, `Ty.normalWith_unionOf` — types in normal form whose nodes all have a given property;
* `Ty.Regular` — types in normal form without intersections, whose names have a given property and stand
  without arguments;
* `Ty.regular_unionOf`, `Ty.regular_nullable`, `Ty.regular_removeNil` — regular types stay regular.
-/

namespace TreeCheck.Ty

/-! ### Built unions are in normal form -/

/-- No truth value is left after a collapse. -/
theorem isBoolLit_of_mem_collapseBools {ts : List Ty} {t : Ty} (h : t ∈ collapseBools ts) :
    isBoolLit t = false := by
  induction ts with
  | nil => cases h
  | cons u us ih =>
      rw [collapseBools] at h
      split at h
      · rcases List.mem_cons.1 h with rfl | h
        · rfl
        · simpa using (List.mem_filter.1 h).2
      · rename_i hu
        rcases List.mem_cons.1 h with rfl | h
        · simpa using hu
        · exact ih h

/-- A collapse adds no repetition if the type of truth values is new. -/
theorem pairwise_collapseBools {ts : List Ty} (hnew : .boolean ∉ ts)
    (h : ts.Pairwise fun a b => a.equal b = false) :
    (collapseBools ts).Pairwise fun a b => a.equal b = false := by
  induction ts with
  | nil => exact .nil
  | cons u us ih =>
      rw [List.mem_cons, not_or] at hnew
      rw [List.pairwise_cons] at h
      rw [collapseBools]
      split
      · refine List.pairwise_cons.2 ⟨fun v hv => ?_, h.2.sublist List.filter_sublist⟩
        rw [← Bool.not_eq_true, equal_prim_iff]
        rintro rfl
        exact hnew.2 (List.mem_of_mem_filter hv)
      · refine List.pairwise_cons.2 ⟨fun v hv => ?_, ih hnew.2 h.2⟩
        rcases mem_collapseBools hv with hv | rfl
        · exact h.1 v hv
        · rw [← Bool.not_eq_true, equal_prim_right_iff]
          exact Ne.symm hnew.1

/-- A list without unions, `unknown`, `never` and doubles becomes a normal list. -/
theorem unionList_absorb {ts : List Ty} (hunion : ∀ t ∈ ts, t.isUnion = false)
    (hunknown : ∀ t ∈ ts, t.isUnknown = false) (hnever : ∀ t ∈ ts, t.isNever = false)
    (hdistinct : ts.Pairwise fun a b => a.equal b = false) : UnionList (absorb ts) := by
  have hmem : ∀ {P : Ty → Prop}, (∀ t ∈ ts, P t) → P .boolean → ∀ t ∈ absorb ts, P t := by
    intro P hts hboolean t ht
    rcases mem_absorb ht with ht | rfl
    · exact hts t ht
    · exact hboolean
  have hkept : ∀ t ∈ ts.filter (!absorbed ts ·), absorbed ts t = false := fun t ht => by
    simpa using (List.mem_filter.1 ht).2
  refine ⟨hmem hunion rfl, hmem hunknown rfl, hmem hnever rfl, ?_, ?_, ?_⟩
  all_goals simp only [absorb]
  all_goals split
  all_goals rename_i hbools
  · -- both truth values were left, so `boolean` does not cover them
    rw [Bool.and_eq_true, hasBool_iff, hasBool_iff] at hbools
    refine pairwise_collapseBools (fun hboolean => ?_) (hdistinct.sublist List.filter_sublist)
    have hcovers := hkept _ hbools.1
    rw [absorbed, Bool.or_eq_false_iff, ← Bool.not_eq_true, hasPrim_iff] at hcovers
    exact hcovers.1 (List.mem_of_mem_filter hboolean)
  · exact hdistinct.sublist List.filter_sublist
  · intro t ht
    have hlit := isBoolLit_of_mem_collapseBools ht
    have hprim : ∀ {p : Prim}, p ≠ .boolean → hasPrim p (collapseBools (ts.filter (!absorbed ts ·))) = true →
        hasPrim p ts = true := by
      intro p hp h
      rw [hasPrim_iff] at h ⊢
      rcases mem_collapseBools h with h | h
      · exact List.mem_of_mem_filter h
      · cases h
        exact absurd rfl hp
    rcases mem_collapseBools ht with ht | rfl
    · have hnot := hkept t ht
      cases t with
      | lit l =>
          have hl : l.prim ≠ .boolean := by cases l <;> simp_all [isBoolLit, Lit.prim]
          rw [absorbed, ← Bool.not_eq_true, Bool.or_eq_true, Bool.and_eq_true] at hnot ⊢
          exact mt (Or.imp (hprim hl) (And.imp_right (hprim (by simp)))) hnot
      | prim p =>
          cases p <;> first | rfl | skip
          rw [absorbed, ← Bool.not_eq_true] at hnot ⊢
          exact mt (hprim (by simp)) hnot
      | _ => rfl
    · rfl
  · intro t ht
    by_contra hcov
    have hcov' := absorbed_mono (List.filter_sublist.subset : _ ⊆ ts) (by simpa using hcov)
    rw [hkept t ht] at hcov'
    cases hcov'
  · rw [Bool.and_eq_false_iff, ← Bool.not_eq_true, hasBool_iff]
    refine Or.inl fun h => ?_
    cases isBoolLit_of_mem_collapseBools h
  · simpa using hbools

/-- What the members of a built union are, if none of them is `unknown`. -/
def unionMembers (ts : List Ty) : List Ty :=
  absorb (distinctWith equal ((flatList ts).filter (!isNever ·)))

/-- A union is built from its members unless one is unknown. -/
theorem unionOf_eq_ofMembers_unionMembers {ts : List Ty}
    (h : ∀ t ∈ flatList ts, t.isUnknown = false) : unionOf ts = ofMembers (unionMembers ts) := by
  have hany : (flatList ts).any Ty.isUnknown = false := by
    rw [List.any_eq_false]
    exact fun t ht => by simp [h t ht]
  rw [unionOf, unionWith, hany]
  rfl

theorem mem_of_mem_unionMembers {ts : List Ty} {t : Ty} (h : t ∈ unionMembers ts) :
    t ∈ flatList ts ∨ t = .boolean :=
  (mem_absorb h).imp_left fun h => List.mem_of_mem_filter ((distinctWith_sublist _ _).subset h)

/-- These members are a union's. -/
theorem unionList_unionMembers {ts : List Ty} (h : ∀ t ∈ flatList ts, t.isUnknown = false) :
    UnionList (unionMembers ts) := by
  have hmem : ∀ {t : Ty}, t ∈ distinctWith equal ((flatList ts).filter (!Ty.isNever ·)) →
      t ∈ flatList ts ∧ t.isNever = false := by
    intro t ht
    have hkept := List.mem_filter.1 ((distinctWith_sublist _ _).subset ht)
    exact ⟨hkept.1, by simpa using hkept.2⟩
  exact unionList_absorb (fun t ht => isUnion_of_mem_flatList (hmem ht).1)
    (fun t ht => h t (hmem ht).1) (fun t ht => (hmem ht).2) (distinctWith_pairwise _ _)

/-- The members of types in normal form are their flat members. -/
theorem Normal.flat_eq {t : Ty} (h : t.Normal) : t.flat = t.members := by
  cases t with
  | union ts => exact flat_eq_members (unionOf_eq_union_iff.1 h.head).1.isUnion
  | _ => rfl

theorem mem_flatList_iff {ts : List Ty} (h : ∀ t ∈ ts, t.Normal) {u : Ty} :
    u ∈ flatList ts ↔ ∃ t ∈ ts, u ∈ t.members := by
  rw [flatList_eq_flatMap, List.mem_flatMap]
  refine exists_congr fun t => and_congr_right fun ht => ?_
  rw [(h t ht).flat_eq]

/-- `unknown` is no member of a type in normal form, unless it is that type. -/
theorem Normal.eq_unknown_of_mem {t u : Ty} (h : t.Normal) (hu : u ∈ t.members)
    (hunknown : u.isUnknown = true) : t = .unknown := by
  rw [isUnknown_iff] at hunknown
  subst hunknown
  cases t with
  | union ts => cases (unionOf_eq_union_iff.1 h.head).1.isUnknown _ hu
  | _ => exact (List.mem_singleton.1 hu).symm

/-- No member is unknown if no entry of the list is. -/
theorem isUnknown_of_mem_flatList {ts : List Ty} (h : ∀ t ∈ ts, t.Normal) (hne : .unknown ∉ ts) :
    ∀ u ∈ flatList ts, u.isUnknown = false := by
  intro u hu
  obtain ⟨t, ht, hu⟩ := (mem_flatList_iff h).1 hu
  by_contra hunknown
  exact hne ((h t ht).eq_unknown_of_mem hu (by simpa using hunknown) ▸ ht)

theorem unionOf_eq_unknown {ts : List Ty} (h : .unknown ∈ ts) : unionOf ts = .unknown := by
  have hmem : Ty.unknown ∈ flatList ts := by
    rw [flatList_eq_flatMap, List.mem_flatMap]
    exact ⟨_, h, .head _⟩
  have hany : (flatList ts).any Ty.isUnknown = true := List.any_eq_true.2 ⟨_, hmem, rfl⟩
  rw [unionOf, unionWith, hany]
  rfl

/-- **A built union is in normal form.** -/
theorem normal_unionOf {ts : List Ty} (h : ∀ t ∈ ts, t.Normal) : (unionOf ts).Normal := by
  by_cases hunknown : .unknown ∈ ts
  · rw [unionOf_eq_unknown hunknown]
    exact normal_prim _
  · have hflat := isUnknown_of_mem_flatList h hunknown
    rw [unionOf_eq_ofMembers_unionMembers hflat]
    refine normal_ofMembers (unionList_unionMembers hflat) fun u hu => ?_
    rcases mem_of_mem_unionMembers hu with hu | rfl
    · obtain ⟨t, ht, hu⟩ := (mem_flatList_iff h).1 hu
      exact (h t ht).of_mem_members hu
    · exact normal_prim _

/-! ### What a built union covers -/

/-- A built-in type that a member of a union gives way to. -/
inductive Wider : Ty → Ty → Prop
  | lit (l : Lit) : Wider (.lit l) (.prim l.prim)
  | whole {l : Lit} : l.isInteger = true → Wider (.lit l) .integer
  | integer : Wider .integer .number

theorem Wider.cases {t u : Ty} (h : Wider t u) :
    u = .boolean ∨ u = .number ∨ u = .string ∨ u = .integer := by
  cases h with
  | lit l => cases l <;> simp [Lit.prim]
  | whole _ => simp
  | integer => simp

/-- An entry of a list is equal to one that is kept. -/
private theorem exists_equal_of_foldl (eq : Ty → Ty → Bool) {ts kept : List Ty} {t : Ty}
    (h : t ∈ ts ∨ ∃ k ∈ kept, k = t ∨ eq k t = true) :
    ∃ k ∈ ts.foldl (fun kept t => if kept.any (eq · t) then kept else kept ++ [t]) kept,
      k = t ∨ eq k t = true := by
  induction ts generalizing kept with
  | nil => exact h.resolve_left List.not_mem_nil
  | cons u us ih =>
      rw [List.foldl_cons]
      refine ih ?_
      split
      · rename_i hany
        rcases h with h | h
        · rcases List.mem_cons.1 h with rfl | h
          · obtain ⟨k, hk, heq⟩ := List.any_eq_true.1 hany
            exact Or.inr ⟨k, hk, Or.inr heq⟩
          · exact Or.inl h
        · exact Or.inr h
      · rcases h with h | ⟨k, hk, h⟩
        · rcases List.mem_cons.1 h with rfl | h
          · exact Or.inr ⟨t, by simp, Or.inl rfl⟩
          · exact Or.inl h
        · exact Or.inr ⟨k, by simp [hk], h⟩

theorem exists_equal_of_mem (eq : Ty → Ty → Bool) {ts : List Ty} {t : Ty} (h : t ∈ ts) :
    ∃ k ∈ distinctWith eq ts, k = t ∨ eq k t = true :=
  exists_equal_of_foldl eq (Or.inl h)

/-- Types other than truth values stay in a collapse. -/
theorem mem_collapseBools_of_not_isBoolLit {ts : List Ty} {t : Ty} (h : t ∈ ts)
    (hlit : isBoolLit t = false) : t ∈ collapseBools ts := by
  induction ts with
  | nil => cases h
  | cons u us ih =>
      rw [collapseBools]
      split
      · rename_i hu
        rcases List.mem_cons.1 h with rfl | h
        · rw [hlit] at hu
          cases hu
        · exact .tail _ (List.mem_filter.2 ⟨h, by simp [hlit]⟩)
      · rcases List.mem_cons.1 h with rfl | h
        · exact .head _
        · exact .tail _ (ih h)

/-- A truth value leaves the type of truth values. -/
theorem boolean_mem_collapseBools {ts : List Ty} {b : Bool} (h : .bool b ∈ ts) :
    .boolean ∈ collapseBools ts := by
  induction ts with
  | nil => cases h
  | cons u us ih =>
      rw [collapseBools]
      split
      · exact .head _
      · rename_i hu
        rcases List.mem_cons.1 h with rfl | h
        · exact absurd rfl hu
        · exact .tail _ (ih h)

/-- A member that is not covered stays, or `boolean` comes in its place. -/
theorem exists_wider_of_not_absorbed {ts : List Ty} {t : Ty} (h : t ∈ ts)
    (hkept : absorbed ts t = false) : ∃ u ∈ absorb ts, u = t ∨ Wider t u := by
  have hmem : t ∈ ts.filter (!absorbed ts ·) := List.mem_filter.2 ⟨h, by simp [hkept]⟩
  simp only [absorb]
  split
  · cases hlit : isBoolLit t with
    | false => exact ⟨t, mem_collapseBools_of_not_isBoolLit hmem hlit, Or.inl rfl⟩
    | true =>
        unfold isBoolLit at hlit
        split at hlit
        · exact ⟨.boolean, boolean_mem_collapseBools hmem, Or.inr (.lit _)⟩
        · cases hlit
  · exact ⟨t, hmem, Or.inl rfl⟩

/-- Every member stays or is covered by a wider one that does. -/
theorem exists_wider_of_mem {ts : List Ty} {t : Ty} (h : t ∈ ts) :
    ∃ u ∈ absorb ts, u = t ∨ Wider t u := by
  -- only `integer` is a wider type that may give way itself, to `number`
  have hprim : ∀ {p : Prim}, p ≠ .integer → hasPrim p ts = true → .prim p ∈ absorb ts := by
    intro p hp hmem
    obtain ⟨u, hu, rfl | hwider⟩ := exists_wider_of_not_absorbed (hasPrim_iff.1 hmem)
      (by cases p <;> first | rfl | exact absurd rfl hp)
    · exact hu
    · cases hwider
      exact absurd rfl hp
  cases hkept : absorbed ts t with
  | false => exact exists_wider_of_not_absorbed h hkept
  | true =>
      cases t with
      | lit l =>
          have hl : l.prim ≠ .integer := by cases l <;> simp [Lit.prim]
          rw [absorbed, Bool.or_eq_true, Bool.and_eq_true] at hkept
          rcases hkept with hwide | ⟨hwhole, hinteger⟩
          · exact ⟨_, hprim hl hwide, Or.inr (.lit l)⟩
          · obtain ⟨u, hu, rfl | hwider⟩ : ∃ u ∈ absorb ts, u = .integer ∨ u = .number := by
              cases hnumber : hasPrim .number ts with
              | true => exact ⟨_, hprim (by simp) hnumber, Or.inr rfl⟩
              | false =>
                  obtain ⟨u, hu, rfl | hwider⟩ :=
                    exists_wider_of_not_absorbed (hasPrim_iff.1 hinteger) hnumber
                  · exact ⟨_, hu, Or.inl rfl⟩
                  · cases hwider
                    exact ⟨_, hu, Or.inr rfl⟩
            · exact ⟨_, hu, Or.inr (.whole hwhole)⟩
            · refine ⟨u, hu, Or.inr ?_⟩
              rw [hwider]
              cases l with
              | num n => exact .lit (.num n)
              | _ => cases hwhole
      | prim p =>
          cases p with
          | integer => exact ⟨_, hprim (by simp) hkept, Or.inr .integer⟩
          | _ => cases hkept
      | _ => cases hkept

/-- What stands in a built union was a member, or is `boolean` in place of both truth values. -/
theorem mem_absorb_cases {ts : List Ty} {t : Ty} (h : t ∈ absorb ts) :
    t ∈ ts ∨ t = .boolean ∧ ∀ b, .bool b ∈ ts := by
  simp only [absorb] at h
  split at h
  · rename_i hbools
    rw [Bool.and_eq_true, hasBool_iff, hasBool_iff] at hbools
    refine (mem_collapseBools h).imp List.mem_of_mem_filter fun ht => ⟨ht, fun b => ?_⟩
    cases b
    · exact List.mem_of_mem_filter hbools.2
    · exact List.mem_of_mem_filter hbools.1
  · exact Or.inl (List.mem_of_mem_filter h)

/-! ### Types whose heads have a property -/

def isInter : Ty → Bool
  | .inter _ => true
  | _ => false

/-- Types in normal form whose nodes all have the property `H`. -/
inductive NormalWith (H : Ty → Prop) : Ty → Prop
  | intro {t : Ty} : t.NormalHead → H t → (∀ u, Part u t → NormalWith H u) → NormalWith H t

section

variable {H : Ty → Prop} {t : Ty}

theorem NormalWith.head (h : NormalWith H t) : H t := by
  cases h with
  | intro _ hhead _ => exact hhead

theorem NormalWith.part (h : NormalWith H t) {u : Ty} (hu : Part u t) : NormalWith H u := by
  cases h with
  | intro _ _ hparts => exact hparts u hu

theorem NormalWith.normal (h : NormalWith H t) : t.Normal := by
  induction h with
  | intro hnormal _ _ ih => exact .intro hnormal ih

theorem normalWith_prim {p : Prim} (h : H (.prim p)) : NormalWith H (.prim p) :=
  .intro trivial h fun _ hu => nomatch hu

theorem NormalWith.of_mem_members (h : NormalWith H t) {m : Ty} (hm : m ∈ t.members) :
    NormalWith H m := by
  cases t with
  | union ts => exact h.part (.union hm)
  | _ => rwa [List.mem_singleton.1 hm]

variable (hprim : ∀ p, H (.prim p)) (hunion : ∀ ts, H (.union ts))

include hprim

/-- The members of a union of normal types are normal. -/
theorem normalWith_of_mem_unionMembers {ts : List Ty} (h : ∀ t ∈ ts, NormalWith H t) {u : Ty}
    (hu : u ∈ unionMembers ts) : NormalWith H u := by
  rcases mem_of_mem_unionMembers hu with hu | rfl
  · obtain ⟨t, ht, hu⟩ := (mem_flatList_iff fun t ht => (h t ht).normal).1 hu
    exact (h t ht).of_mem_members hu
  · exact normalWith_prim (hprim _)

include hunion

/-- What they build is normal. -/
theorem normalWith_ofMembers {ts : List Ty} (h : UnionList ts) (hts : ∀ t ∈ ts, NormalWith H t) :
    NormalWith H (ofMembers ts) := by
  match ts with
  | [] => exact normalWith_prim (hprim _)
  | [t] => exact hts t (.head _)
  | t :: u :: us =>
      refine .intro (unionOf_eq_union_iff.2 ⟨h, by simp⟩) (hunion _) fun v hv => ?_
      cases hv with
      | union hv => exact hts v hv

theorem normalWith_unionOf {ts : List Ty} (h : ∀ t ∈ ts, NormalWith H t) :
    NormalWith H (unionOf ts) := by
  by_cases hunknown : .unknown ∈ ts
  · rw [unionOf_eq_unknown hunknown]
    exact normalWith_prim (hprim _)
  · have hflat := isUnknown_of_mem_flatList (fun t ht => (h t ht).normal) hunknown
    rw [unionOf_eq_ofMembers_unionMembers hflat]
    exact normalWith_ofMembers hprim hunion (unionList_unionMembers hflat)
      fun u hu => normalWith_of_mem_unionMembers hprim h hu

end

/-! ### Regular types -/

/-- What a regular type asks of its head. -/
def RegularHead (Q : String → Prop) : Ty → Prop
  | .inter _ => False
  | .classRef _ => False
  | .ref x args => Q x ∧ args = []
  | _ => True

/-- Types in normal form without intersections and class values, whose names have the property `Q` and
stand without arguments. -/
inductive Regular (Q : String → Prop) : Ty → Prop
  | intro {t : Ty} : t.NormalHead → t.RegularHead Q → (∀ u, Part u t → Regular Q u) → Regular Q t

section

variable {Q : String → Prop} {t : Ty}

theorem Regular.head (h : Regular Q t) : t.RegularHead Q := by
  cases h with
  | intro _ hhead _ => exact hhead

theorem Regular.part (h : Regular Q t) {u : Ty} (hu : Part u t) : Regular Q u := by
  cases h with
  | intro _ _ hparts => exact hparts u hu

theorem Regular.normal (h : Regular Q t) : t.Normal := by
  induction h with
  | intro hnormal _ _ ih => exact .intro hnormal ih

/-- The condition on the names of a regular type may be relaxed. -/
theorem Regular.mono (h : Regular Q t) {Q' : String → Prop} (hQ : ∀ x, Q x → Q' x) : Regular Q' t := by
  induction h with
  | @intro t hnormal hhead _ ih =>
      refine .intro hnormal ?_ ih
      cases t with
      | ref x args => exact hhead.imp_left (hQ x)
      | _ => exact hhead

theorem regular_prim (p : Prim) : Regular Q (.prim p) :=
  .intro trivial trivial fun _ hu => nomatch hu

theorem regular_lit {l : Lit} (h : l ≠ .num .nan) : Regular Q (.lit l) :=
  .intro h trivial fun _ hu => nomatch hu

theorem regular_tvar (v : String) : Regular Q (.tvar v) :=
  .intro trivial trivial fun _ hu => nomatch hu

theorem regular_array {e : Ty} (h : Regular Q e) : Regular Q (.array e) := by
  refine .intro trivial trivial fun u hu => ?_
  cases hu
  exact h

theorem regular_pred (x : String) (h : Regular Q t) : Regular Q (.pred x t) := by
  refine .intro trivial trivial fun u hu => ?_
  cases hu
  exact h

theorem regular_tuple {es : List Ty} (h : ∀ e ∈ es, Regular Q e) : Regular Q (.tuple es) := by
  refine .intro trivial trivial fun u hu => ?_
  cases hu with
  | tuple hu => exact h u hu

theorem regular_bool (b : Bool) : Regular Q (.bool b) := regular_lit (by simp)

theorem regular_iff_normalWith : Regular Q t ↔ NormalWith (RegularHead Q) t := by
  constructor
  · intro h
    induction h with
    | intro hnormal hhead _ ih => exact .intro hnormal hhead ih
  · intro h
    induction h with
    | intro hnormal hhead _ ih => exact .intro hnormal hhead ih

theorem Regular.of_mem_members (h : Regular Q t) {m : Ty} (hm : m ∈ t.members) : Regular Q m :=
  regular_iff_normalWith.2 ((regular_iff_normalWith.1 h).of_mem_members hm)

/-- What regular members build is regular. -/
theorem regular_ofMembers {ts : List Ty} (h : UnionList ts) (hts : ∀ t ∈ ts, Regular Q t) :
    Regular Q (ofMembers ts) :=
  regular_iff_normalWith.2 (normalWith_ofMembers (fun _ => trivial) (fun _ => trivial) h
    fun t ht => regular_iff_normalWith.1 (hts t ht))

theorem regular_unionOf {ts : List Ty} (h : ∀ t ∈ ts, Regular Q t) : Regular Q (unionOf ts) :=
  regular_iff_normalWith.2 (normalWith_unionOf (fun _ => trivial) (fun _ => trivial)
    fun t ht => regular_iff_normalWith.1 (h t ht))

theorem regular_nullable (h : Regular Q t) : Regular Q t.nullable := by
  refine regular_unionOf fun u hu => ?_
  rcases List.mem_pair.1 hu with rfl | rfl
  · exact h
  · exact regular_prim _

theorem regular_removeNil (h : Regular Q t) : Regular Q t.removeNil :=
  regular_unionOf fun _ hu => h.of_mem_members (List.mem_of_mem_filter hu)

end

end TreeCheck.Ty
