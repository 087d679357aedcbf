import TreeCheck.Proofs.Assign.Unions

/-!
# A built union is a least upper bound

Building a union loses nothing and adds nothing: it fits exactly where all that it is built from does.
What gives way is covered by something wider that stays, and two truth values that become `boolean` fit
nothing that `boolean` does not, since a union as the target asks for the two values one by one.

Intersections may stand anywhere here, on either side.  Only names are left out, because without
definitions a name fits nothing but itself, not even a union that lists it.

* `Ty.Unnamed` — types in normal form without names;
* `Ty.Unnamed.fits_of_wider` — what is narrower fits at least as much;
* `Ty.Unnamed.fits_boolean` — `boolean` fits where both truth values do;
* `fits_unionOf_iff` — the union fits where everything that it is built from does;
* `isAssignable_unionOf` — the same of the comparison, with the union as an upper bound.
-/

namespace TreeCheck

open Ty

namespace Ty

/-- Types in normal form without names. -/
abbrev Unnamed : Ty → Prop := NormalWith fun t => t.isNamed = false

theorem unnamed_unionOf {ts : List Ty} (h : ∀ t ∈ ts, t.Unnamed) : (unionOf ts).Unnamed :=
  normalWith_unionOf (fun _ => rfl) (fun _ => rfl) h

variable {d : Ty} {ds : List Ty}

/-! ### Targets -/

/-- A built-in type fits a union that lists something it fits, or `boolean` one whose members take both
values. -/
theorem Unnamed.fits_union_iff {p : Prim} (hp : Firm (.prim p)) (hd : Unnamed (.union ds)) :
    Fits (.prim p) (.union ds) ↔ (∃ d ∈ ds, Fits (.prim p) d) ∨
      p = .boolean ∧ ∀ b, Fits (.bool b) (.union ds) := by
  rw [fits_structural_of_heads (normal_prim p) hd.normal rfl rfl hp (firm_union ds) rfl, equal_prim_iff]
  simp only [structuralGoal, unionGoal, Goal.holds_either, Goal.holds_any, List.mem_map,
    exists_exists_and_eq_and, Goal.holds_ask, reduceCtorEq, false_or]
  refine or_congr Iff.rfl ?_
  cases p <;> simp [Bool.forall_bool, and_comm]

/-- What is no name, union or intersection fits an intersection where it fits every part. -/
theorem Unnamed.fits_inter_iff {s : Ty} (hs : s.Normal) (hsn : s.isNamed = false) (hsf : s.Firm)
    (hunion : s.isUnion = false) (hinter : s.isInter = false) (hd : Unnamed (.inter ds)) :
    Fits s (.inter ds) ↔ ∀ d ∈ ds, Fits s d := by
  have hne : s.equal (.inter ds) = false := by
    rw [equal_eq_sameNode hs.wellFormed hd.normal.wellFormed]
    cases s <;> first | rfl | cases hinter
  rw [fits_structural_of_heads hs hd.normal hsn rfl hsf ⟨rfl, rfl, rfl⟩ hunion, hne]
  simp [structuralGoal]

/-- A built-in type that fits more than another, on every single target, does so on unions and
intersections of such targets. -/
theorem Unnamed.fits_of_heads {t : Ty} {p : Prim} (ht : t.Normal) (htn : t.isNamed = false)
    (htf : t.Firm) (htu : t.isUnion = false) (hti : t.isInter = false) (hp : Firm (.prim p))
    (hbool : p = .boolean → ∃ b, t = .bool b)
    (hheads : ∀ d : Ty, d.Normal → d.isNamed = false → d.isUnion = false → d.isInter = false →
      Fits (.prim p) d → Fits t d)
    (hd : d.Unnamed) (h : Fits (.prim p) d) : Fits t d := by
  induction hd with
  | @intro d hnormal hnamed hparts ih =>
      have hd : d.Unnamed := .intro hnormal hnamed hparts
      cases d with
      | union ds =>
          rcases (hd.fits_union_iff hp).1 h with ⟨d, hmem, hfits⟩ | ⟨hp, hvalues⟩
          · exact fits_union_of_mem ht htn htu hd.normal hmem (ih d (.union hmem) hfits)
          · obtain ⟨b, rfl⟩ := hbool hp
            exact hvalues b
      | inter ds =>
          rw [hd.fits_inter_iff (normal_prim p) rfl hp rfl rfl] at h
          rw [hd.fits_inter_iff ht htn htf htu hti]
          exact fun d hmem => ih d (.inter hmem) (h d hmem)
      | _ => exact hheads _ hd.normal hnamed rfl rfl h

/-- **What is narrower fits at least as much.** -/
theorem Unnamed.fits_of_wider {t u : Ty} (ht : t.Normal) (hwider : Wider t u) (hd : d.Unnamed)
    (h : Fits u d) : Fits t d := by
  cases hwider with
  | lit l =>
      have hp : Firm (.prim l.prim) := by cases l <;> exact ⟨rfl, rfl, rfl⟩
      have hassign : assignToPrim (.lit l) l.prim = true := by cases l <;> rfl
      refine hd.fits_of_heads ht rfl ⟨rfl, rfl, rfl⟩ rfl rfl hp (fun hbool => ?_) (fun d => ?_) h
      · cases l with
        | bool b => exact ⟨b, rfl⟩
        | _ => cases hbool
      · exact fits_lit_of_assign ht.head hp hassign
  | whole hwhole =>
      exact hd.fits_of_heads (p := .integer) ht rfl ⟨rfl, rfl, rfl⟩ rfl rfl ⟨rfl, rfl, rfl⟩ (fun h => nomatch h)
        (fun d => fits_lit_of_assign ht.head ⟨rfl, rfl, rfl⟩ hwhole) h
  | integer =>
      exact hd.fits_of_heads (p := .number) ht rfl ⟨rfl, rfl, rfl⟩ rfl rfl ⟨rfl, rfl, rfl⟩ (fun h => nomatch h)
        (fun d => fits_prim_of_assign ⟨rfl, rfl, rfl⟩ ⟨rfl, rfl, rfl⟩ rfl) h

/-- **`boolean` fits where both truth values do.** -/
theorem Unnamed.fits_boolean (hd : d.Unnamed) (h : ∀ b, Fits (.bool b) d) : Fits .boolean d := by
  induction hd with
  | @intro d hnormal hnamed hparts ih =>
      have hd : d.Unnamed := .intro hnormal hnamed hparts
      cases hunion : d.isUnion with
      | true =>
          cases d with
          | union ds => exact (hd.fits_union_iff ⟨rfl, rfl, rfl⟩).2 (Or.inr ⟨rfl, h⟩)
          | _ => cases hunion
      | false =>
          cases hinter : d.isInter with
          | true =>
              cases d with
              | inter ds =>
                  rw [hd.fits_inter_iff (normal_prim _) rfl ⟨rfl, rfl, rfl⟩ rfl rfl]
                  refine fun d hmem => ih d (.inter hmem) fun b => ?_
                  exact (hd.fits_inter_iff (normal_bool b) rfl ⟨rfl, rfl, rfl⟩ rfl rfl).1 (h b) d hmem
              | _ => cases hinter
          | false =>
              cases hunknown : d.isUnknown with
              | true => exact fits_unknown_right (normal_prim _) hd.normal (isUnknown_iff.1 hunknown)
              | false =>
                  -- no single type is both truth values
                  have hvalue := fun b => fits_boolean_of_bool hd.normal hnamed hunion hinter hunknown (h b)
                  rcases hvalue true with htrue | hfits
                  · rcases hvalue false with hfalse | hfits
                    · cases htrue.symm.trans hfalse
                    · exact hfits
                  · exact hfits

/-! ### Sources -/

/-- A type fits where all of its members do. -/
theorem Unnamed.fits_iff_forall_members {s : Ty} (hs : s.Unnamed) (hd : d.Unnamed) :
    Fits s d ↔ ∀ m ∈ s.members, Fits m d := by
  cases s with
  | union ss => exact fits_union_left hs.normal (fun m hm => (hs.part (.union hm)).head) hd.normal hd.head
  | _ => simp [members]

/-- A union fits where each of its members does. -/
theorem Unnamed.fits_ofMembers_iff {us : List Ty} (hlist : UnionList us) (hus : ∀ u ∈ us, u.Unnamed)
    (hd : d.Unnamed) : Fits (ofMembers us) d ↔ ∀ u ∈ us, Fits u d := by
  have hunnamed : (ofMembers us).Unnamed :=
    normalWith_ofMembers (fun _ => rfl) (fun _ => rfl) hlist hus
  match us with
  | [] => exact iff_of_true (fits_never_left hunnamed.normal hd.normal rfl) (by simp)
  | [u] => simp [ofMembers]
  | u :: v :: vs => exact hunnamed.fits_iff_forall_members hd

end Ty

section Built

variable {ts : List Ty} {d : Ty} (hts : ∀ t ∈ ts, t.Unnamed) (hd : d.Unnamed)

include hts hd

/-- A member that is dropped when a union is built fits what the rest of the union fits. -/
theorem fits_of_mem_flatList {m : Ty} (hm : m ∈ flatList ts) (h : ∀ u ∈ unionMembers ts, Fits u d) :
    Fits m d := by
  have hflat : ∀ {u : Ty}, u ∈ flatList ts → u.Normal := by
    intro u hu
    obtain ⟨t, ht, hu⟩ := (mem_flatList_iff fun t ht => (hts t ht).normal).1 hu
    exact (hts t ht).normal.of_mem_members hu
  cases hnever : m.isNever with
  | true => exact fits_never_left (hflat hm) hd.normal (isNever_iff.1 hnever)
  | false =>
      obtain ⟨k, hk, hequal⟩ := exists_equal_of_mem equal
        (List.mem_filter.2 ⟨hm, by simp [hnever]⟩ : m ∈ (flatList ts).filter (!Ty.isNever ·))
      have hk' := hflat (List.mem_of_mem_filter ((distinctWith_sublist _ _).subset hk))
      obtain ⟨u, hu, hwider⟩ := exists_wider_of_mem hk
      have hkd : Fits k d := by
        rcases hwider with rfl | hwider
        · exact h u hu
        · exact hd.fits_of_wider hk' hwider (h u hu)
      rcases hequal with rfl | hequal
      · exact hkd
      · exact (fits_congr hk' hd.normal (hflat hm) hd.normal hequal
          (equivOn_wellFormed.refl hd.normal.wellFormed)).1 hkd

/-- **A built union fits where everything that it is built from does.** -/
theorem fits_unionOf_iff (hunknown : .unknown ∉ ts) : Fits (unionOf ts) d ↔ ∀ t ∈ ts, Fits t d := by
  have hnormal : ∀ t ∈ ts, t.Normal := fun t ht => (hts t ht).normal
  have hflat := isUnknown_of_mem_flatList hnormal hunknown
  rw [unionOf_eq_ofMembers_unionMembers hflat, Unnamed.fits_ofMembers_iff
    (unionList_unionMembers hflat) (fun u hu => normalWith_of_mem_unionMembers (fun _ => rfl) hts hu) hd]
  constructor
  · intro h t ht
    rw [(hts t ht).fits_iff_forall_members hd]
    exact fun m hm => fits_of_mem_flatList hts hd ((mem_flatList_iff hnormal).2 ⟨t, ht, hm⟩) h
  · intro h
    have hmember : ∀ {m : Ty}, m ∈ flatList ts → Fits m d := by
      intro m hm
      obtain ⟨t, ht, hm⟩ := (mem_flatList_iff hnormal).1 hm
      exact ((hts t ht).fits_iff_forall_members hd).1 (h t ht) m hm
    intro u hu
    rcases mem_absorb_cases hu with hu | ⟨rfl, hbools⟩
    · exact hmember (List.mem_of_mem_filter ((distinctWith_sublist _ _).subset hu))
    · exact hd.fits_boolean fun b =>
        hmember (List.mem_of_mem_filter ((distinctWith_sublist _ _).subset (hbools b)))

/-- **Building a union gives a least upper bound**: the comparisons answer, the union fits a type exactly
where everything that it is built from does, and everything that it is built from fits the union. -/
theorem isAssignable_unionOf (hunknown : .unknown ∉ flatList ts) :
    (∃ answer, isAssignable none (unionOf ts) d = .ok answer ∧
      (answer = true ↔ ∀ t ∈ ts, isAssignable none t d = .ok true)) ∧
    (∀ t ∈ ts, ∃ answer, isAssignable none t d = .ok answer) ∧
    ∀ t ∈ ts, isAssignable none t (unionOf ts) = .ok true := by
  have hnot : .unknown ∉ ts := fun hmem => by
    refine hunknown ?_
    rw [mem_flatList_iff fun t ht => (hts t ht).normal]
    exact ⟨_, hmem, .head _⟩
  have hunion := unnamed_unionOf hts
  obtain ⟨answer, hanswer⟩ : ∃ answer, isAssignable none (unionOf ts) d = .ok answer :=
    Rules.assignable_none_ok hunion.normal hd.normal
  refine ⟨⟨answer, hanswer, ?_⟩, fun t ht => Rules.assignable_none_ok (hts t ht).normal hd.normal, ?_⟩
  · have hiff := fits_unionOf_iff hts hd hnot
    rw [Fits, hanswer, Except.ok.injEq] at hiff
    exact hiff
  · exact (fits_unionOf_iff hts hunion hnot).1 (fits_refl hunion.normal)

end Built

/-- The two truth values with an intersection between them: each of them fits the target, and so does their
union, which is neither that target nor one of its members. -/
theorem isAssignable_unionOf_values :
    isAssignable none (unionOf [.bool true, .inter [.tvar "A", .tvar "B"], .bool false])
      (.union [.inter [.tvar "A", .tvar "B"], .nil, .boolean]) = .ok true := by
  have htvar : ∀ v, Unnamed (.tvar v) := fun v => .intro trivial rfl fun _ hu => by cases hu
  have hbool : ∀ b, Unnamed (.bool b) := fun b =>
    .intro (by simp [NormalHead]) rfl fun _ hu => by cases hu
  have hinter : Unnamed (.inter [.tvar "A", .tvar "B"]) := by
    refine .intro rfl rfl fun u hu => ?_
    cases hu with
    | inter hu => rcases List.mem_pair.1 hu with rfl | rfl <;> exact htvar _
  have hd : Unnamed (.union [.inter [.tvar "A", .tvar "B"], .nil, .boolean]) := by
    refine .intro rfl rfl fun u hu => ?_
    cases hu with
    | union hu =>
        simp only [List.mem_cons, List.not_mem_nil, or_false] at hu
        rcases hu with rfl | rfl | rfl
        exacts [hinter, normalWith_prim rfl, normalWith_prim rfl]
  have hts : ∀ t ∈ [Ty.bool true, .inter [.tvar "A", .tvar "B"], .bool false], t.Unnamed := by
    simp only [List.forall_mem_cons]
    exact ⟨hbool _, hinter, hbool _, by simp⟩
  obtain ⟨⟨answer, hanswer, hiff⟩, -⟩ := isAssignable_unionOf hts hd (by simp [flatList, flat])
  rw [hanswer, hiff.2]
  simp only [List.forall_mem_cons]
  exact ⟨rfl, rfl, rfl, by simp⟩

end TreeCheck
