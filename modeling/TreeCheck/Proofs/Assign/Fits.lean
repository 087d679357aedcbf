import TreeCheck.Proofs.Assign.Recursive
import TreeCheck.Proofs.Assign.Representation
import TreeCheck.Proofs.Ty.Regular

/-!
# When one type fits another

`Fits s d` says that the strict comparison without definitions answers yes.  On types without names
it is read off the members: every member of the source must fit some member of the target.  That
`true | false` is covered by `boolean` needs no rule of its own, since a union in normal form never lists
both truth values.

* `Fits`, `fits_iff` — the relation, and one step of it;
* `fits_congr`, `fits_predToBoolean` — equal types and predicates in place of truth values;
* `Ty.Nameless`, `fits_structural` — types without names, and the rules for two heads;
* `fits_union_left`, `fits_union_right`, `fits_iff_members` — unions, member by member.
-/

namespace TreeCheck

open Ty

/-- The strict comparison without definitions answers yes. -/
def Fits (s d : Ty) : Prop := isAssignable none s d = .ok true

/-- A formula whose comparisons all answer evaluates to its truth. -/
theorem Goal.run_eq_true_iff {go : Ty → Ty → Query Bool} {g : Goal}
    (h : ∀ p ∈ g.asked, ∃ b, go p.1 p.2 = .ok b) :
    g.run go = .ok true ↔ g.Holds fun s d => go s d = .ok true := by
  constructor
  · exact fun hrun => holds_mono (holds_of_run hrun) fun _ _ _ hgo => hgo.2
  · intro hholds
    obtain ⟨b, hb⟩ := run_ok h
    cases b with
    | true => exact hb
    | false => exact absurd hb (run_ne_false hholds fun s d hgo => by rw [hgo]; simp)

/-! ### One step -/

section Step

variable {s d : Ty} (hs : s.Normal) (hd : d.Normal)

include hs hd

/-- **Fitting, one step**: an early answer, or the formula of two types that are no names. -/
theorem fits_iff :
    Fits s d ↔
      match Rules.early? {} s d with
      | some b => b = true
      | none => Rules.opensNames s.predToBoolean d.predToBoolean = false ∧
          (Rules.openGoal {} none s.predToBoolean d.predToBoolean).Holds Fits := by
  rw [Fits, isAssignable, Rules.assignable_none_eq hs hd]
  cases Rules.early? {} s d with
  | some b => simp
  | none =>
      simp only
      split
      · rename_i hnamed
        simp [hnamed]
      · rename_i hnamed
        rw [Goal.run_eq_true_iff fun p hp => ?_]
        · simp only [hnamed, true_and]
          exact Iff.rfl
        · obtain ⟨hs', hd'⟩ := (Rules.leads_none_of_asked hs hd hp).1
          exact Rules.assignable_none_ok hs' hd'

theorem fits_of_equal (h : s.equal d = true) : Fits s d := by
  rw [fits_iff hs hd, Rules.early?_of_equal h]

theorem fits_unknown_right (h : d = .unknown) : Fits s d := by
  subst h
  rw [fits_iff hs hd]
  rfl

theorem fits_unknown_left (h : s = .unknown) : Fits s d := by
  subst h
  rw [fits_iff hs hd, Rules.early?, show isUnknown .unknown = true from rfl, Bool.or_true]
  rfl

theorem fits_never_left (h : s = .never) : Fits s d := by
  subst h
  rw [fits_iff hs hd, Rules.early?, show isNever .never = true from rfl, Bool.or_true]
  rfl

/-- Fitting does not tell equal types apart. -/
theorem fits_congr {s' d' : Ty} (hs' : s'.Normal) (hd' : d'.Normal) (hss : s.equal s' = true)
    (hdd : d.equal d' = true) : Fits s d ↔ Fits s' d' := by
  obtain ⟨b, hb, hb'⟩ : ∃ b, isAssignable none s d = .ok b ∧ isAssignable none s' d' = .ok b :=
    Rules.assignable_none_congr hs hs' hd hd' hss hdd
  rw [Fits, Fits, hb, hb']

end Step

theorem fits_refl {t : Ty} (h : t.Normal) : Fits t t :=
  fits_of_equal h h (equivOn_wellFormed.refl h.wellFormed)

theorem Ty.predToBoolean_idem (t : Ty) : t.predToBoolean.predToBoolean = t.predToBoolean := by
  cases t <;> rfl

theorem Ty.isUnknown_predToBoolean (t : Ty) : t.predToBoolean.isUnknown = t.isUnknown := by
  cases t <;> rfl

theorem Ty.isNever_predToBoolean (t : Ty) : t.predToBoolean.isNever = t.isNever := by
  cases t <;> rfl

/-- A predicate is compared as a truth value. -/
theorem fits_predToBoolean {s d : Ty} (hs : s.Normal) (hd : d.Normal) :
    Fits s d ↔ Fits s.predToBoolean d.predToBoolean := by
  by_cases heq : s.equal d = true
  · have hpred : s.predToBoolean.equal d.predToBoolean = true := by
      have hself := equivOn_wellFormed.refl (normal_predToBoolean hd).wellFormed
      rw [Ty.equal_congr (normal_predToBoolean hs) (normal_predToBoolean hd)
        (normal_predToBoolean hd) (normal_predToBoolean hd) (equal_predToBoolean hs hd heq) hself]
      exact hself
    exact iff_of_true (fits_of_equal hs hd heq)
      (fits_of_equal (normal_predToBoolean hs) (normal_predToBoolean hd) hpred)
  · have hearly : Rules.early? {} s d = Rules.early? {} s.predToBoolean d.predToBoolean := by
      simp only [Rules.early?, isUnknown_predToBoolean, isNever_predToBoolean, predToBoolean_idem,
        Bool.false_and, Bool.false_eq_true, if_false, heq]
      split
      · rfl
      · split
        · rfl
        · split <;> rfl
    rw [fits_iff hs hd, fits_iff (normal_predToBoolean hs) (normal_predToBoolean hd), hearly,
      predToBoolean_idem, predToBoolean_idem]

theorem fits_predToBoolean_left {s d : Ty} (hs : s.Normal) (hd : d.Normal) :
    Fits s.predToBoolean d ↔ Fits s d := by
  rw [fits_predToBoolean (normal_predToBoolean hs) hd, predToBoolean_idem, ← fits_predToBoolean hs hd]

theorem fits_predToBoolean_right {s d : Ty} (hs : s.Normal) (hd : d.Normal) :
    Fits s d.predToBoolean ↔ Fits s d := by
  rw [fits_predToBoolean hs (normal_predToBoolean hd), predToBoolean_idem, ← fits_predToBoolean hs hd]

/-- Only `unknown` and `never` fit `never`. -/
theorem fits_never_right_iff {s : Ty} (hs : s.Normal) :
    Fits s .never ↔ s = .unknown ∨ s = .never := by
  constructor
  · intro h
    rw [fits_iff hs (normal_prim _), Rules.early?] at h
    by_contra hne
    rw [not_or, ← isUnknown_iff, ← isNever_iff] at hne
    rw [if_neg (by simp [hne, show isUnknown .never = false from rfl]), if_pos (by rfl)] at h
    cases h
  · rintro (h | h)
    · exact fits_unknown_left hs (normal_prim _) h
    · exact fits_never_left hs (normal_prim _) h

/-! ### Types without names -/

namespace Ty

/-- Types in normal form without intersections and names. -/
abbrev Nameless : Ty → Prop := Regular fun _ => False

theorem Nameless.isNamed {t : Ty} (h : t.Nameless) : t.isNamed = false := by
  cases t with
  | ref x args => exact h.head.1.elim
  | classRef x => exact h.head.elim
  | _ => rfl

theorem Nameless.isInter {t : Ty} (h : t.Nameless) : t.isInter = false := by
  cases t with
  | inter ts => exact h.head.elim
  | _ => rfl

theorem nameless_predToBoolean {t : Ty} (h : t.Nameless) : t.predToBoolean.Nameless := by
  cases t with
  | pred x u => exact regular_prim _
  | _ => exact h

/-- The type has a head of its own: it is not `unknown`, `never` or a predicate. -/
structure Firm (t : Ty) : Prop where
  isUnknown : t.isUnknown = false
  isNever : t.isNever = false
  predToBoolean : t.predToBoolean = t

/-- Every type is `unknown`, `never` or firm, once predicates are taken as truth values. -/
theorem unknown_or_never_or_firm (t : Ty) : t = .unknown ∨ t = .never ∨ t.predToBoolean.Firm := by
  obtain h | h | ⟨hunknown, hnever⟩ := t.unknown_or_never_or
  · exact Or.inl h
  · exact Or.inr (Or.inl h)
  · exact Or.inr (Or.inr ⟨by rw [isUnknown_predToBoolean, hunknown],
      by rw [isNever_predToBoolean, hnever], predToBoolean_idem t⟩)

theorem firm_union (ts : List Ty) : Firm (.union ts) := ⟨rfl, rfl, rfl⟩

theorem isUnion_predToBoolean (t : Ty) : t.predToBoolean.isUnion = t.isUnion := by
  cases t <;> rfl

theorem isInter_predToBoolean (t : Ty) : t.predToBoolean.isInter = t.isInter := by
  cases t <;> rfl

theorem isNamed_predToBoolean (t : Ty) : t.predToBoolean.isNamed = t.isNamed := by
  cases t <;> rfl

end Ty

/-- Firm types that are no names are equal, or fit by the formula of their heads. -/
theorem fits_firm {s d : Ty} (hs : s.Normal) (hd : d.Normal) (hsn : s.isNamed = false)
    (hdn : d.isNamed = false) (hsf : s.Firm) (hdf : d.Firm) :
    Fits s d ↔ s.equal d = true ∨ (Rules.openGoal {} none s d).Holds Fits := by
  have hnames : Rules.opensNames s d = false := by simp [Rules.opensNames, hsn, hdn]
  rw [fits_iff hs hd, Rules.early?, hsf.predToBoolean, hdf.predToBoolean,
    if_neg (by simp [hsf.isUnknown, hsf.isNever, hdf.isUnknown]), if_neg (by simp [hdf.isNever]),
    if_neg (by simp)]
  by_cases heq : s.equal d = true
  · simp [heq]
  · simp [heq, hnames]

/-- The rules for two heads that are no names, the source being no union. -/
theorem fits_structural_of_heads {s d : Ty} (hs : s.Normal) (hd : d.Normal) (hsn : s.isNamed = false)
    (hdn : d.isNamed = false) (hsf : s.Firm) (hdf : d.Firm) (hunion : s.isUnion = false) :
    Fits s d ↔ s.equal d = true ∨ (structuralGoal false none s d).Holds Fits := by
  rw [fits_firm hs hd hsn hdn hsf hdf]
  cases s with
  | union ss => cases hunion
  | _ => exact Iff.rfl

/-- The rules for two heads, the source being no union. -/
theorem fits_structural {s d : Ty} (hs : s.Nameless) (hd : d.Nameless) (hsf : s.Firm) (hdf : d.Firm)
    (hunion : s.isUnion = false) :
    Fits s d ↔ s.equal d = true ∨ (structuralGoal false none s d).Holds Fits :=
  fits_structural_of_heads hs.normal hd.normal hs.isNamed hd.isNamed hsf hdf hunion

/-! ### Unions, member by member -/

section Unions

variable {s d : Ty} {ss ds : List Ty}

/-- What is no name and fits a member fits the union. -/
theorem fits_union_of_mem (hs : s.Normal) (hsn : s.isNamed = false) (hunion : s.isUnion = false)
    (hd : Normal (.union ds)) (hmem : d ∈ ds) (h : Fits s d) : Fits s (.union ds) := by
  have hd' := hd.part (.union hmem)
  obtain hhead | hhead | hfirm := s.unknown_or_never_or_firm
  · exact fits_unknown_left hs hd hhead
  · exact fits_never_left hs hd hhead
  · rw [← fits_predToBoolean_left hs hd, fits_structural_of_heads (normal_predToBoolean hs) hd
      (by rwa [isNamed_predToBoolean]) rfl hfirm (firm_union ds) (by rwa [isUnion_predToBoolean])]
    refine Or.inr (Or.inl ((Goal.holds_any _).2 ⟨_, List.mem_map_of_mem hmem, ?_⟩))
    exact (fits_predToBoolean_left hs hd').2 h

/-- **A union fits where all of its members do.** -/
theorem fits_union_left (hs : Normal (.union ss)) (hsn : ∀ s ∈ ss, s.isNamed = false) (hd : d.Normal)
    (hdn : d.isNamed = false) : Fits (.union ss) d ↔ ∀ s ∈ ss, Fits s d := by
  obtain ⟨hlist, hlen⟩ := unionOf_eq_union_iff.1 hs.head
  have hmember : ∀ {s : Ty}, s ∈ ss → s.Normal := fun h => hs.part (.union h)
  obtain rfl | rfl | hfirm := d.unknown_or_never_or_firm
  · exact iff_of_true (fits_unknown_right hs hd rfl) fun s hmem =>
      fits_unknown_right (hmember hmem) hd rfl
  · -- a union has members, and none of them is `unknown` or `never`
    rw [fits_never_right_iff hs]
    refine iff_of_false (by simp) fun h => ?_
    obtain ⟨s, hmem⟩ := List.exists_mem_of_length_pos (show 0 < ss.length by omega)
    rcases (fits_never_right_iff (hmember hmem)).1 (h s hmem) with rfl | rfl
    · cases hlist.isUnknown _ hmem
    · cases hlist.isNever _ hmem
  · have hpred := normal_predToBoolean hd
    rw [← fits_predToBoolean_right hs hd, fits_firm hs hpred rfl (by rwa [isNamed_predToBoolean])
      (firm_union ss) hfirm]
    simp only [Rules.openGoal, Goal.holds_all, List.forall_mem_map, Goal.holds_ask]
    constructor
    · rintro (heq | h) s hmem
      · -- equal unions list equal members
        rw [equal_eq_sameNode hs.wellFormed hpred.wellFormed, sameNode_union_iff] at heq
        obtain ⟨ds, hds, hset⟩ := heq
        obtain ⟨m, hm, hequal⟩ := (sameSet_iff.1 hset).2 s hmem
        rw [← fits_predToBoolean_right (hmember hmem) hd]
        rw [hds] at hpred ⊢
        have hm' := hpred.part (.union hm)
        exact fits_union_of_mem (hmember hmem) (hsn s hmem) (hlist.isUnion s hmem) hpred hm
          (fits_of_equal (hmember hmem) hm' (equivOn_wellFormed.symm hm'.wellFormed
            (hmember hmem).wellFormed hequal))
      · exact (fits_predToBoolean_right (hmember hmem) hd).1 (h s hmem)
    · exact fun h => Or.inr fun s hmem =>
        (fits_predToBoolean_right (hmember hmem) hd).2 (h s hmem)

/-- Constants other than `NaN` against a type that is no name, union or intersection. -/
theorem fits_lit_iff {l : Lit} (hl : l ≠ .num .nan) (hd : d.Normal) (hdn : d.isNamed = false)
    (hunion : d.isUnion = false) (hinter : d.isInter = false) :
    Fits (.lit l) d ↔ d = .unknown ∨ (∃ p, d.predToBoolean = .prim p ∧ assignToPrim (.lit l) p = true) ∨
      ∃ k, d = .lit k ∧ l.same k = true := by
  have hlit : Normal (.lit l) := (regular_lit hl : Nameless _).normal
  obtain rfl | rfl | hfirm := d.unknown_or_never_or_firm
  · exact iff_of_true (fits_unknown_right hlit hd rfl) (Or.inl rfl)
  · rw [fits_never_right_iff hlit]
    refine iff_of_false (by simp) ?_
    rintro (h | ⟨p, hp, h⟩ | ⟨k, hk, -⟩)
    · cases h
    · cases hp
      cases h
    · cases hk
  · rw [← fits_predToBoolean_right hlit hd, fits_structural_of_heads hlit (normal_predToBoolean hd) rfl
      (by rwa [isNamed_predToBoolean]) ⟨rfl, rfl, rfl⟩ hfirm rfl]
    have hnode := equal_eq_sameNode hlit.wellFormed (normal_predToBoolean hd).wellFormed
    rw [hnode, sameNode_lit_iff]
    cases d with
    | union ds => cases hunion
    | inter ds => cases hinter
    | prim p =>
        have hunknown : p ≠ .unknown := by
          rintro rfl
          cases hfirm.isUnknown
        simp [predToBoolean, structuralGoal, hunknown]
    | _ => simp [predToBoolean, structuralGoal]

/-- What takes one truth value but is not this constant takes both. -/
theorem fits_boolean_of_bool {b : Bool} (hd : d.Normal) (hdn : d.isNamed = false)
    (hunion : d.isUnion = false) (hinter : d.isInter = false) (hunknown : d.isUnknown = false)
    (h : Fits (.bool b) d) : d = .bool b ∨ Fits .boolean d := by
  rcases (fits_lit_iff (by simp) hd hdn hunion hinter).1 h with rfl | ⟨p, hp, hassign⟩ | ⟨k, rfl, hsame⟩
  · cases hunknown
  · refine Or.inr ((fits_predToBoolean_right (normal_prim _) hd).1 ?_)
    rw [hp]
    cases p <;> first | exact fits_refl (normal_prim _) | cases hassign
  · cases k with
    | bool c =>
        rw [Lit.same, beq_iff_eq] at hsame
        exact Or.inl (by rw [hsame])
    | _ => cases hsame

/-- Both truth values fit members of a union only if `boolean` fits one: a union in normal form does not
list them both. -/
theorem exists_fits_boolean (hd : Nameless (.union ds)) (h : ∀ b, ∃ d ∈ ds, Fits (.bool b) d) :
    ∃ d ∈ ds, Fits .boolean d := by
  have hlist := (unionOf_eq_union_iff.1 hd.normal.head).1
  have hbool : ∀ b, .bool b ∈ ds ∨ ∃ d ∈ ds, Fits .boolean d := by
    intro b
    obtain ⟨d, hmem, hfits⟩ := h b
    have hd' : d.Nameless := hd.part (.union hmem)
    rcases fits_boolean_of_bool hd'.normal hd'.isNamed (hlist.isUnion d hmem) hd'.isInter
      (hlist.isUnknown d hmem) hfits with rfl | hfits
    · exact Or.inl hmem
    · exact Or.inr ⟨d, hmem, hfits⟩
  rcases hbool true with htrue | hfits
  · rcases hbool false with hfalse | hfits
    · have hboth := hlist.bools
      rw [hasBool_iff.2 htrue, hasBool_iff.2 hfalse] at hboth
      cases hboth
    · exact hfits
  · exact hfits

/-- **A type fits a union where it fits a member.** -/
theorem fits_union_right (hs : s.Nameless) (hunion : s.isUnion = false) (hd : Nameless (.union ds)) :
    Fits s (.union ds) ↔ ∃ d ∈ ds, Fits s d := by
  have hlen := (unionOf_eq_union_iff.1 hd.normal.head).2
  have hmember : ∀ {d : Ty}, d ∈ ds → d.Normal := fun h => (hd.part (.union h)).normal
  refine ⟨fun h => ?_, fun ⟨d, hmem, h⟩ =>
    fits_union_of_mem hs.normal hs.isNamed hunion hd.normal hmem h⟩
  -- a firm source asks the members, and `boolean` its two values
  have hstep : ∀ {t : Ty}, t.Nameless → t.Firm → t.isUnion = false → Fits t (.union ds) →
      (∃ d ∈ ds, Fits t d) ∨ t = .boolean ∧ ∀ b, Fits (.bool b) (.union ds) := by
    intro t ht htf htu hfits
    rcases (fits_structural ht hd htf (firm_union ds) htu).1 hfits with heq | hgoal
    · rw [isUnion_of_equal ht.normal hd.normal heq] at htu
      cases htu
    · simp only [structuralGoal, unionGoal, Goal.holds_either, Goal.holds_any, List.mem_map,
        exists_exists_and_eq_and, Goal.holds_ask] at hgoal
      refine hgoal.imp_right fun hgoal => ?_
      split at hgoal
      · exact ⟨rfl, fun b => by cases b; exacts [hgoal.2, hgoal.1]⟩
      · cases hgoal
  obtain ⟨d, hmem⟩ := List.exists_mem_of_length_pos (show 0 < ds.length by omega)
  obtain hhead | hhead | hfirm := s.unknown_or_never_or_firm
  · exact ⟨d, hmem, fits_unknown_left hs.normal (hmember hmem) hhead⟩
  · exact ⟨d, hmem, fits_never_left hs.normal (hmember hmem) hhead⟩
  · have hexists : ∃ d ∈ ds, Fits s.predToBoolean d := by
      rcases hstep (nameless_predToBoolean hs) hfirm (by rwa [isUnion_predToBoolean])
        ((fits_predToBoolean_left hs.normal hd.normal).2 h) with hfits | ⟨hboolean, hvalues⟩
      · exact hfits
      · rw [hboolean]
        refine exists_fits_boolean hd fun b => ?_
        refine (hstep (regular_bool b) ⟨rfl, rfl, rfl⟩ rfl (hvalues b)).resolve_right fun h => ?_
        cases h.1
    obtain ⟨d, hmem, hfits⟩ := hexists
    exact ⟨d, hmem, (fits_predToBoolean_left hs.normal (hmember hmem)).1 hfits⟩

/-- **Types without names fit member by member.** -/
theorem fits_iff_members (hs : s.Nameless) (hd : d.Nameless) :
    Fits s d ↔ ∀ m ∈ s.members, ∃ n ∈ d.members, Fits m n := by
  have hright : ∀ {m : Ty}, m.Nameless → m.isUnion = false →
      (Fits m d ↔ ∃ n ∈ d.members, Fits m n) := by
    intro m hm hunion
    cases d with
    | union ds => exact fits_union_right hm hunion hd
    | _ => simp [members]
  cases s with
  | union ss =>
      have hlist := (unionOf_eq_union_iff.1 hs.normal.head).1
      have hmember : ∀ m ∈ ss, m.Nameless := fun m hm => hs.part (.union hm)
      rw [fits_union_left hs.normal (fun m hm => (hmember m hm).isNamed) hd.normal hd.isNamed]
      exact forall₂_congr fun m hm => hright (hmember m hm) (hlist.isUnion m hm)
  | _ => simpa [members] using hright hs rfl

end Unions

end TreeCheck
