import TreeCheck.Proofs.Assign.Preorder

/-!
# Fitting and built unions

Building a union drops members that are equal to others or covered by wider ones, and joins the two
truth values.  None of this shows in what fits the union or in what the union fits.

* `Below` — a type that may give way to another in a union;
* `fits_boolean_iff` — `boolean` fits where both truth values do;
* `fits_unionOf_left`, `fits_unionOf_right` — built unions, by the types that they are built from;
* `fits_right_congr` — a target is known by the atomic types that fit it;
* `fits_nullable_left`, `fits_removeNil_left`, `fits_nullable_right` — adding and removing `nil`;
* `fits_iff_structuralGoal` — the formula of two heads covers equal types.
-/

namespace TreeCheck

open Ty

/-! ### Types that give way to others -/

/-- Whatever the second type fits the first one fits, and whatever fits the first one fits the second. -/
structure Below (t u : Ty) : Prop where
  left : ∀ {x : Ty}, x.Nameless → Fits u x → Fits t x
  right : ∀ {s : Ty}, s.Nameless → Fits s t → Fits s u

/-- What is no union fits a type if it fits one of its members. -/
theorem fits_left_members {s x : Ty} (hs : s.Nameless) (hunion : s.isUnion = false) (hx : x.Nameless) :
    Fits s x ↔ ∃ n ∈ x.members, Fits s n := by
  rw [fits_iff_members hs hx]
  cases s with
  | union ss => cases hunion
  | _ => simp [members]

/-- A type fits what is no union if all of its members do. -/
theorem fits_right_members {s x : Ty} (hs : s.Nameless) (hx : x.Nameless) (hunion : x.isUnion = false) :
    Fits s x ↔ ∀ m ∈ s.members, Fits m x := by
  rw [fits_iff_members hs hx]
  cases x with
  | union ss => cases hunion
  | _ => simp [members]

/-- Types that are no unions are below each other if they are for types that are no unions. -/
theorem below_of_members {t u : Ty} (ht : t.Nameless) (hu : u.Nameless) (htu : t.isUnion = false)
    (huu : u.isUnion = false)
    (hleft : ∀ x : Ty, x.Nameless → x.isUnion = false → Fits u x → Fits t x)
    (hright : ∀ s : Ty, s.Nameless → s.isUnion = false → Fits s t → Fits s u) : Below t u where
  left {x} hx h := by
    obtain ⟨n, hn, h⟩ := (fits_left_members hu huu hx).1 h
    exact (fits_left_members ht htu hx).2
      ⟨n, hn, hleft n (hx.of_mem_members hn) (isUnion_of_mem_members hx.normal hn) h⟩
  right {s} hs h := by
    rw [fits_right_members hs ht htu] at h
    rw [fits_right_members hs hu huu]
    exact fun m hm => hright m (hs.of_mem_members hm) (isUnion_of_mem_members hs.normal hm) (h m hm)

/-- Equal types fit the same types, and the same types fit them. -/
theorem below_of_equal {t u : Ty} (ht : t.Nameless) (hu : u.Nameless) (h : t.equal u = true) :
    Below t u where
  left hx := (fits_congr ht.normal hx.normal hu.normal hx.normal h
    (equivOn_wellFormed.refl hx.normal.wellFormed)).2
  right hs := (fits_congr hs.normal ht.normal hs.normal hu.normal
    (equivOn_wellFormed.refl hs.normal.wellFormed) h).1

/-- Firm types that are no unions against a built-in type. -/
theorem fits_prim_right_iff {s : Ty} {p : Prim} (hs : s.Nameless) (hsf : s.Firm)
    (hunion : s.isUnion = false) (hp : Firm (.prim p)) :
    Fits s (.prim p) ↔ assignToPrim s p = true := by
  rw [fits_structural hs (regular_prim p) hsf hp hunion, equal_prim_right_iff]
  cases s with
  | inter ss => exact hs.head.elim
  | prim q =>
      simp only [prim.injEq, structuralGoal, Goal.holds_answer]
      refine ⟨?_, Or.inr⟩
      rintro (rfl | h)
      · simp [assignToPrim]
      · exact h
  | _ => simp [structuralGoal, assignToPrim]

/-- Firm built-in types against a type that is no name, union or intersection. -/
theorem fits_prim_iff {p : Prim} {d : Ty} (hp : Firm (.prim p)) (hd : d.Normal)
    (hdn : d.isNamed = false) (hunion : d.isUnion = false) (hinter : d.isInter = false) :
    Fits (.prim p) d ↔
      d = .unknown ∨ ∃ q, d.predToBoolean = .prim q ∧ assignToPrim (.prim p) q = true := by
  have hprim : Nameless (.prim p) := regular_prim p
  obtain rfl | rfl | hdf := d.unknown_or_never_or_firm
  · exact iff_of_true (fits_unknown_right hprim.normal hd rfl) (Or.inl rfl)
  · have hne : p ≠ .unknown ∧ p ≠ .never := by
      constructor
      · rintro rfl
        cases hp.isUnknown
      · rintro rfl
        cases hp.isNever
    rw [fits_never_right_iff hprim.normal]
    refine iff_of_false (by simp [hne]) ?_
    rintro (h | ⟨q, hq, h⟩)
    · cases h
    · cases hq
      simp [assignToPrim, hne] at h
  · rw [← fits_predToBoolean_right hprim.normal hd]
    have hd' := normal_predToBoolean hd
    rw [← isNamed_predToBoolean] at hdn
    have hne : d ≠ .unknown := by
      rintro rfl
      cases hdf.isUnknown
    rw [or_iff_right hne]
    cases hpred : d.predToBoolean with
    | prim q =>
        rw [hpred] at hdf
        rw [fits_prim_right_iff hprim hp rfl hdf]
        simp
    | union ds =>
        rw [← isUnion_predToBoolean, hpred] at hunion
        cases hunion
    | inter ds =>
        rw [← isInter_predToBoolean, hpred] at hinter
        cases hinter
    | _ =>
        rw [hpred] at hdf hd' hdn
        rw [fits_structural_of_heads hprim.normal hd' rfl hdn hp hdf rfl, equal_prim_iff]
        simp [structuralGoal]

/-- A built-in type that another one takes fits what the other fits. -/
theorem fits_prim_of_assign {p q : Prim} {d : Ty} (hp : Firm (.prim p)) (hq : Firm (.prim q))
    (h : assignToPrim (.prim p) q = true) (hd : d.Normal) (hdn : d.isNamed = false)
    (hunion : d.isUnion = false) (hinter : d.isInter = false) (hfits : Fits (.prim q) d) :
    Fits (.prim p) d := by
  rw [fits_prim_iff hq hd hdn hunion hinter] at hfits
  exact (fits_prim_iff hp hd hdn hunion hinter).2 (hfits.imp_right fun ⟨r, hr, hassign⟩ =>
    ⟨r, hr, assignToPrim_trans h hassign⟩)

/-- A constant that a built-in type takes fits what the built-in type fits. -/
theorem fits_lit_of_assign {l : Lit} {q : Prim} {d : Ty} (hl : l ≠ .num .nan) (hq : Firm (.prim q))
    (h : assignToPrim (.lit l) q = true) (hd : d.Normal) (hdn : d.isNamed = false)
    (hunion : d.isUnion = false) (hinter : d.isInter = false) (hfits : Fits (.prim q) d) :
    Fits (.lit l) d := by
  rw [fits_prim_iff hq hd hdn hunion hinter] at hfits
  exact (fits_lit_iff hl hd hdn hunion hinter).2 (hfits.imp_right fun ⟨r, hr, hassign⟩ =>
    Or.inl ⟨r, hr, assignToPrim_trans h hassign⟩)

/-- A built-in type is below one that takes it. -/
theorem below_prim {p q : Prim} (hp : Firm (.prim p)) (hq : Firm (.prim q))
    (h : assignToPrim (.prim p) q = true) : Below (.prim p) (.prim q) := by
  have hprim : ∀ r, Nameless (.prim r) := regular_prim
  refine below_of_members (hprim p) (hprim q) rfl rfl (fun x hx hunion hfits => ?_)
    fun s hs hunion hfits => ?_
  · exact fits_prim_of_assign hp hq h hx.normal hx.isNamed hunion hx.isInter hfits
  · obtain hhead | hhead | hfirm := s.unknown_or_never_or_firm
    · exact fits_unknown_left hs.normal (hprim q).normal hhead
    · exact fits_never_left hs.normal (hprim q).normal hhead
    · have hs' := nameless_predToBoolean hs
      have hunion' : s.predToBoolean.isUnion = false := by rwa [isUnion_predToBoolean]
      rw [← fits_predToBoolean_left hs.normal (hprim _).normal] at hfits ⊢
      rw [fits_prim_right_iff hs' hfirm hunion' hp] at hfits
      rw [fits_prim_right_iff hs' hfirm hunion' hq]
      exact assignToPrim_trans hfits h

/-- What fits a constant and is no union is that constant, or `unknown` or `never`. -/
theorem lit_of_fits_lit {s : Ty} {l : Lit} (hl : l ≠ .num .nan) (hs : s.Nameless)
    (hunion : s.isUnion = false) (h : Fits s (.lit l)) :
    s = .unknown ∨ s = .never ∨ ∃ k, s = .lit k ∧ equal (.lit k) (.lit l) = true := by
  have hlit : Nameless (.lit l) := regular_lit hl
  obtain hhead | hhead | hfirm := s.unknown_or_never_or_firm
  · exact Or.inl hhead
  · exact Or.inr (Or.inl hhead)
  · refine Or.inr (Or.inr ?_)
    rw [← fits_predToBoolean_left hs.normal hlit.normal,
      fits_structural (nameless_predToBoolean hs) hlit hfirm ⟨rfl, rfl, rfl⟩
        (by rwa [isUnion_predToBoolean])] at h
    have hnode := equal_eq_sameNode (normal_predToBoolean hs.normal).wellFormed hlit.normal.wellFormed
    cases s with
    | union ss => cases hunion
    | inter ss => exact hs.head.elim
    | lit k => exact ⟨k, rfl, h.resolve_right fun h => nomatch h⟩
    | _ =>
        rw [hnode] at h
        rcases h with h | h <;> cases h

/-- A constant is below the built-in types that take it. -/
theorem below_lit {l : Lit} (hl : l ≠ .num .nan) {p : Prim} (hp : Firm (.prim p))
    (h : assignToPrim (.lit l) p = true) : Below (.lit l) (.prim p) := by
  have hprim : Nameless (.prim p) := regular_prim p
  have hlit : Nameless (.lit l) := regular_lit hl
  refine below_of_members hlit hprim rfl rfl (fun x hx hunion hfits => ?_)
    fun s hs hunion hfits => ?_
  · exact fits_lit_of_assign hl hp h hx.normal hx.isNamed hunion hx.isInter hfits
  · rcases lit_of_fits_lit hl hs hunion hfits with hhead | hhead | ⟨k, rfl, hequal⟩
    · exact fits_unknown_left hs.normal hprim.normal hhead
    · exact fits_never_left hs.normal hprim.normal hhead
    · rw [fits_prim_right_iff hs ⟨rfl, rfl, rfl⟩ rfl hp,
        assignToPrim_congr hs.normal.wellFormed hlit.normal.wellFormed hequal]
      exact h

/-- Wider types are above. -/
theorem below_of_wider {t u : Ty} (ht : t.Nameless) (h : Wider t u) : Below t u := by
  cases h with
  | lit l =>
      refine below_lit ht.normal.head ?_ ?_
      · cases l <;> exact ⟨rfl, rfl, rfl⟩
      · cases l <;> rfl
  | whole hwhole => exact below_lit ht.normal.head ⟨rfl, rfl, rfl⟩ hwhole
  | integer => exact below_prim ⟨rfl, rfl, rfl⟩ ⟨rfl, rfl, rfl⟩ rfl

theorem Below.trans {t u v : Ty} (htu : Below t u) (huv : Below u v) : Below t v where
  left hx h := htu.left hx (huv.left hx h)
  right hs h := huv.right hs (htu.right hs h)

theorem below_refl (t : Ty) : Below t t := ⟨fun _ h => h, fun _ h => h⟩

/-! ### Truth values -/

/-- **`boolean` fits where both truth values do.** -/
theorem fits_boolean_iff {d : Ty} (hd : d.Nameless) : Fits .boolean d ↔ ∀ b, Fits (.bool b) d := by
  constructor
  · exact fun h b => (below_of_wider (regular_bool b) (.lit (.bool b))).left hd h
  · intro h
    cases hunion : d.isUnion with
    | true =>
        cases d with
        | union ds =>
            rw [fits_union_right (regular_prim _) rfl hd]
            exact exists_fits_boolean hd fun b => (fits_union_right (regular_bool b) rfl hd).1 (h b)
        | _ => cases hunion
    | false =>
        cases hunknown : d.isUnknown with
        | true => exact fits_unknown_right (normal_prim _) hd.normal (isUnknown_iff.1 hunknown)
        | false =>
            have hvalue := fun b =>
              fits_boolean_of_bool hd.normal hd.isNamed hunion hd.isInter hunknown (h b)
            rcases hvalue true with htrue | hfits
            · rcases hvalue false with hfalse | hfits
              · cases htrue.symm.trans hfalse
              · exact hfits
            · exact hfits

/-! ### Built unions -/

/-- A type of one value or of one shape: no union, no truth value, and neither `unknown` nor `never`. -/
structure Ty.Atomic (s : Ty) : Prop where
  firm : s.Firm
  isUnion : s.isUnion = false
  ne_boolean : s ≠ .boolean

section Built

variable {es : List Ty} (hes : ∀ e ∈ es, e.Nameless)

include hes

/-- What is dropped when a union is built gives way to something that stays. -/
theorem exists_below_of_mem {e m : Ty} (he : e ∈ es) (hm : m ∈ e.members)
    (hnever : m.isNever = false) : ∃ u ∈ unionMembers es, Below m u := by
  have hnormal : ∀ e ∈ es, e.Normal := fun e he => (hes e he).normal
  have hflat : ∀ {u : Ty}, u ∈ flatList es → u.Nameless := by
    intro u hu
    obtain ⟨e, he, hu⟩ := (mem_flatList_iff hnormal).1 hu
    exact (hes e he).of_mem_members hu
  have hmem := (mem_flatList_iff hnormal).2 ⟨e, he, hm⟩
  obtain ⟨k, hk, hequal⟩ := exists_equal_of_mem equal
    (List.mem_filter.2 ⟨hmem, by simp [hnever]⟩ : m ∈ (flatList es).filter (!Ty.isNever ·))
  have hkflat : k ∈ flatList es := List.mem_of_mem_filter ((distinctWith_sublist _ _).subset hk)
  obtain ⟨u, hu, hwider⟩ := exists_wider_of_mem hk
  have hmk : Below m k := by
    rcases hequal with rfl | hequal
    · exact below_refl k
    · exact below_of_equal (hflat hmem) (hflat hkflat) (equivOn_wellFormed.symm
        (hflat hkflat).normal.wellFormed (hflat hmem).normal.wellFormed hequal)
  have hku : Below k u := by
    rcases hwider with rfl | hwider
    · exact below_refl u
    · exact below_of_wider (hflat hkflat) hwider
  exact ⟨u, hu, hmk.trans hku⟩

omit hes in
/-- A union fits where each of its members does. -/
theorem fits_ofMembers_left {us : List Ty} (hlist : UnionList us) (hus : ∀ u ∈ us, u.Nameless) {x : Ty}
    (hx : x.Nameless) : Fits (ofMembers us) x ↔ ∀ u ∈ us, Fits u x := by
  have hregular := regular_ofMembers hlist hus
  match us with
  | [] => exact iff_of_true (fits_never_left hregular.normal hx.normal rfl) (by simp)
  | [u] => simp [ofMembers]
  | u :: v :: vs =>
      exact fits_union_left hregular.normal (fun w hw => (hus w hw).isNamed) hx.normal hx.isNamed

omit hes in
/-- A type of one shape fits a union where it fits some member. -/
theorem fits_ofMembers_right {us : List Ty} (hlist : UnionList us) (hus : ∀ u ∈ us, u.Nameless) {s : Ty}
    (hs : s.Nameless) (hatomic : s.Atomic) : Fits s (ofMembers us) ↔ ∃ u ∈ us, Fits s u := by
  have hregular := regular_ofMembers hlist hus
  match us with
  | [] =>
      rw [show ofMembers [] = .never from rfl, fits_never_right_iff hs.normal, ← isUnknown_iff,
        ← isNever_iff]
      simp [hatomic.firm.isUnknown, hatomic.firm.isNever]
  | [u] => simp [ofMembers]
  | u :: v :: vs => exact fits_union_right hs hatomic.isUnion hregular

theorem nameless_of_mem_unionMembers {u : Ty} (hu : u ∈ unionMembers es) : u.Nameless := by
  rcases mem_of_mem_unionMembers hu with hu | rfl
  · obtain ⟨e, he, hu⟩ := (mem_flatList_iff fun e he => (hes e he).normal).1 hu
    exact (hes e he).of_mem_members hu
  · exact regular_prim _

/-- **A built union fits where all that it is built from does.** -/
theorem fits_unionOf_left (hunknown : .unknown ∉ es) {x : Ty} (hx : x.Nameless) :
    Fits (unionOf es) x ↔ ∀ e ∈ es, Fits e x := by
  have hnormal : ∀ e ∈ es, e.Normal := fun e he => (hes e he).normal
  have hflat := isUnknown_of_mem_flatList hnormal hunknown
  rw [unionOf_eq_ofMembers_unionMembers hflat, fits_ofMembers_left (unionList_unionMembers hflat)
    (fun u hu => nameless_of_mem_unionMembers hes hu) hx]
  -- member by member, each way
  have hmember : ∀ {m : Ty}, (∀ e ∈ es, Fits e x) → m ∈ flatList es → Fits m x := by
    intro m hfits hm
    obtain ⟨e, he, hm⟩ := (mem_flatList_iff hnormal).1 hm
    obtain ⟨n, hn, h⟩ := (fits_iff_members (hes e he) hx).1 (hfits e he) m hm
    exact (fits_left_members ((hes e he).of_mem_members hm)
      (isUnion_of_mem_members (hnormal e he) hm) hx).2 ⟨n, hn, h⟩
  constructor
  · intro hfits e he
    rw [fits_iff_members (hes e he) hx]
    intro m hm
    have hm' := (hes e he).of_mem_members hm
    rw [← fits_left_members hm' (isUnion_of_mem_members (hnormal e he) hm) hx]
    cases hnever : m.isNever with
    | true => exact fits_never_left hm'.normal hx.normal (isNever_iff.1 hnever)
    | false =>
        obtain ⟨u, hu, hbelow⟩ := exists_below_of_mem hes he hm hnever
        exact hbelow.left hx (hfits u hu)
  · intro hfits u hu
    rcases mem_absorb_cases hu with hu | ⟨rfl, hbools⟩
    · exact hmember hfits (List.mem_of_mem_filter ((distinctWith_sublist _ _).subset hu))
    · exact (fits_boolean_iff hx).2 fun b => hmember hfits
        (List.mem_of_mem_filter ((distinctWith_sublist _ _).subset (hbools b)))

/-- **An atomic type fits a built union where it fits something that the union is built from.** -/
theorem fits_unionOf_right {s : Ty} (hs : s.Nameless) (hatomic : s.Atomic) :
    Fits s (unionOf es) ↔ ∃ e ∈ es, Fits s e := by
  have hnormal : ∀ e ∈ es, e.Normal := fun e he => (hes e he).normal
  by_cases hunknown : .unknown ∈ es
  · rw [unionOf_eq_unknown hunknown]
    exact iff_of_true (fits_unknown_right hs.normal (normal_prim _) rfl)
      ⟨_, hunknown, fits_unknown_right hs.normal (normal_prim _) rfl⟩
  have hflat := isUnknown_of_mem_flatList hnormal hunknown
  rw [unionOf_eq_ofMembers_unionMembers hflat, fits_ofMembers_right (unionList_unionMembers hflat)
    (fun u hu => nameless_of_mem_unionMembers hes hu) hs hatomic]
  have hmember : ∀ {m : Ty}, m ∈ flatList es → Fits s m → ∃ e ∈ es, Fits s e := by
    intro m hm hfits
    obtain ⟨e, he, hm⟩ := (mem_flatList_iff hnormal).1 hm
    exact ⟨e, he, (fits_left_members hs hatomic.isUnion (hes e he)).2 ⟨m, hm, hfits⟩⟩
  constructor
  · rintro ⟨u, hu, hfits⟩
    rcases mem_absorb_cases hu with hu | ⟨rfl, hbools⟩
    · exact hmember (List.mem_of_mem_filter ((distinctWith_sublist _ _).subset hu)) hfits
    · -- only truth values are atomic and fit `boolean`
      have hassign := (fits_prim_right_iff hs hatomic.firm hatomic.isUnion ⟨rfl, rfl, rfl⟩).1 hfits
      obtain ⟨b, rfl⟩ : ∃ b, s = .bool b := by
        cases s with
        | prim p =>
            refine absurd ?_ hatomic.ne_boolean
            cases p <;> first | rfl | cases hassign
        | lit l => cases l <;> first | exact ⟨_, rfl⟩ | cases hassign
        | _ => cases hassign
      exact hmember (List.mem_of_mem_filter ((distinctWith_sublist _ _).subset (hbools b)))
        (fits_refl hs.normal)
  · rintro ⟨e, he, hfits⟩
    obtain ⟨m, hm, hfits⟩ := (fits_left_members hs hatomic.isUnion (hes e he)).1 hfits
    cases hnever : m.isNever with
    | true =>
        rw [isNever_iff.1 hnever, fits_never_right_iff hs.normal, ← isUnknown_iff, ← isNever_iff,
          hatomic.firm.isUnknown, hatomic.firm.isNever] at hfits
        simp at hfits
    | false =>
        obtain ⟨u, hu, hbelow⟩ := exists_below_of_mem hes he hm hnever
        exact ⟨u, hu, hbelow.right hs hfits⟩

end Built

/-- **A target is known by the atomic types that fit it.** -/
theorem fits_right_mono {u v : Ty} (hu : u.Nameless) (hv : v.Nameless)
    (h : ∀ s : Ty, s.Nameless → s.Atomic → Fits s u → Fits s v) {s : Ty} (hs : s.Nameless)
    (hfits : Fits s u) : Fits s v := by
  have hmember : ∀ {m : Ty}, m.Nameless → m.isUnion = false → Fits m u → Fits m v := by
    intro m hm hunion hfits
    obtain hhead | hhead | hfirm := m.unknown_or_never_or_firm
    · exact fits_unknown_left hm.normal hv.normal hhead
    · exact fits_never_left hm.normal hv.normal hhead
    · rw [← fits_predToBoolean_left hm.normal hu.normal] at hfits
      rw [← fits_predToBoolean_left hm.normal hv.normal]
      by_cases hboolean : m.predToBoolean = .boolean
      · rw [hboolean, fits_boolean_iff hu] at hfits
        rw [hboolean, fits_boolean_iff hv]
        exact fun b => h _ (regular_bool b) ⟨⟨rfl, rfl, rfl⟩, rfl, by simp⟩ (hfits b)
      · exact h _ (nameless_predToBoolean hm) ⟨hfirm, by rwa [isUnion_predToBoolean], hboolean⟩ hfits
  rw [fits_iff_members hs hv]
  intro m hm
  have hm' := hs.of_mem_members hm
  have hunion := isUnion_of_mem_members hs.normal hm
  rw [← fits_left_members hm' hunion hv]
  refine hmember hm' hunion ((fits_left_members hm' hunion hu).2 ?_)
  exact (fits_iff_members hs hu).1 hfits m hm

/-- It is enough to compare two targets on types of one shape. -/
theorem fits_right_congr {u v : Ty} (hu : u.Nameless) (hv : v.Nameless)
    (h : ∀ s : Ty, s.Nameless → s.Atomic → (Fits s u ↔ Fits s v)) {s : Ty} (hs : s.Nameless) :
    Fits s u ↔ Fits s v :=
  ⟨fits_right_mono hu hv (fun t ht hatomic => (h t ht hatomic).1) hs,
    fits_right_mono hv hu (fun t ht hatomic => (h t ht hatomic).2) hs⟩

/-- What fits a type fits every union that is built from it. -/
theorem fits_unionOf_of_mem {es : List Ty} (hes : ∀ e ∈ es, e.Nameless) {e : Ty} (he : e ∈ es) {s : Ty}
    (hs : s.Nameless) (h : Fits s e) : Fits s (unionOf es) :=
  fits_right_mono (hes e he) (regular_unionOf hes)
    (fun _ ht hatomic hfits => (fits_unionOf_right hes ht hatomic).2 ⟨e, he, hfits⟩) hs h

/-! ### Adding and removing `nil` -/

section Nil

variable {t : Ty} (ht : t.Nameless)

include ht

theorem nameless_of_mem_nullable : ∀ e ∈ [t, .nil], e.Nameless := by
  intro e he
  rcases List.mem_pair.1 he with rfl | rfl
  · exact ht
  · exact regular_prim _

/-- What fits a type with `nil` added fits the type, or as `nil` does. -/
theorem fits_nullable_right {s : Ty} (hs : s.Nameless) (hatomic : s.Atomic) :
    Fits s t.nullable ↔ Fits s t ∨ Fits s .nil := by
  rw [nullable, fits_unionOf_right (nameless_of_mem_nullable ht) hs hatomic]
  simp

theorem fits_nullable {s : Ty} (hs : s.Nameless) (h : Fits s t) : Fits s t.nullable :=
  fits_unionOf_of_mem (nameless_of_mem_nullable ht) (.head _) hs h

theorem fits_nil_nullable : Fits .nil t.nullable :=
  fits_unionOf_of_mem (nameless_of_mem_nullable ht) (.tail _ (.head _)) (regular_prim _)
    (fits_refl (normal_prim _))

/-- Where `nil` fits, removing it makes no difference. -/
theorem fits_removeNil_left {x : Ty} (hx : x.Nameless) (hnil : Fits .nil x) :
    Fits t.removeNil x ↔ Fits t x := by
  by_cases hunknown : t = .unknown
  · subst hunknown
    exact Iff.rfl
  have hmem : ∀ e ∈ t.members.filter (!·.isNil), e.Nameless := fun e he =>
    ht.of_mem_members (List.mem_of_mem_filter he)
  have hne : .unknown ∉ t.members.filter (!·.isNil) := fun he =>
    hunknown (ht.normal.eq_unknown_of_mem (List.mem_of_mem_filter he) rfl)
  rw [removeNil, Ty.filter, fits_unionOf_left hmem hne hx, fits_iff_members ht hx]
  simp only [List.mem_filter, Bool.not_eq_true', and_imp]
  refine forall₂_congr fun m hm => ?_
  rw [← fits_left_members (ht.of_mem_members hm) (isUnion_of_mem_members ht.normal hm) hx]
  refine ⟨fun h => ?_, fun h _ => h⟩
  cases hm' : m.isNil with
  | false => exact h hm'
  | true => rwa [isNil_iff.1 hm']

end Nil

/-! ### Equal heads -/

theorem FuncOf.required_le {f : Func} : f.required ≤ f.params.length :=
  (List.takeWhile_prefix _).length_le

/-- From the last parameter on a rest parameter takes every argument. -/
theorem FuncOf.paramAt?_of_rest {f : Func} {r : Param} (h : f.rest? = some r) {i : Nat}
    (hi : f.params.length - 1 ≤ i) : f.paramAt? i = some r.type := by
  have hlast : f.params.getLast? = some r ∧ r.rest = true := by
    rwa [FuncOf.rest?, Option.filter_eq_some_iff] at h
  unfold FuncOf.paramAt?
  cases hp : f.params[i]? with
  | none => simp [h]
  | some p =>
      have hlt := (List.getElem?_eq_some_iff.1 hp).1
      have hp' : p = r := by
        rw [List.getLast?_eq_getElem?, show f.params.length - 1 = i by omega, hp] at hlast
        exact Option.some.inj hlast.1
      simp [hp', hlast.2, h]

section Equal

variable {s d : Ty}

theorem carries_fits : Carries Fits Fits := fun _ _ _ _ hs hd hs' hd' hss hdd h =>
  (fits_congr hs hd hs' hd' hss hdd).1 h

/-- A signature takes its own parameters. -/
theorem holds_paramsGoal_refl {f : Func} (hf : Nameless (.func f)) {i : Nat} {ps : List Param}
    (hps : ps = f.params.drop i) : (paramsGoal false f i ps).Holds Fits := by
  induction ps generalizing i with
  | nil => rfl
  | cons p ps ih =>
      have hp : f.params[i]? = some p := by
        rw [← Nat.add_zero i, ← List.getElem?_drop, ← hps]
        rfl
      have htail : ps = f.params.drop (i + 1) := by
        rw [← List.tail_drop, ← hps]
        rfl
      have htype : p.type.Nameless := hf.part (.param (List.mem_of_getElem? hp) rfl)
      rw [paramsGoal]
      split
      · rfl
      · rename_i hrest
        have hat : f.paramAt? i = some p.type := by simp [FuncOf.paramAt?, hp, hrest]
        rw [hat]
        refine ⟨Or.inl ?_, ih htail⟩
        split
        · exact fits_nullable htype htype (fits_refl htype.normal)
        · exact fits_refl htype.normal

theorem holds_restGoal_refl {f : Func} (hf : Nameless (.func f)) :
    (restGoal false f f).Holds Fits := by
  unfold restGoal
  cases hrest : f.rest? with
  | none => rfl
  | some r =>
      have htype : r.type.Nameless := hf.part (.param (FuncOf.mem_of_rest? hrest).1 rfl)
      rw [Goal.holds_all]
      intro g hg
      obtain ⟨i, hi, rfl⟩ := List.mem_map.1 hg
      rw [FuncOf.paramAt?_of_rest hrest (List.mem_range'_1.1 hi).1]
      exact Or.inl (fits_refl htype.normal)

theorem holds_funcGoal_refl {f : Func} (hf : Nameless (.func f)) :
    (funcGoal false f f).Holds Fits := by
  rw [funcGoal, FuncOf.erased_eq hf.normal.head, bareFuncGoal, if_neg ?_]
  · refine ⟨holds_paramsGoal_refl hf rfl, holds_restGoal_refl hf, ?_⟩
    rw [holds_resultGoal_iff]
    exact Or.inr (fits_refl hf.normal.result)
  · have := f.required_le
    simp only [Bool.and_eq_true, decide_eq_true_eq, not_and]
    omega

/-- A record fits itself. -/
theorem holds_objectGoal_refl {o : Object} (ho : Nameless (.object o)) :
    (objectGoal o o).Holds Fits := by
  have hnames : o.names.Nodup := ho.normal.head
  rw [objectGoal, Goal.holds_both, Goal.holds_all]
  constructor
  · intro g hg
    obtain ⟨m, hm, rfl⟩ := List.mem_map.1 hg
    have htype : m.type.Nameless := ho.part (.member hm rfl)
    rw [memberGoal, ObjectOf.find?_of_mem hnames hm]
    simp only [Bool.and_not_self, Bool.false_eq_true, if_false]
    split
    · exact (fits_removeNil_left htype (regular_nullable htype) (fits_nil_nullable htype)).2
        (fits_nullable htype htype (fits_refl htype.normal))
    · exact fits_refl htype.normal
  · unfold indexGoal
    cases hindex : o.index with
    | none => rfl
    | some i =>
        refine ⟨(Goal.holds_all _).2 fun g hg => ?_, fits_refl (ho.part (.value hindex rfl)).normal⟩
        obtain ⟨m, hm, rfl⟩ := List.mem_map.1 hg
        rw [extraGoal, ObjectOf.find?_of_mem hnames hm]
        rfl

/-- Neither a constant nor a type variable: these fit by being equal only. -/
def Ty.isConstant : Ty → Bool
  | .lit _ => true
  | .tvar _ => true
  | _ => false

/-- Every type with a head of its own fits itself. -/
theorem holds_structuralGoal_refl (hs : s.Nameless) (hf : s.Firm) (hunion : s.isUnion = false)
    (hconstant : s.isConstant = false) : (structuralGoal false none s s).Holds Fits := by
  cases s with
  | prim p => simp [structuralGoal, assignToPrim]
  | array e => exact fits_refl (hs.part .array).normal
  | tuple es =>
      rw [holds_tuple_iff, holds_tupleGoal_iff]
      refine ⟨le_refl _, fun i d hd => ?_⟩
      rw [hd]
      exact fits_refl (hs.part (.tuple (List.mem_of_getElem? hd))).normal
  | object o => exact holds_objectGoal_refl hs
  | func f => exact holds_funcGoal_refl hs
  | pred x t => cases hf.predToBoolean
  | union ts => cases hunion
  | inter ts => exact hs.head.elim
  | ref x args => exact hs.head.1.elim
  | classRef x => exact hs.head.elim
  | lit l => cases hconstant
  | tvar v => cases hconstant

/-- **The formula of two heads covers equal types.** -/
theorem fits_iff_structuralGoal (hs : s.Nameless) (hd : d.Nameless) (hsf : s.Firm) (hdf : d.Firm)
    (hunion : s.isUnion = false) (hconstant : s.isConstant = false) :
    Fits s d ↔ (structuralGoal false none s d).Holds Fits := by
  rw [fits_structural hs hd hsf hdf hunion]
  refine or_iff_right_of_imp fun heq => ?_
  exact holds_structuralGoal carries_fits hs.normal hs.normal hs.normal hd.normal
    (equivOn_wellFormed.refl hs.normal.wellFormed) heq
    (holds_structuralGoal_refl hs hsf hunion hconstant)

end Equal

end TreeCheck
