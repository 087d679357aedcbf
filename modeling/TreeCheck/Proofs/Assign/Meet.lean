import TreeCheck.Proofs.Assign.Levels
import TreeCheck.Proofs.Ty.Free
import TreeCheck.Proofs.Ty.Meet
import TreeCheck.Proofs.Ty.Names

/-!
# An intersection and its parts

An intersection of two types should fit both of them.  It does where the two are met so that the comparison
sees it (`Meets`), and there are two ways to miss that.  A union is taken apart before the intersection
that is compared with it, so an intersection of several parts fits a union by one of the members only.  And
of two merged records the first index signature is kept as it is, and no index signature is met with the
members that only the other record has.

* `Ty.Local` — types in normal form without names, generic signatures included;
* `Memberwise`, `Suits` — equality of unions member by member, and what is asked of an optional member;
* `Suits.removeNil_nullable`, `fits_object` — optional members, and one record against another;
* `IndexesMeet`, `fits_meetObject` — a merged record fits both records;
* `Selects`, `fits_of_selects`, `fits_inter_union_iff` — an intersection of several parts, by its parts;
* `suits_of_meets`, `suits_interOf` — one level of the two types, and all of them by induction;
* `isAssignable_interOf` — the intersection is assignable to both of its parts.
-/

namespace TreeCheck

open Ty

/-! ### Types without names -/

namespace Ty

/-- Types in normal form, generic signatures included, in which no name stands. -/
structure Local (t : Ty) : Prop where
  canonical : t.Canonical
  refers : t.Refers ∅

variable {t u : Ty}

theorem Local.part (ht : t.Local) (hu : Part u t) : u.Local where
  canonical := ht.canonical.part hu
  refers := by
    cases ht.refers with
    | intro _ _ _ hparts => exact hparts u hu

theorem Local.isNamed (ht : t.Local) : t.isNamed = false := by
  cases ht.refers with
  | intro href hclass _ _ =>
      cases t with
      | ref x args => exact (href x args rfl).elim
      | classRef x => exact (hclass x rfl).elim
      | _ => rfl

theorem Local.low (ht : t.Local) : Low t.size t := ht.canonical.low

theorem Local.of_mem_parts (ht : t.Local) (hu : u ∈ t.parts) : u.Local := by
  cases t with
  | inter ts => exact ht.part (.inter hu)
  | _ => rwa [List.mem_singleton.1 hu]

theorem Local.of_mem_members (ht : t.Local) (hu : u ∈ t.members) : u.Local := by
  cases t with
  | union ts => exact ht.part (.union hu)
  | _ => rwa [List.mem_singleton.1 hu]

/-- A type is local if its head is in order and all its children are. -/
theorem local_intro (hhead : t.CanonicalHead) (hnamed : t.isNamed = false)
    (hchildren : ∀ u, Child u t → u.Local) : t.Local where
  canonical := .intro hhead fun u hu => (hchildren u hu).canonical
  refers := by
    refine .intro (fun x args ht => ?_) (fun x ht => ?_) (fun c hc => ?_) fun u hu =>
      (hchildren u (.part hu)).refers
    · subst ht
      cases hnamed
    · subst ht
      cases hnamed
    · cases hc with
      | constraint hp hc => exact (hchildren c (.constraint hp hc)).refers
      | default hp hc => exact (hchildren c (.default hp hc)).refers

theorem local_prim (p : Prim) : Local (.prim p) := local_intro trivial rfl fun u hu => by
  cases hu with
  | part hu => cases hu

theorem local_str (x : String) : Local (.str x) := local_intro (by simp [CanonicalHead, NormalHead]) rfl fun u hu => by
  cases hu with
  | part hu => cases hu

theorem local_union {ts : List Ty} (hts : unionOf ts = .union ts) (h : ∀ t ∈ ts, t.Local) :
    Local (.union ts) := local_intro hts rfl fun u hu => by
  cases hu with
  | part hu =>
      cases hu with
      | union hu => exact h u hu

theorem local_object {o : Object} (hnames : o.names.Nodup) (hmembers : ∀ m ∈ o.members, m.type.Local)
    (hindex : ∀ i, o.index = some i → i.key.Local ∧ i.value.Local) : Local (.object o) :=
  local_intro hnames rfl fun u hu => by
    cases hu with
    | part hu =>
        cases hu with
        | member hm hu => exact hu ▸ hmembers _ hm
        | key hi hu => exact hu ▸ (hindex _ hi).1
        | value hi hu => exact hu ▸ (hindex _ hi).2

theorem fits_self (ht : t.Local) : Fits t t :=
  fits_of_early (Rules.early?_of_equal ht.canonical.equal_self)

/-- The members of a union in normal form. -/
theorem Local.unionList {ts : List Ty} (h : Local (.union ts)) : UnionList ts ∧ 2 ≤ ts.length :=
  unionOf_eq_union_iff.1 h.canonical.head

/-- A type whose members make a normal list has `nil` added at the end. -/
theorem Local.nullable_eq (ht : t.Local) (hunknown : t.isUnknown = false) (hnever : t.isNever = false) :
    t.nullable = if t.hasNil then t else .union (t.members ++ [.nil]) := by
  have hlist : UnionList t.members ∧ ofMembers t.members = t ∧ t.members ≠ [] := by
    cases hunion : t.isUnion with
    | true =>
        cases t with
        | union ts =>
            obtain ⟨hlist, hlen⟩ := ht.unionList
            exact ⟨hlist, ofMembers_eq_union hlen, fun h => by rw [show ts = [] from h] at hlen; cases hlen⟩
        | _ => cases hunion
    | false =>
        rw [members_of_not_isUnion hunion]
        exact ⟨.singleton hunion hunknown hnever, rfl, by simp⟩
  obtain ⟨hlist, hself, hne⟩ := hlist
  rw [nullable_eq_of_unionList hlist hself, ofMembers_eq_union]
  have := List.length_pos_of_ne_nil hne
  simp only [List.length_append, List.length_singleton]
  omega

end Ty

/-! ### Adding and taking off `nil` -/

section Nullable

variable {h : ℕ} {s d : Ty}

theorem isNamed_nullable (t : Ty) : t.nullable.isNamed = false := by
  rcases t.nullable_cases with hcase | hcase | ⟨ts, -, hcase⟩ <;> rw [hcase] <;> rfl

theorem isNever_nullable (t : Ty) : t.nullable.isNever = false := by
  rcases t.nullable_cases with hcase | hcase | ⟨ts, -, hcase⟩ <;> rw [hcase] <;> rfl

/-- Only `unknown` and `never` itself fit `never`. -/
theorem cases_of_fits_never (hs : Low h s) (hfits : Fits s .never) : s = .unknown ∨ s = .never := by
  rw [fits_iff_of_low hs (low_prim (h := 0) .never)] at hfits
  cases hearly : Rules.early? {} s .never with
  | some b =>
      rw [hearly] at hfits
      subst hfits
      rcases cases_of_early hearly with hhead | hhead | hhead | heq
      · cases hhead
      · exact Or.inl hhead
      · exact Or.inr hhead
      · have hhead := equal_prim_right_iff.1 heq
        refine Or.inr ?_
        cases s <;> first | exact hhead | cases hhead
  | none =>
      -- nothing but these two is compared with `never` further
      unfold Rules.early? at hearly
      split at hearly <;> cases hearly

theorem fits_of_unknown_or_never (hs : s = .unknown ∨ s = .never) : Fits s d := by
  rcases hs with rfl | rfl
  · exact fits_of_early (by simp [Rules.early?, show isUnknown .unknown = true from rfl])
  · exact fits_of_early (by simp [Rules.early?, show isNever .never = true from rfl])

/-- What is no union and fits a type fits it with `nil` added. -/
theorem Fits.nullable (hs : Low h s) (hsn : s.isNamed = false) (hunion : s.isUnion = false) (hd : d.Local)
    (hfits : Fits s d) : Fits s d.nullable := by
  obtain rfl | rfl | ⟨hunknown, hnever⟩ := d.unknown_or_never_or
  · exact fits_unknown s
  · exact fits_of_unknown_or_never (cases_of_fits_never hs hfits)
  · obtain ⟨k, hk, -⟩ := exists_low_nullable hd.low
    rw [hd.nullable_eq hunknown hnever] at hk ⊢
    split at hk
    · rename_i hnil
      rwa [if_pos hnil]
    · rename_i hnil
      rw [if_neg hnil]
      cases hd' : d.isUnion with
      | false =>
          rw [members_of_not_isUnion hd'] at hk ⊢
          exact fits_union_of_member hs hk hsn rfl rfl hunion ⟨d, by simp, hfits⟩
      | true =>
          cases d with
          | union ds =>
              have hwide : ∀ {t : Ty} {j : ℕ}, Low j t → t.isNamed = false → t.isUnion = false →
                  (∃ m ∈ ds, Fits t m) → Fits t (.union (ds ++ [.nil])) :=
                fun ht htn htu ⟨m, hm, hfits⟩ => fits_union_of_member ht hk htn rfl rfl htu
                  ⟨m, List.mem_append_left _ hm, hfits⟩
              rcases fits_union_cases hs hd.low rfl hunion hfits with rfl | rfl | hmember | ⟨hboolean, hvalues⟩
              · exact fits_of_unknown_or_never (Or.inl rfl)
              · exact fits_of_unknown_or_never (Or.inr rfl)
              · exact hwide hs hsn hunion hmember
              · -- both truth values fit members
                have hvalue : ∀ b, Fits (.bool b) (.union (ds ++ [.nil])) := by
                  intro b
                  rcases fits_union_cases (low_lit (h := 0) (.bool b)) hd.low rfl rfl (hvalues b) with
                    hhead | hhead | hmember | ⟨hhead, -⟩
                  · cases hhead
                  · cases hhead
                  · exact hwide (low_lit (h := 0) (.bool b)) rfl rfl hmember
                  · cases hhead
                refine fits_of_openGoal hs hk hsn rfl rfl ?_
                rw [hboolean]
                exact Or.inr ⟨hvalue true, hvalue false⟩
          | _ => cases hd'

/-- Where two types are equal, every member of the first has an equal one in the second, in the direction
of the comparison. -/
def Memberwise (s d : Ty) : Prop := s.equal d = true → ∀ x ∈ s.members, ∃ y ∈ d.members, x.equal y = true

theorem memberwise_self (hs : s.Local) : Memberwise s s := fun _ x hx =>
  ⟨x, hx, (hs.of_mem_members hx).canonical.equal_self⟩

/-- Only unions are compared member by member. -/
theorem memberwise_of_not_isUnion (hs : s.isUnion = false) : Memberwise s d := fun heq x hx => by
  rw [members_of_not_isUnion hs, List.mem_singleton] at hx
  have hd : d.isUnion = false := by
    cases d with
    | union ds => rw [← hs, isUnion_of_equal_union heq]; rfl
    | _ => rfl
  exact ⟨d, by simp [members_of_not_isUnion hd], hx ▸ heq⟩

/-- Without generic signatures all types are equal member by member. -/
theorem memberwise_of_wellFormed (hs : s.WellFormed) (hd : d.WellFormed) : Memberwise s d := fun heq x hx => by
  have hmember : ∀ {t m : Ty}, t.WellFormed → m ∈ t.members → m.WellFormed := by
    intro t m ht hm
    cases t with
    | union ts => exact ht.part (.union hm)
    | _ => rwa [List.mem_singleton.1 hm]
  obtain ⟨y, hy, hyx⟩ := counterpart_of_equal hs hd heq x hx
  exact ⟨y, hy, equivOn_wellFormed.symm (hmember hd hy) (hmember hs hx) hyx⟩

/-- Every member of a union fits where the union does. -/
theorem fits_member_of_fits {ss : List Ty} (hs : Local (.union ss)) (hd : d.Local)
    (hback : Memberwise (.union ss) d) (hfits : Fits (.union ss) d) {x : Ty} (hx : x ∈ ss) : Fits x d := by
  have hxl : x.Local := hs.part (.union hx)
  have hxu := hs.unionList.1.isUnion x hx
  rw [fits_iff_of_low hs.low hd.low] at hfits
  cases hearly : Rules.early? {} (.union ss) d with
  | some b =>
      rw [hearly] at hfits
      subst hfits
      rcases cases_of_early hearly with rfl | hhead | hhead | heq
      · exact fits_unknown x
      · cases hhead
      · cases hhead
      · obtain ⟨ds, hds⟩ := exists_union_of_equal heq
        obtain rfl : d = .union ds := by cases d <;> first | exact hds | cases hds
        obtain ⟨y, hy, heq⟩ := hback heq x hx
        exact fits_union_of_member hxl.low hd.low hxl.isNamed rfl rfl hxu
          ⟨y, hy, fits_of_early (Rules.early?_of_equal heq)⟩
  | none =>
      rw [hearly] at hfits
      have hall := (Goal.holds_all _).1 hfits.2
      exact (fits_predToBoolean_right_iff hxl.low hd.low).1 (hall _ (List.mem_map_of_mem hx))

/-- A type fits another, and where it is a union its members do. -/
structure Suits (s d : Ty) : Prop where
  isNamed : s.isNamed = false
  members : s.isUnion = true → s.Local ∧ Memberwise s d
  fits : Fits s d

theorem suits_self (hs : s.Local) : Suits s s where
  isNamed := hs.isNamed
  members _ := ⟨hs, memberwise_self hs⟩
  fits := fits_self hs

theorem suits_never (d : Ty) : Suits .never d where
  isNamed := rfl
  members hunion := nomatch hunion
  fits := fits_of_unknown_or_never (Or.inr rfl)

/-- **What suits a type fits it with `nil` added, after its own `nil` is taken off**: so optional members
are compared. -/
theorem Suits.removeNil_nullable (hs : Low h s) (hd : d.Local) (hsuits : Suits s d) :
    Fits s.removeNil d.nullable := by
  cases hunion : s.isUnion with
  | false =>
      rw [removeNil_of_not_isUnion hunion]
      split
      · exact fits_of_unknown_or_never (Or.inr rfl)
      · exact hsuits.fits.nullable hs hsuits.isNamed hunion hd
  | true =>
      obtain ⟨hl, hback⟩ := hsuits.members hunion
      cases s with
      | union ss =>
          have hkept : UnionList (ss.filter fun m => !m.isNil) := hl.unionList.1.sublist List.filter_sublist
          have hrest : removeNil (.union ss) = ofMembers (ss.filter fun m => !m.isNil) :=
            unionOf_eq_ofMembers hkept
          have hmembers : ∀ x ∈ ss.filter fun m => !m.isNil, Fits x d.nullable := fun x hx =>
            have hx := List.mem_of_mem_filter hx
            have hxl : x.Local := hl.part (.union hx)
            (fits_member_of_fits hl hd hback hsuits.fits hx).nullable hxl.low hxl.isNamed
              (hl.unionList.1.isUnion x hx) hd
          have hlow := low_removeNil hs
          rw [hrest] at hlow ⊢
          generalize ss.filter (fun m => !m.isNil) = us at hlow hmembers
          match us with
          | [] => exact fits_of_unknown_or_never (Or.inr rfl)
          | [u] => exact hmembers u (.head _)
          | u :: v :: us =>
              obtain ⟨k, hk, -⟩ := exists_low_nullable hd.low
              exact fits_of_members hlow hk rfl (isNamed_nullable d) rfl (isNever_nullable d) hmembers
      | _ => cases hunion

end Nullable

/-! ### Records -/

section Records

variable {h : ℕ} {o p q : Object}

/-- A member does what a wanted one asks. -/
structure Serves (own want : Member) : Prop where
  optional : own.optional = true → want.optional = true
  suits : Suits own.type want.type

/-- A record fits another if its members serve, and those beyond fit the index signature. -/
theorem fits_object (hs : Low h (.object q)) (hd : Local (.object o))
    (hmembers : ∀ want ∈ o.members, ∃ own, q.find? want.name = some own ∧ Serves own want)
    (hextra : ∀ i, o.index = some i → ∀ m ∈ q.members, o.find? m.name = none →
      Fits (.str m.name) i.key ∧ Fits m.type i.value)
    (hvalue : ∀ i j, o.index = some i → q.index = some j → Fits j.value i.value) :
    Fits (.object q) (.object o) := by
  obtain ⟨h, rfl⟩ := hs.exists_succ
  refine fits_of_openGoal hs hd.low rfl rfl rfl (show (objectGoal q o).Holds Fits from ⟨?_, ?_⟩)
  · refine (Goal.holds_all _).2 (List.forall_mem_map.2 fun want hwant => ?_)
    obtain ⟨own, hown, hserves⟩ := hmembers want hwant
    have hlow : Low h own.type := hs.child rfl (.part (.member (ObjectOf.mem_of_find? hown).1 rfl))
    unfold memberGoal
    rw [hown]
    simp only
    split
    · rename_i hoptional
      rw [Bool.and_eq_true, Bool.not_eq_true'] at hoptional
      rw [hserves.optional hoptional.1] at hoptional
      cases hoptional.2
    · split
      · exact hserves.suits.removeNil_nullable hlow (hd.part (.member hwant rfl))
      · exact hserves.suits.fits
  · unfold indexGoal
    cases hi : o.index with
    | none => rfl
    | some i =>
        refine ⟨(Goal.holds_all _).2 (List.forall_mem_map.2 fun m hm => ?_), ?_⟩
        · unfold extraGoal
          split
          · rfl
          · rename_i hnone
            exact hextra i hi m hm (Option.not_isSome_iff_eq_none.1 hnone)
        · cases hj : q.index with
          | none => rfl
          | some j => exact hvalue i j hi hj

/-- The members that one record has and the other has not fit the index signature of the other, and the
value of the first index signature fits that of the second. -/
structure IndexesMeet (o p : Object) : Prop where
  left : ∀ i, o.index = some i → ∀ n ∈ p.members, o.find? n.name = none →
    Fits (.str n.name) i.key ∧ Fits n.type i.value
  right : ∀ j, p.index = some j → ∀ m ∈ o.members, p.find? m.name = none →
    Fits (.str m.name) j.key ∧ Fits m.type j.value
  values : ∀ i j, o.index = some i → p.index = some j → Fits i.value j.value

/-- **A merged record fits both records.** -/
theorem fits_meetObject (hq : Low h (.object (meetObject o p))) (ho : Local (.object o))
    (hp : Local (.object p)) (hindexes : IndexesMeet o p)
    (hmet : ∀ m ∈ o.members, ∀ n ∈ p.members, m.name = n.name →
      Suits (interOf [m.type, n.type]) m.type ∧ Suits (interOf [m.type, n.type]) n.type) :
    Fits (.object (meetObject o p)) (.object o) ∧ Fits (.object (meetObject o p)) (.object p) := by
  have hol : o.names.Nodup := ho.canonical.head
  have hpl : p.names.Nodup := hp.canonical.head
  have hfind := find?_mergeObject (fun a b => interOf [a, b]) (o := o) hpl
  have hfound : ∀ m ∈ (meetObject o p).members, (meetObject o p).find? m.name = some m := fun m hm =>
    ObjectOf.find?_of_mem (nodup_mergeObject _ hol p) hm
  have hindex : (meetObject o p).index = o.index.or p.index := index_mergeObject _ o p
  constructor
  · refine fits_object hq ho (fun want hwant => ?_) (fun i hi m hm hnone => ?_) fun i j hi hj => ?_
    · have hown : o.find? want.name = some want := ObjectOf.find?_of_mem hol hwant
      rw [meetObject, hfind, hown]
      cases hother : p.find? want.name with
      | none => exact ⟨want, rfl, id, suits_self (ho.part (.member hwant rfl))⟩
      | some n =>
          obtain ⟨hn, hname⟩ := ObjectOf.mem_of_find? hother
          refine ⟨_, rfl, fun hoptional => ?_, (hmet want hwant n hn hname.symm).1⟩
          exact (Bool.and_eq_true _ _ ▸ hoptional : _ ∧ _).1
    · have hm' := hfound m hm
      rw [meetObject, hfind, hnone] at hm'
      exact hindexes.left i hi m (ObjectOf.mem_of_find? hm').1 hnone
    · rw [hindex, hi] at hj
      cases hj
      exact fits_self (ho.part (.value hi rfl))
  · refine fits_object hq hp (fun want hwant => ?_) (fun j hj m hm hnone => ?_) fun j i hj hi => ?_
    · have hown : p.find? want.name = some want := ObjectOf.find?_of_mem hpl hwant
      rw [meetObject, hfind, hown]
      cases hother : o.find? want.name with
      | none => exact ⟨want, rfl, id, suits_self (hp.part (.member hwant rfl))⟩
      | some n =>
          obtain ⟨hn, hname⟩ := ObjectOf.mem_of_find? hother
          refine ⟨_, rfl, fun hoptional => ?_, (hmet n hn want hwant hname).2⟩
          exact (Bool.and_eq_true _ _ ▸ hoptional : _ ∧ _).2
    · have hm' := hfound m hm
      rw [meetObject, hfind, hnone] at hm'
      refine hindexes.right j hj m (ObjectOf.mem_of_find? (?_ : o.find? m.name = some m)).1 hnone
      cases hother : o.find? m.name <;> rw [hother] at hm' <;> exact hm'
    · rw [hindex] at hi
      cases hoi : o.index with
      | none =>
          rw [hoi, Option.none_or, hj] at hi
          cases hi
          exact fits_self (hp.part (.value hj rfl))
      | some k =>
          rw [hoi, Option.some_or] at hi
          cases hi
          exact hindexes.values _ _ hoi hj

end Records

/-! ### Several parts -/

/-- How an intersection of several parts fits a type: a union is taken apart first and then an
intersection, and what is left is fitted by one part alone. -/
inductive Selects (ks : List Ty) : Ty → Prop
  | part {t k : Ty} : t.isUnion = false → t.isInter = false → t.isNever = false → k ∈ ks → Fits k t →
      Selects ks t
  | union {ts : List Ty} {t : Ty} : t ∈ ts → Selects ks t → Selects ks (.union ts)
  | inter {ts : List Ty} : (∀ t ∈ ts, Selects ks t) → Selects ks (.inter ts)

/-- An intersection fits what its parts are selected for. -/
theorem fits_of_selects {h : ℕ} {ks : List Ty} {t : Ty} (hks : Low h (.inter ks)) (ht : t.Local)
    (hselects : Selects ks t) : Fits (.inter ks) t := by
  induction hselects with
  | part hunion hinter hnever hk hfits =>
      exact fits_of_part hks ht.low rfl ht.isNamed rfl hunion hinter hnever ⟨_, hk, hfits⟩
  | union hmem _ ih =>
      exact fits_union_of_member hks ht.low rfl rfl rfl rfl ⟨_, hmem, ih (ht.part (.union hmem))⟩
  | inter _ ih =>
      exact fits_inter_of_parts hks ht.low rfl rfl rfl rfl fun u hu => ih u hu (ht.part (.inter hu))

/-- An intersection of several parts fits a union only by one of the members, even where one of its parts
fits the union. -/
theorem fits_inter_union_iff {h : ℕ} {ks ts : List Ty} (hks : Low h (.inter ks)) (hts : Local (.union ts)) :
    Fits (.inter ks) (.union ts) ↔ ∃ t ∈ ts, Fits (.inter ks) t := by
  refine ⟨fun hfits => ?_, fits_union_of_member hks hts.low rfl rfl rfl rfl⟩
  rcases fits_union_cases hks hts.low rfl rfl hfits with hhead | hhead | hmember | ⟨hhead, -⟩
  · cases hhead
  · cases hhead
  · exact hmember
  · cases hhead

/-- The parts of two types are met so that the comparison sees it: nothing is left, or
* equal unions among the parts are equal member by member,
* where several parts are left, each union among them has a member that they fit,
* of two records the index signatures meet, and
* the members of one name are met in turn. -/
inductive Meets : Ty → Ty → Prop
  | never {a b : Ty} : (a.parts ++ b.parts).any Ty.isNever = true → Meets a b
  | parts {a b : Ty} (memberwise : ∀ u ∈ a.parts ++ b.parts, ∀ v ∈ a.parts ++ b.parts, Memberwise u v)
      (unions : ∀ ts, .union ts ∈ a.parts ++ b.parts → 2 ≤ (meetParts a b).length →
        Selects (meetParts a b) (.union ts))
      (indexes : ∀ o p, .object o ∈ a.parts → .object p ∈ b.parts → IndexesMeet o p)
      (members : ∀ o p, .object o ∈ a.parts → .object p ∈ b.parts →
        ∀ m ∈ o.members, ∀ n ∈ p.members, m.name = n.name → Meets m.type n.type) : Meets a b

section Parts

variable {a b : Ty} (ha : a.Local) (hb : b.Local)

include ha hb

theorem local_of_mem_parts {t : Ty} (ht : t ∈ a.parts ++ b.parts) : t.Local :=
  (List.mem_append.1 ht).elim ha.of_mem_parts hb.of_mem_parts

theorem low_interOf_pair : ∃ h, Low h (interOf [a, b]) := by
  obtain ⟨h, hh⟩ := (ha.low.mono (le_max_left a.size b.size)).exists_succ
  have hpair : ∀ t ∈ [a, b], Low (h + 1) t := by
    simp only [List.mem_cons, List.not_mem_nil, or_false, forall_eq_or_imp, forall_eq]
    rw [← hh]
    exact ⟨ha.low.mono (le_max_left _ _), hb.low.mono (le_max_right _ _)⟩
  exact ⟨h + 1, low_interWith_size equal hpair⟩

variable (hrecords : ∀ o p, .object o ∈ a.parts → .object p ∈ b.parts →
  Fits (.object (meetObject o p)) (.object o) ∧ Fits (.object (meetObject o p)) (.object p))

include hrecords

/-- **A part of the intersection fits each part** of the two types, if the record does. -/
theorem exists_meetPart_fits {t : Ty} (ht : t ∈ a.parts ++ b.parts) (hunknown : t.isUnknown = false) :
    ∃ k ∈ meetParts a b, Fits k t := by
  cases hobject : t.isObject with
  | false =>
      obtain ⟨k, hk, heq⟩ := exists_meetPart ht hobject hunknown
      refine ⟨k, hk, ?_⟩
      rcases heq with rfl | heq
      · exact fits_self (local_of_mem_parts ha hb ht)
      · exact fits_of_early (Rules.early?_of_equal heq)
  | true =>
      cases t with
      | object o =>
          obtain ⟨q, hq, hcase⟩ := exists_meetRecord ha.canonical hb.canonical ht
          refine ⟨.object q, hq, ?_⟩
          rcases hcase with rfl | ⟨p, ho, hp, rfl⟩ | ⟨p, hp, ho, rfl⟩
          · exact fits_self (local_of_mem_parts ha hb ht)
          · exact (hrecords o p ho hp).1
          · exact (hrecords p o hp ho).2
      | _ => cases hobject

variable (hnever : ∀ t ∈ a.parts ++ b.parts, t.isNever = false)
  (hmemberwise : ∀ u ∈ a.parts ++ b.parts, ∀ v ∈ a.parts ++ b.parts, Memberwise u v)
  (hunions : ∀ ts, .union ts ∈ a.parts ++ b.parts → 2 ≤ (meetParts a b).length →
    Selects (meetParts a b) (.union ts))

include hnever hunions

/-- The intersection fits each part. -/
theorem fits_part_of_meets {h : ℕ} (hlow : Low h (ofParts (meetParts a b))) {t : Ty}
    (ht : t ∈ a.parts ++ b.parts) (hinter : t.isInter = false) : Fits (ofParts (meetParts a b)) t := by
  cases hunknown : t.isUnknown with
  | true =>
      rw [isUnknown_iff.1 hunknown]
      exact fits_unknown _
  | false =>
      have htl := local_of_mem_parts ha hb ht
      obtain ⟨k, hk, hfits⟩ := exists_meetPart_fits ha hb hrecords ht hunknown
      have hselects : 2 ≤ (meetParts a b).length → Selects (meetParts a b) t := by
        intro hlen
        cases hunion : t.isUnion with
        | false => exact .part hunion hinter (hnever t ht) hk hfits
        | true => cases t <;> first | exact hunions _ ht hlen | cases hunion
      generalize meetParts a b = ks at hlow hk hselects
      match ks, hlow, hk, hselects with
      | [u], _, hk, _ => rwa [← List.mem_singleton.1 hk]
      | u :: v :: us, hlow, _, hselects => exact fits_of_selects hlow htl (hselects (by simp))

include hmemberwise

/-- The intersection suits what is made of the parts. -/
theorem suits_of_meets {h : ℕ} (hlow : Low h (ofParts (meetParts a b))) {c : Ty} (hc : c.Local)
    (hparts : ∀ t ∈ c.parts, t ∈ a.parts ++ b.parts) : Suits (ofParts (meetParts a b)) c := by
  have hfits : ∀ t ∈ c.parts, Fits (ofParts (meetParts a b)) t := fun t ht =>
    fits_part_of_meets ha hb hrecords hnever hunions hlow (hparts t ht) (hc.low.of_mem_parts ht).2
  -- the intersection is a union only if that is the one part left
  have halone : (ofParts (meetParts a b)).isUnion = true → ofParts (meetParts a b) ∈ a.parts ++ b.parts := by
    rcases ofParts_meetParts_cases a b with hcase | hcase | ⟨q, hcase⟩ | hcase
    · simp [hcase, isUnion]
    · simp [hcase, isUnion]
    · simp [hcase, isUnion]
    · exact fun _ => hcase
  have hnamed : (ofParts (meetParts a b)).isNamed = false := by
    rcases ofParts_meetParts_cases a b with hcase | hcase | ⟨q, hcase⟩ | hcase
    · rw [hcase]
      rfl
    · rw [hcase]
      rfl
    · rw [hcase]
      rfl
    · exact (local_of_mem_parts ha hb hcase).isNamed
  generalize ofParts (meetParts a b) = p at hlow hfits halone hnamed
  refine ⟨hnamed, fun hunion => ⟨local_of_mem_parts ha hb (halone hunion), ?_⟩, ?_⟩
  · cases hinter : c.isInter with
    | false =>
        refine hmemberwise p (halone hunion) c (hparts c ?_)
        cases c <;> first | exact .head _ | cases hinter
    | true =>
        -- a union is equal to no intersection
        intro heq
        cases p with
        | union ss =>
            obtain ⟨ds, rfl⟩ := exists_union_of_equal heq
            cases hinter
        | _ => cases hunion
  · cases c with
    | inter ts =>
        cases hunion : p.isUnion with
        | false => exact fits_inter_of_parts hlow hc.low hnamed rfl rfl hunion hfits
        | true =>
            have hpart := halone hunion
            have hp := local_of_mem_parts ha hb hpart
            cases p with
            | union ss =>
                -- each member of the union fits every part
                refine fits_of_members hlow hc.low rfl rfl rfl rfl fun x hx => ?_
                have hxl : x.Local := hp.part (.union hx)
                refine fits_inter_of_parts hxl.low hc.low hxl.isNamed rfl rfl
                  (hp.unionList.1.isUnion x hx) fun t ht => ?_
                exact fits_member_of_fits hp (hc.part (.inter ht)) (hmemberwise _ hpart t (hparts t ht))
                  (hfits t ht) hx
            | _ => cases hunion
    | _ => exact hfits _ (.head _)

end Parts

/-- **An intersection suits both of its parts**, where they are met so that the comparison sees it. -/
theorem suits_interOf {a b : Ty} (hmeets : Meets a b) :
    a.Local → b.Local → Suits (interOf [a, b]) a ∧ Suits (interOf [a, b]) b := by
  have habsorbed : ∀ {a b : Ty}, a.Local → b.Local → (a.parts ++ b.parts).any Ty.isNever = true →
      Suits (interOf [a, b]) a ∧ Suits (interOf [a, b]) b := by
    intro a b ha hb hnever
    rw [interOf_pair ha.canonical hb.canonical, if_pos hnever]
    exact ⟨suits_never a, suits_never b⟩
  induction hmeets with
  | never hnever => exact fun ha hb => habsorbed ha hb hnever
  | @parts a b hmemberwise hunions hindexes _ ih =>
      intro ha hb
      by_cases hnever : (a.parts ++ b.parts).any Ty.isNever = true
      · exact habsorbed ha hb hnever
      · have hrecords : ∀ o p, .object o ∈ a.parts → .object p ∈ b.parts →
            Fits (.object (meetObject o p)) (.object o) ∧ Fits (.object (meetObject o p)) (.object p) := by
          intro o p ho hp
          have hol := ha.of_mem_parts ho
          have hpl := hb.of_mem_parts hp
          obtain ⟨h, hlow⟩ := low_interOf_pair hol hpl
          refine fits_meetObject (h := h) ?_ hol hpl (hindexes o p ho hp) fun m hm n hn hname =>
            ih o p ho hp m hm n hn hname (hol.part (.member hm rfl)) (hpl.part (.member hn rfl))
          rwa [interOf_pair hol.canonical hpl.canonical] at hlow
        obtain ⟨h, hlow⟩ := low_interOf_pair ha hb
        rw [interOf_pair ha.canonical hb.canonical, if_neg hnever] at hlow ⊢
        have hall : ∀ t ∈ a.parts ++ b.parts, t.isNever = false := fun t ht => by
          cases ht' : t.isNever with
          | false => rfl
          | true => exact absurd (List.any_eq_true.2 ⟨t, ht, ht'⟩) hnever
        have hsuits : ∀ {c : Ty}, c.Local → (∀ t ∈ c.parts, t ∈ a.parts ++ b.parts) →
            Suits (ofParts (meetParts a b)) c := fun hc hparts =>
          suits_of_meets ha hb hrecords hall hmemberwise hunions hlow hc hparts
        exact ⟨hsuits ha fun t ht => List.mem_append_left _ ht,
          hsuits hb fun t ht => List.mem_append_right _ ht⟩

/-- **An intersection is assignable to both of its parts**, where they are met so that the comparison sees
it. -/
theorem isAssignable_interOf {a b : Ty} (ha : a.Local) (hb : b.Local) (hmeets : Meets a b) :
    isAssignable none (interOf [a, b]) a = .ok true ∧ isAssignable none (interOf [a, b]) b = .ok true :=
  ⟨(suits_interOf hmeets ha hb).1.fits, (suits_interOf hmeets ha hb).2.fits⟩

/-- Numbers by name, one of them known by a text or a number. -/
def register : Object :=
  { members := [{ name := "id", type := .union [.string, .number] }]
    index := some { key := .string, value := .number } }

/-- An entry that is known by a text. -/
def entry : Object :=
  { members := [{ name := "id", type := .str "x" }, { name := "count", type := .integer }] }

theorem local_register : Local (.object register) := by
  refine local_object (by simp [register, ObjectOf.names]) (fun m hm => ?_) fun i hi => ?_
  · rw [List.mem_singleton.1 hm]
    exact local_union rfl (by simp [local_prim])
  · cases hi
    exact ⟨local_prim _, local_prim _⟩

theorem local_entry : Local (.object entry) := by
  refine local_object (by simp [entry, ObjectOf.names]) (fun m hm => ?_) fun i hi => nomatch hi
  rcases List.mem_pair.1 hm with rfl | rfl
  · exact local_str "x"
  · exact local_prim _

/-- Texts and numbers are met with a constant, which fits one of the two. -/
theorem meets_id : Meets (.union [.string, .number]) (.str "x") := by
  refine .parts ?_ ?_ (fun o p ho => ?_) fun o p ho => ?_
  · have hwell : ∀ u ∈ (Ty.union [.string, .number]).parts ++ (Ty.str "x").parts, u.WellFormed := by
      intro u hu
      rcases List.mem_pair.1 hu with rfl | rfl
      · exact .union (List.pairwise_pair.2 rfl) (by simp [WellFormed.prim])
      · exact (normal_str "x").wellFormed
    exact fun u hu v hv => memberwise_of_wellFormed (hwell u hu) (hwell v hv)
  · intro ts hts _
    rcases List.mem_pair.1 hts with h | h
    · obtain rfl : ts = [.string, .number] := by injection h
      exact .union (.head _) (.part (k := .str "x") rfl rfl rfl (.tail _ (.head _)) rfl)
    · cases h
  · cases List.mem_singleton.1 ho
  · cases List.mem_singleton.1 ho

theorem meets_register : Meets (.object register) (.object entry) := by
  refine .parts (fun u hu v _ => ?_) (fun ts hts => ?_) (fun o p ho hp => ?_) fun o p ho hp => ?_
  · rcases List.mem_pair.1 hu with rfl | rfl <;> exact memberwise_of_not_isUnion rfl
  · rcases List.mem_pair.1 hts with h | h <;> cases h
  · cases List.mem_singleton.1 ho
    cases List.mem_singleton.1 hp
    refine ⟨fun i hi n hn hnone => ?_, fun j hj => (nomatch hj), fun i j _ hj => nomatch hj⟩
    cases hi
    rcases List.mem_pair.1 hn with rfl | rfl
    · cases hnone
    · exact ⟨rfl, rfl⟩
  · cases List.mem_singleton.1 ho
    cases List.mem_singleton.1 hp
    intro m hm n hn hname
    rw [List.mem_singleton.1 hm] at hname ⊢
    rcases List.mem_pair.1 hn with rfl | rfl
    · exact meets_id
    · simp at hname

theorem isAssignable_interOf_register :
    isAssignable none (interOf [.object register, .object entry]) (.object register) = .ok true ∧
      isAssignable none (interOf [.object register, .object entry]) (.object entry) = .ok true :=
  isAssignable_interOf local_register local_entry meets_register

/-- A thing that is known by a text or by a number. -/
def keyed : Ty :=
  .union [.object { members := [{ name := "id", type := .string }] },
    .object { members := [{ name := "id", type := .number }] }]

def named : Ty := .object { members := [{ name := "name", type := .string }] }

/-- An intersection fits a union by one of its members only, so a union is not met by another part that says
nothing about the choice. -/
theorem not_isAssignable_interOf_keyed :
    keyed.Local ∧ named.Local ∧ isAssignable none (interOf [keyed, named]) keyed = .ok false := by
  have hrecord : ∀ x p, Local (.object { members := [{ name := x, type := .prim p }] }) := fun x p =>
    local_object (by simp [ObjectOf.names]) (by simp [local_prim]) fun i hi => nomatch hi
  exact ⟨local_union rfl (by simp [hrecord]), hrecord _ _, rfl⟩

end TreeCheck
