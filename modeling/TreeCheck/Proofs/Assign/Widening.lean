import TreeCheck.Proofs.Assign.Unions

/-!
# Fitting lists, tuples and records, and widening

What fits a list, a tuple or a record is known by its head.  Replacing constants by their built-in types,
inside unions and tuples too, only lets more types fit.

* `fits_iff_forall_members` — a source, member by member;
* `fits_array_iff`, `fits_tuple_iff`, `fits_record_iff` — what fits a list, a tuple and a record;
* `Ty.regular_widen`, `fits_widen` — what fits a type fits the widened type.
-/

namespace TreeCheck

open Ty

variable {s d : Ty}

/-! ### By heads -/

/-- A type fits where all of its members do. -/
theorem fits_iff_forall_members (hs : s.Nameless) (hd : d.Nameless) :
    Fits s d ↔ ∀ m ∈ s.members, Fits m d := by
  rw [fits_iff_members hs hd]
  exact forall₂_congr fun m hm =>
    (fits_left_members (hs.of_mem_members hm) (isUnion_of_mem_members hs.normal hm) hd).symm

def Ty.isComposite : Ty → Bool
  | .array _ => true
  | .tuple _ => true
  | .object _ => true
  | _ => false

/-- No constant and no variable is equal to a list, a tuple or a record, or fits one. -/
theorem fits_composite_of_firm (hs : s.Nameless) (hd : d.Nameless) (hfirm : s.Firm) (hunion : s.isUnion = false)
    (hcomposite : d.isComposite = true) : Fits s d ↔ (structuralGoal false none s d).Holds Fits := by
  have hdf : d.Firm := by cases d <;> first | exact ⟨rfl, rfl, rfl⟩ | cases hcomposite
  cases hconstant : s.isConstant with
  | false => exact fits_iff_structuralGoal hs hd hfirm hdf hunion hconstant
  | true =>
      rw [fits_structural hs hd hfirm hdf hunion, equal_eq_sameNode hs.normal.wellFormed hd.normal.wellFormed]
      refine or_iff_right_of_imp fun heq => ?_
      cases s with
      | lit l => cases d <;> first | cases heq | cases hcomposite
      | tvar v => cases d <;> first | cases heq | cases hcomposite
      | _ => cases hconstant

/-- What fits a list, a tuple or a record is `unknown` or `never`, or fits it by the rule for the two
heads. -/
theorem fits_composite_iff (hs : s.Nameless) (hd : d.Nameless) (hunion : s.isUnion = false)
    (hcomposite : d.isComposite = true) :
    Fits s d ↔ s = .unknown ∨ s = .never ∨ (structuralGoal false none s d).Holds Fits := by
  obtain rfl | rfl | hfirm := s.unknown_or_never_or_firm
  · simp [fits_unknown_left hs.normal hd.normal rfl]
  · simp [fits_never_left hs.normal hd.normal rfl]
  have hne : ¬ s = .unknown ∧ ¬ s = .never := by
    rw [← not_or]
    rintro (rfl | rfl)
    · cases hfirm.isUnknown
    · cases hfirm.isNever
  rw [or_iff_right hne.1, or_iff_right hne.2, ← fits_predToBoolean_left hs.normal hd.normal,
    fits_composite_of_firm (nameless_predToBoolean hs) hd hfirm (by rwa [isUnion_predToBoolean]) hcomposite]
  cases s with
  | pred x t => cases d <;> first | rfl | cases hcomposite
  | _ => rfl

/-- What fits an array: arrays and tuples of what fits its elements. -/
theorem fits_array_iff {e : Ty} (hs : s.Nameless) (he : e.Nameless) (hunion : s.isUnion = false) :
    Fits s (.array e) ↔ s = .unknown ∨ s = .never ∨ (∃ a, s = .array a ∧ Fits a e) ∨
      ∃ as, s = .tuple as ∧ ∀ a ∈ as, Fits a e := by
  rw [fits_composite_iff hs (regular_array he) hunion rfl]
  refine or_congr_right (or_congr_right ?_)
  cases s with
  | inter ss => exact hs.head.elim
  | _ => simp [structuralGoal]

/-- What fits a tuple: tuples that are no longer, entry by entry. -/
theorem fits_tuple_iff {ds : List Ty} (hs : s.Nameless) (hd : ∀ d ∈ ds, d.Nameless)
    (hunion : s.isUnion = false) :
    Fits s (.tuple ds) ↔ s = .unknown ∨ s = .never ∨ ∃ ss, s = .tuple ss ∧ ss.length ≤ ds.length ∧
      ∀ (i : Nat) (d : Ty), ds[i]? = some d → Fits (ss[i]?.getD .nil) d := by
  rw [fits_composite_iff hs (regular_tuple hd) hunion rfl]
  refine or_congr_right (or_congr_right ?_)
  cases s with
  | inter ss => exact hs.head.elim
  | tuple ss => simp [holds_tuple_iff, holds_tupleGoal_iff]
  | _ => simp [structuralGoal]

/-- What fits a record of required members without an index signature has them all. -/
theorem fits_record_iff {ns : List Member} (hs : s.Nameless) (hd : Nameless (.object { members := ns }))
    (hns : ∀ n ∈ ns, n.optional = false) (hunion : s.isUnion = false) :
    Fits s (.object { members := ns }) ↔ s = .unknown ∨ s = .never ∨ ∃ o, s = .object o ∧
      ∀ n ∈ ns, ∃ m, o.find? n.name = some m ∧ m.optional = false ∧ Fits m.type n.type := by
  rw [fits_composite_iff hs hd hunion rfl]
  refine or_congr_right (or_congr_right ?_)
  cases s with
  | inter ss => exact hs.head.elim
  | object o =>
      simp only [structuralGoal, objectGoal, indexGoal, Goal.holds_both, Goal.holds_all, List.forall_mem_map,
        Goal.holds_answer, and_true, Ty.object.injEq, exists_eq_left']
      refine forall₂_congr fun n hn => ?_
      unfold memberGoal
      cases hfind : o.find? n.name with
      | none => simp [hns n hn]
      | some m => cases hm : m.optional <;> simp [hm, hns n hn]
  | _ => simp [structuralGoal]

/-! ### Widening -/

namespace Ty

theorem widenList_eq_map (ts : List Ty) : widenList ts = ts.map widen := by
  induction ts with
  | nil => rfl
  | cons t ts ih => rw [widenList, ih, List.map_cons]

theorem regular_widen {Q : String → Prop} {t : Ty} (h : Regular Q t) : Regular Q t.widen := by
  induction h with
  | @intro t hnormal hhead hparts ih =>
      cases t with
      | lit l => exact regular_prim _
      | union ts =>
          rw [widen, widenList_eq_map]
          exact regular_unionOf (List.forall_mem_map.2 fun t h => ih t (.union h))
      | tuple ts =>
          rw [widen, widenList_eq_map]
          exact regular_tuple (List.forall_mem_map.2 fun t h => ih t (.tuple h))
      | _ => exact .intro hnormal hhead hparts

end Ty

/-- **What fits a type fits the widened type.** -/
theorem fits_widen (hs : s.Nameless) (hd : d.Nameless) (h : Fits s d) : Fits s d.widen := by
  induction hd generalizing s with
  | @intro d hnormal hhead hparts ih =>
      have hd : d.Nameless := .intro hnormal hhead hparts
      have hwide := regular_widen hd
      rw [fits_iff_forall_members hs hwide]
      rw [fits_iff_forall_members hs hd] at h
      intro m hm
      have hm' := hs.of_mem_members hm
      have hunion := isUnion_of_mem_members hs.normal hm
      cases d with
      | lit l => exact (below_of_wider hd (.lit l)).right hm' (h m hm)
      | union ts =>
          rw [widen, widenList_eq_map]
          obtain ⟨t, ht, hfits⟩ := (fits_union_right hm' hunion hd).1 (h m hm)
          exact fits_unionOf_of_mem (List.forall_mem_map.2 fun t h => regular_widen (hparts t (.union h)))
            (List.mem_map_of_mem ht) hm' (ih t (.union ht) hm' hfits)
      | tuple ts =>
          have hts : ∀ t ∈ ts, t.Nameless := fun t h => hparts t (.tuple h)
          rw [widen, widenList_eq_map, fits_tuple_iff hm' (List.forall_mem_map.2 fun t h => regular_widen (hts t h))
            hunion]
          refine ((fits_tuple_iff hm' hts hunion).1 (h m hm)).imp_right (Or.imp_right ?_)
          rintro ⟨ss, rfl, hlen, hss⟩
          refine ⟨ss, rfl, by simpa using hlen, fun i d hd => ?_⟩
          rw [List.getElem?_map, Option.map_eq_some_iff] at hd
          obtain ⟨t, ht, rfl⟩ := hd
          refine ih t (.tuple (List.mem_of_getElem? ht)) ?_ (hss i t ht)
          cases hi : ss[i]? with
          | none => exact regular_prim _
          | some a => exact hm'.part (.tuple (List.mem_of_getElem? hi))
      | _ => exact h m hm

end TreeCheck
