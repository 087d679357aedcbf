import TreeCheck.Proofs.Assign.Fits

/-!
# Assignability is a preorder on data types

On types made of constants, built-in types, lists, tuples, records and unions the comparison without
definitions is reflexive and transitive.  Unions are compared member by member, so transitivity is left to
types that are no unions; there the head of the type in the middle says which rules were used on its
two sides, and the same rule, or the one for `table`, leads past it.

* `Ty.Data`, `Ty.data_unionOf` — first-order data types, and that built unions are among them;
* `holds_tupleGoal_iff`, `holds_objectGoal_iff` — tuples by position and records by name;
* `holds_structuralGoal_trans` — one step past the type in the middle;
* `fits_trans`, `isPreorder_isAssignable_data` — the preorder.
-/

namespace TreeCheck

open Ty

/-! ### Data types -/

namespace Ty

/-- First-order data types: built-in types other than `unknown`, constants other than `NaN`, lists,
tuples, records of required members with different names, and unions in normal form. -/
inductive Data : Ty → Prop
  | prim {p : Prim} : p ≠ .unknown → Data (.prim p)
  | lit {l : Lit} : l ≠ .num .nan → Data (.lit l)
  | array {e : Ty} : Data e → Data (.array e)
  | tuple {es : List Ty} : (∀ e ∈ es, Data e) → Data (.tuple es)
  | object {ms : List Member} : (ms.map (·.name)).Nodup → (∀ m ∈ ms, m.optional = false) →
      (∀ m ∈ ms, Data m.type) → Data (.object { members := ms })
  | union {ts : List Ty} : unionOf ts = .union ts → (∀ t ∈ ts, Data t) → Data (.union ts)

theorem Data.part {t u : Ty} (h : t.Data) (hu : Part u t) : u.Data := by
  cases h with
  | prim _ | lit _ => cases hu
  | array he =>
      cases hu
      exact he
  | tuple hes =>
      cases hu with
      | tuple hmem => exact hes u hmem
  | object _ _ hms =>
      cases hu with
      | member hm htype => exact htype ▸ hms _ hm
      | key hi => cases hi
      | value hi => cases hi
  | union _ hts =>
      cases hu with
      | union hmem => exact hts u hmem

theorem Data.nameless {t : Ty} (h : t.Data) : t.Nameless := by
  induction h with
  | prim _ => exact regular_prim _
  | lit hl => exact regular_lit hl
  | array _ ih => exact regular_array ih
  | tuple _ ih => exact regular_tuple ih
  | object hnames _ _ ih =>
      refine .intro hnames trivial fun u hu => ?_
      cases hu with
      | member hm htype => exact htype ▸ ih _ hm
      | key hi => cases hi
      | value hi => cases hi
  | union hnormal _ ih =>
      refine .intro hnormal trivial fun u hu => ?_
      cases hu with
      | union hmem => exact ih u hmem

theorem Data.normal {t : Ty} (h : t.Data) : t.Normal := h.nameless.normal

theorem Data.ne_unknown {t : Ty} (h : t.Data) : t ≠ .unknown := by
  rintro rfl
  cases h with
  | prim hp => exact hp rfl

theorem Data.of_mem_members {t m : Ty} (h : t.Data) (hm : m ∈ t.members) : m.Data := by
  cases t with
  | union ts => exact h.part (.union hm)
  | _ => rwa [List.mem_singleton.1 hm]

/-- No data type is a predicate. -/
theorem Data.firm {t : Ty} (h : t.Data) (hnever : t ≠ .never) : t.Firm := by
  refine ⟨?_, ?_, ?_⟩
  · rw [← Bool.not_eq_true, isUnknown_iff]
    exact h.ne_unknown
  · rw [← Bool.not_eq_true, isNever_iff]
    exact hnever
  · cases h <;> rfl

/-- The union of data types is a data type. -/
theorem data_unionOf {ts : List Ty} (h : ∀ t ∈ ts, t.Data) : (unionOf ts).Data := by
  have hnormal : ∀ t ∈ ts, t.Normal := fun t ht => (h t ht).normal
  have hflat := isUnknown_of_mem_flatList hnormal fun hmem => (h _ hmem).ne_unknown rfl
  have hlist := unionList_unionMembers hflat
  have hmembers : ∀ u ∈ unionMembers ts, u.Data := by
    intro u hu
    rcases mem_of_mem_unionMembers hu with hu | rfl
    · obtain ⟨t, ht, hu⟩ := (mem_flatList_iff hnormal).1 hu
      exact (h t ht).of_mem_members hu
    · exact .prim (by simp)
  rw [unionOf_eq_ofMembers_unionMembers hflat]
  generalize unionMembers ts = us at hlist hmembers
  match us with
  | [] => exact .prim (by simp)
  | [u] => exact hmembers u (.head _)
  | u :: v :: vs => exact .union (unionOf_eq_union_iff.2 ⟨hlist, by simp⟩) hmembers

end Ty

/-! ### Formulas by position and by name -/

/-- Tuples by position: what is missing in the source counts as `nil`. -/
theorem holds_tupleGoal_iff {R : Ty → Ty → Prop} {ss ds : List Ty} :
    (tupleGoal ss ds).Holds R ↔
      ss.length ≤ ds.length ∧ ∀ (i : Nat) (d : Ty), ds[i]? = some d → R (ss[i]?.getD .nil) d := by
  induction ds generalizing ss with
  | nil => cases ss <;> simp [tupleGoal]
  | cons d ds ih =>
      -- the first position apart from the others
      have hsplit : ∀ {P : Nat → Ty → Prop}, (∀ (i : Nat) (e : Ty), (d :: ds)[i]? = some e → P i e) ↔
          P 0 d ∧ ∀ (i : Nat) (e : Ty), ds[i]? = some e → P (i + 1) e := by
        intro P
        constructor
        · exact fun h => ⟨h 0 d rfl, fun i e he => h (i + 1) e (by simpa using he)⟩
        · rintro ⟨hzero, hsucc⟩ i e he
          cases i with
          | zero =>
              cases he
              exact hzero
          | succ i => exact hsucc i e (by simpa using he)
      cases ss with
      | nil =>
          rw [tupleGoal, Goal.holds_both, ih, hsplit]
          simp
      | cons s ss =>
          rw [tupleGoal, Goal.holds_both, ih, hsplit]
          simp only [List.length_cons, Nat.add_le_add_iff_right, List.getElem?_cons_zero,
            List.getElem?_cons_succ, Option.getD_some, Goal.holds_ask]
          exact and_left_comm

/-- Records of required members by name: the source has every member of the target. -/
theorem holds_objectGoal_iff {R : Ty → Ty → Prop} {ms ns : List Member}
    (hms : ∀ m ∈ ms, m.optional = false) (hns : ∀ n ∈ ns, n.optional = false) :
    (objectGoal { members := ms } { members := ns }).Holds R ↔
      ∀ n ∈ ns, ∃ m, ObjectOf.find? { members := ms } n.name = some m ∧ R m.type n.type := by
  simp only [objectGoal, indexGoal, Goal.holds_both, Goal.holds_all, List.forall_mem_map,
    Goal.holds_answer, and_true]
  refine forall₂_congr fun n hn => ?_
  unfold memberGoal
  cases hfind : ObjectOf.find? { members := ms } n.name with
  | none => simp [hns n hn]
  | some m =>
      have hm : m.optional = false := hms m (ObjectOf.mem_of_find? hfind).1
      simp [hm, hns n hn]

/-! ### Past the type in the middle -/

/-- What may be used as a built-in type may be used as every wider one. -/
theorem assignToPrim_trans {s : Ty} {p q : Prim} (hs : assignToPrim s p = true)
    (hp : assignToPrim (.prim p) q = true) : assignToPrim s q = true := by
  have hcases : p = q ∨ p = .integer ∧ q = .number ∨ p = .nil ∧ q = .void ∨ p = .void ∧ q = .nil := by
    simp only [assignToPrim, Bool.or_eq_true, Bool.and_eq_true, beq_iff_eq] at hp
    tauto
  rcases hcases with rfl | ⟨rfl, rfl⟩ | ⟨rfl, rfl⟩ | ⟨rfl, rfl⟩
  · exact hs
  · cases s with
    | prim r => cases r <;> first | rfl | cases hs
    | lit l => cases l <;> first | rfl | cases hs
    | _ => cases hs
  all_goals
    cases s with
    | prim r => cases r <;> first | rfl | cases hs
    | _ => cases hs

/-- Tuples are compared by the formula for tuples. -/
theorem holds_tuple_iff {ss ds : List Ty} {R : Ty → Ty → Prop} :
    (structuralGoal false none (.tuple ss) (.tuple ds)).Holds R ↔ (tupleGoal ss ds).Holds R := by
  simp only [structuralGoal]
  split
  · rename_i hlen
    rw [holds_tupleGoal_iff]
    simp only [Goal.holds_answer, Bool.false_eq_true, false_iff, not_and]
    intro
    omega
  · exact Iff.rfl

section Middle

variable {s t u : Ty} (hs : s.Data) (hu : u.Data) (hsu : s.isUnion = false) (huu : u.isUnion = false)
  (hparts : ∀ a b c, Part a s ∨ a = .nil → Part b t → Part c u → Fits a b → Fits b c → Fits a c)
  (hst : (structuralGoal false none s t).Holds Fits)
  (htu : (structuralGoal false none t u).Holds Fits)

include hs hu hsu huu hst htu

/-- The middle type is a built-in type. -/
theorem holds_past_prim {p : Prim} (ht : t = .prim p) :
    (structuralGoal false none s u).Holds Fits := by
  have hprim : ∀ {q : Prim},
      (structuralGoal false none s (.prim q)).Holds Fits ↔ assignToPrim s q = true := by
    intro q
    rw [structuralGoal_prim (by rintro ss rfl; cases hs) (by rintro v rfl; cases hs)]
    exact Iff.rfl
  subst ht
  cases hu with
  | prim _ => exact hprim.2 (assignToPrim_trans (hprim.1 hst) htu)
  | union _ _ => cases huu
  | _ => cases htu

include hparts

/-- The middle type is a list. -/
theorem holds_past_array {e : Ty} (ht : t = .array e) :
    (structuralGoal false none s u).Holds Fits := by
  subst ht
  cases hs with
  | array _ =>
      cases hu with
      | prim _ => exact htu
      | array _ => exact hparts _ _ _ (Or.inl .array) .array .array hst htu
      | union _ _ => cases huu
      | _ => cases htu
  | @tuple ss _ =>
      simp only [structuralGoal, Goal.holds_all, List.forall_mem_map, Goal.holds_ask] at hst
      cases hu with
      | prim _ => exact htu
      | array _ =>
          simp only [structuralGoal, Goal.holds_all, List.forall_mem_map, Goal.holds_ask]
          exact fun a ha => hparts _ _ _ (Or.inl (.tuple ha)) .array .array (hst a ha) htu
      | union _ _ => cases huu
      | _ => cases htu
  | union _ _ => cases hsu
  | _ => cases hst

/-- The middle type is a tuple. -/
theorem holds_past_tuple {ts : List Ty} (ht : t = .tuple ts) :
    (structuralGoal false none s u).Holds Fits := by
  subst ht
  cases hs with
  | @tuple ss _ =>
      rw [holds_tuple_iff, holds_tupleGoal_iff] at hst
      obtain ⟨hlen, hst⟩ := hst
      have hsrc : ∀ i : Nat, Part (ss[i]?.getD .nil) (.tuple ss) ∨ ss[i]?.getD .nil = .nil := by
        intro i
        cases hi : ss[i]? with
        | none => exact Or.inr rfl
        | some a => exact Or.inl (.tuple (List.mem_of_getElem? hi))
      cases hu with
      | prim _ => exact htu
      | array _ =>
          simp only [structuralGoal, Goal.holds_all, List.forall_mem_map, Goal.holds_ask] at htu ⊢
          intro a ha
          obtain ⟨i, hi⟩ := List.mem_iff_getElem?.1 ha
          have hlt : i < ts.length := (List.getElem?_eq_some_iff.1 hi).1.trans_le hlen
          have hb := List.getElem?_eq_getElem hlt
          have hab := hst i _ hb
          rw [hi] at hab
          exact hparts _ _ _ (Or.inl (.tuple ha)) (.tuple (List.getElem_mem hlt)) .array hab
            (htu _ (List.getElem_mem hlt))
      | @tuple us _ =>
          rw [holds_tuple_iff, holds_tupleGoal_iff] at htu ⊢
          obtain ⟨hlen', htu⟩ := htu
          refine ⟨hlen.trans hlen', fun i c hc => ?_⟩
          have hbc := htu i c hc
          cases hb : ts[i]? with
          | none =>
              -- beyond the middle tuple both sources count as `nil`
              have ha : ss[i]? = none := by
                rw [List.getElem?_eq_none_iff] at hb ⊢
                omega
              rw [hb] at hbc
              rwa [ha]
          | some b =>
              rw [hb] at hbc
              exact hparts _ _ _ (hsrc i) (.tuple (List.mem_of_getElem? hb))
                (.tuple (List.mem_of_getElem? hc)) (hst i b hb) hbc
      | union _ _ => cases huu
      | _ => cases htu
  | union _ _ => cases hsu
  | _ => cases hst

/-- The middle type is a record. -/
theorem holds_past_object {o : Object} (ht : t = .object o) (hdata : t.Data) :
    (structuralGoal false none s u).Holds Fits := by
  subst ht
  cases hdata with
  | @object ns _ hns _ =>
      cases hs with
      | @object ms _ hms _ =>
          cases hu with
          | prim _ => exact htu
          | @object ks _ hks _ =>
              rw [structuralGoal, holds_objectGoal_iff hms hns] at hst
              rw [structuralGoal, holds_objectGoal_iff hns hks] at htu
              rw [structuralGoal, holds_objectGoal_iff hms hks]
              intro k hk
              obtain ⟨n, hn, hnk⟩ := htu k hk
              obtain ⟨hnmem, hname⟩ := ObjectOf.mem_of_find? hn
              obtain ⟨m, hm, hmn⟩ := hst n hnmem
              have hmmem := (ObjectOf.mem_of_find? hm).1
              rw [hname] at hm
              exact ⟨m, hm, hparts _ _ _ (Or.inl (.member hmmem rfl)) (.member hnmem rfl)
                (.member hk rfl) hmn hnk⟩
          | union _ _ => cases huu
          | _ => cases htu
      | union _ _ => cases hsu
      | _ => cases hst

/-- **One step past the type in the middle**, if its parts can be passed. -/
theorem holds_structuralGoal_trans (ht : t.Data) (htunion : t.isUnion = false) :
    (structuralGoal false none s u).Holds Fits := by
  have hdata := ht
  cases ht with
  | prim _ => exact holds_past_prim hs hu hsu huu hst htu rfl
  | lit _ => cases hs <;> cases hst
  | array _ => exact holds_past_array hs hu hsu huu hparts hst htu rfl
  | tuple _ => exact holds_past_tuple hs hu hsu huu hparts hst htu rfl
  | object _ _ _ => exact holds_past_object hs hu hsu huu hparts hst htu rfl hdata
  | union _ _ => cases htunion

end Middle

/-! ### The preorder -/

theorem size_le_of_mem_members {t m : Ty} (h : m ∈ t.members) : m.size ≤ t.size := by
  cases t with
  | union ts => exact (Part.union h).size_lt.le
  | _ => rw [List.mem_singleton.1 h]

theorem isUnion_of_mem_members {t m : Ty} (ht : t.Normal) (h : m ∈ t.members) :
    m.isUnion = false := by
  rw [← ht.flat_eq] at h
  exact isUnion_of_mem_flat h

/-- Transitivity for types that are no unions, if it holds of their parts. -/
theorem fits_trans_step {s t u : Ty} (hs : s.Data) (ht : t.Data) (hu : u.Data)
    (hsu : s.isUnion = false) (htu : t.isUnion = false) (huu : u.isUnion = false)
    (hparts : ∀ a b c, Part a s ∨ a = .nil → Part b t → Part c u → Fits a b → Fits b c → Fits a c)
    (hst : Fits s t) (htu' : Fits t u) : Fits s u := by
  have hnever : ∀ {a b : Ty}, a.Data → Fits a b → b = .never → a = .never := by
    rintro a b ha hab rfl
    exact ((fits_never_right_iff ha.normal).1 hab).resolve_left ha.ne_unknown
  by_cases hsn : s = .never
  · exact fits_never_left hs.normal hu.normal hsn
  have htn : t ≠ .never := mt (hnever hs hst) hsn
  have hun : u ≠ .never := mt (hnever ht htu') htn
  have hrefl : ∀ {a : Ty}, a.Data → a.equal a = true := fun ha =>
    equivOn_wellFormed.refl ha.normal.wellFormed
  rcases (fits_structural hs.nameless ht.nameless (hs.firm hsn) (ht.firm htn) hsu).1 hst with heq | hgoal
  · exact (fits_congr hs.normal hu.normal ht.normal hu.normal heq (hrefl hu)).2 htu'
  rcases (fits_structural ht.nameless hu.nameless (ht.firm htn) (hu.firm hun) htu).1 htu' with heq | hgoal'
  · exact (fits_congr hs.normal ht.normal hs.normal hu.normal (hrefl hs) heq).1 hst
  exact (fits_structural hs.nameless hu.nameless (hs.firm hsn) (hu.firm hun) hsu).2
    (Or.inr (holds_structuralGoal_trans hs hu hsu huu hparts hgoal hgoal' ht htu))

/-- **Fitting is transitive on data types.**  The induction is on the size of the three types together;
a part of the first one may be replaced by `nil`, which is no larger. -/
theorem fits_trans {s t u : Ty} (hs : s.Data) (ht : t.Data) (hu : u.Data) (hst : Fits s t)
    (htu : Fits t u) : Fits s u := by
  induction hn : s.size + t.size + u.size using Nat.strong_induction_on generalizing s t u with
  | _ n ih =>
      subst hn
      rw [fits_iff_members hs.nameless hu.nameless]
      intro a ha
      obtain ⟨b, hb, hab⟩ := (fits_iff_members hs.nameless ht.nameless).1 hst a ha
      obtain ⟨c, hc, hbc⟩ := (fits_iff_members ht.nameless hu.nameless).1 htu b hb
      refine ⟨c, hc, fits_trans_step (hs.of_mem_members ha) (ht.of_mem_members hb)
        (hu.of_mem_members hc) (isUnion_of_mem_members hs.normal ha)
        (isUnion_of_mem_members ht.normal hb) (isUnion_of_mem_members hu.normal hc) ?_ hab hbc⟩
      intro a' b' c' ha' hb' hc' hab' hbc'
      have hbt := hb'.size_lt.trans_le (size_le_of_mem_members hb)
      have hcu := hc'.size_lt.trans_le (size_le_of_mem_members hc)
      have has : a'.size ≤ s.size := by
        rcases ha' with ha' | rfl
        · exact ha'.size_lt.le.trans (size_le_of_mem_members ha)
        · exact s.size_pos
      have hdata : a'.Data := by
        rcases ha' with ha' | rfl
        · exact (hs.of_mem_members ha).part ha'
        · exact .prim (by simp)
      exact ih _ (by omega) hdata ((ht.of_mem_members hb).part hb') ((hu.of_mem_members hc).part hc')
        hab' hbc' rfl

/-- **Assignability is a preorder on first-order data types**, and it answers on all of them. -/
theorem isPreorder_isAssignable_data :
    IsPreorder {t : Ty // t.Data} (fun s d => isAssignable none s.1 d.1 = .ok true) ∧
      ∀ s d : {t : Ty // t.Data}, ∃ answer, isAssignable none s.1 d.1 = .ok answer :=
  ⟨{ refl := fun t => fits_refl t.2.normal
     trans := fun s t u hst htu => fits_trans s.2 t.2 u.2 hst htu },
    fun s d => Rules.assignable_none_ok s.2.normal d.2.normal⟩

/-- A pair fits a list by way of a triple whose last entry it lacks; the union in the target is built from
both truth values. -/
theorem isPreorder_isAssignable_data_padded :
    isAssignable none (.tuple [.num (.ofInt 1), .bool true])
      (.array (unionOf [.number, .bool true, .bool false, .string, .nil])) = .ok true := by
  have hs : Data (.tuple [.num (.ofInt 1), .bool true]) := .tuple (by
    simp only [List.forall_mem_cons]
    exact ⟨.lit (by decide), .lit (by decide), by simp⟩)
  have hmiddle : Data (.union [.nil, .string]) := .union rfl (by
    simp only [List.forall_mem_cons]
    exact ⟨.prim (by decide), .prim (by decide), by simp⟩)
  have ht : Data (.tuple [.integer, .boolean, .union [.nil, .string]]) := .tuple (by
    simp only [List.forall_mem_cons]
    exact ⟨.prim (by decide), .prim (by decide), hmiddle, by simp⟩)
  have hu : Data (.array (unionOf [.number, .bool true, .bool false, .string, .nil])) :=
    .array (data_unionOf (by
      simp only [List.forall_mem_cons]
      exact ⟨.prim (by decide), .lit (by decide), .lit (by decide), .prim (by decide),
        .prim (by decide), by simp⟩))
  exact isPreorder_isAssignable_data.1.trans ⟨_, hs⟩ ⟨_, ht⟩ ⟨_, hu⟩ rfl rfl

end TreeCheck
