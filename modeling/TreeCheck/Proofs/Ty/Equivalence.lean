import TreeCheck.Proofs.Ty.Parts

/-!
# Equality of types is an equivalence

Unions, intersections and records are compared as sets, but only from one side: the lengths are the
same and each member of the first has a counterpart in the second.  Between lists without doubles this
is enough, by counting.

* `Ty.sameList_iff`, `Ty.sameSet_iff`, `Ty.sameFunc_iff` — what it means that the parts are equal;
* `Ty.sameObject_iff` — equal records are equal as finite maps from names to members;
* `Ty.length_le_of_cover`, `Ty.exists_counterpart` — the counting argument;
* `Ty.equivOn_wellFormed`, `Ty.equal_equivalence` — equality is an equivalence.
-/

namespace TreeCheck

/-! ### Constants -/

/-- Sameness of numbers is transitive. -/
theorem Number.same_trans {x y z : Number} (hxy : same x y = true) (hyz : same y z = true) :
    same x z = true := by
  cases x <;> cases y <;> cases z <;> simp_all [same]
  grind

namespace Lit

theorem same_self {l : Lit} (h : l ≠ .num .nan) : l.same l = true := by
  cases l with
  | bool b => simp [same]
  | num n =>
      rw [same, Number.same_self]
      rintro rfl
      exact h rfl
  | str s => simp [same]

theorem same_comm (a b : Lit) : a.same b = b.same a := by
  cases a <;> cases b <;> simp [same, Bool.beq_comm, Number.same_comm]

/-- So is sameness of literals. -/
theorem same_trans {a b c : Lit} (hab : a.same b = true) (hbc : b.same c = true) :
    a.same c = true := by
  cases a <;> cases b <;> cases c <;> simp_all [same]
  exact Number.same_trans hab hbc

end Lit

namespace Ty

/-! ### What equal parts mean -/

/-- Two members differ at most in the order inside their types. -/
structure SameMember (eq : Ty → Ty → Bool) (m n : Member) : Prop where
  optional : n.optional = m.optional
  readonly : n.readonly = m.readonly
  static : n.static = m.static
  method : n.method = m.method
  type : eq m.type n.type = true

/-- Two parameters differ at most in their names and in the order inside their types. -/
structure SameParam (eq : Ty → Ty → Bool) (p q : Param) : Prop where
  optional : p.optional = q.optional
  rest : p.rest = q.rest
  type : eq p.type q.type = true

/-- The two types of an index signature are equal. -/
def SameEntry (eq : Ty → Ty → Bool) (i j : Index) : Prop :=
  eq i.key j.key = true ∧ eq i.value j.value = true

section Views

variable {eq : Ty → Ty → Bool}

theorem sameList_iff {xs ys : List Ty} :
    sameList eq xs ys = true ↔ List.Forall₂ (fun x y => eq x y = true) xs ys := by
  rw [List.forall₂_iff_zip, sameList, Bool.and_eq_true, beq_iff_eq, List.all_eq_true]
  simp only [Prod.forall]

theorem sameSet_iff {xs ys : List Ty} :
    sameSet eq xs ys = true ↔ xs.length = ys.length ∧ ∀ x ∈ xs, ∃ y ∈ ys, eq y x = true := by
  simp [sameSet]

theorem sameIndex_iff {a b : Option Index} :
    sameIndex eq a b = true ↔ Option.Rel (SameEntry eq) a b := by
  cases a <;> cases b <;> simp [sameIndex, SameEntry]

/-- Functions without binders are the same if their parameters and results are. -/
theorem sameFunc_iff {a b : Func} (ha : a.tparams = []) (hb : b.tparams = []) :
    sameFunc eq a b = true ↔
      List.Forall₂ (SameParam eq) a.params b.params ∧ eq a.result b.result = true := by
  rw [sameFunc_eq eq ha hb, Bool.and_eq_true, Bool.and_eq_true, beq_iff_eq, List.all_eq_true,
    List.forall₂_iff_zip]
  refine and_congr_left' (and_congr_right fun _ => ?_)
  simp only [Prod.forall, Bool.and_eq_true, beq_iff_eq]
  refine forall₃_congr fun p q _ => ?_
  exact ⟨fun h => ⟨h.1.1, h.1.2, h.2⟩, fun h => ⟨⟨h.optional, h.rest⟩, h.type⟩⟩

/-- The members of one record have counterparts in the other. -/
theorem sameObject_iff_forall {a b : Object} :
    sameObject eq a b = true ↔
      (a.members.length = b.members.length ∧
        ∀ m ∈ a.members, ∃ n, b.find? m.name = some n ∧ SameMember eq m n) ∧
      Option.Rel (SameEntry eq) a.index b.index := by
  rw [sameObject, Bool.and_eq_true, Bool.and_eq_true, beq_iff_eq, List.all_eq_true, sameIndex_iff]
  refine and_congr_left' (and_congr_right fun _ => forall₂_congr fun m _ => ?_)
  cases b.find? m.name with
  | none => simp
  | some n =>
      simp only [Bool.and_eq_true, beq_iff_eq, Option.some.injEq, exists_eq_left']
      exact ⟨fun h => ⟨h.1.1.1.1, h.1.1.1.2, h.1.1.2, h.1.2, h.2⟩,
        fun h => ⟨⟨⟨⟨h.optional, h.readonly⟩, h.static⟩, h.method⟩, h.type⟩⟩

/-- **Records as maps.**  Records with distinct names are equal when they give equal members to every
name.  The names of one record are among those of the other, and there are as many of them. -/
theorem sameObject_iff {a b : Object} (ha : a.names.Nodup) (hb : b.names.Nodup) :
    sameObject eq a b = true ↔
      (∀ x, Option.Rel (SameMember eq) (a.find? x) (b.find? x)) ∧
      Option.Rel (SameEntry eq) a.index b.index := by
  rw [sameObject_iff_forall]
  refine and_congr_left' ⟨?_, ?_⟩
  · rintro ⟨hlen, hall⟩ x
    cases hax : a.find? x with
    | some m =>
        obtain ⟨hm, rfl⟩ := ObjectOf.mem_of_find? hax
        obtain ⟨n, hn, hmn⟩ := hall m hm
        rw [hn]
        exact .some hmn
    | none =>
        have hsub : a.names ⊆ b.names := by
          intro y hy
          obtain ⟨m, hm, rfl⟩ := List.mem_map.1 hy
          obtain ⟨n, hn, -⟩ := hall m hm
          obtain ⟨hmem, hname⟩ := ObjectOf.mem_of_find? hn
          exact hname ▸ List.mem_map_of_mem hmem
        have hperm : a.names.Perm b.names :=
          (List.subperm_of_subset ha hsub).perm_of_length_le (by simp [ObjectOf.names, hlen])
        have hx : x ∉ b.names := by
          rw [← hperm.mem_iff]
          exact (a.find?_eq_none_iff x).1 hax
        rw [(b.find?_eq_none_iff x).2 hx]
        exact .none
  · intro hrel
    have hnames : ∀ x, x ∈ a.names ↔ x ∈ b.names := by
      intro x
      have hx := hrel x
      rw [← not_iff_not, ← a.find?_eq_none_iff, ← b.find?_eq_none_iff]
      generalize a.find? x = m at hx
      generalize b.find? x = n at hx
      cases hx <;> simp
    have hperm : a.names.Perm b.names := (List.perm_ext_iff_of_nodup ha hb).2 hnames
    refine ⟨by simpa [ObjectOf.names] using hperm.length_eq, fun m hm => ?_⟩
    have hx := hrel m.name
    rw [ObjectOf.find?_of_mem ha hm] at hx
    cases hn : b.find? m.name with
    | none =>
        rw [hn] at hx
        cases hx
    | some n =>
        rw [hn] at hx
        cases hx with
        | some hmn => exact ⟨n, rfl, hmn⟩

/-! A type equal to a given one has the same head. -/

theorem sameNode_prim_iff {p : Prim} {b : Ty} : sameNode eq (.prim p) b = true ↔ b = .prim p := by
  cases b <;> simp [sameNode]
  exact eq_comm

theorem sameNode_lit_iff {l : Lit} {b : Ty} :
    sameNode eq (.lit l) b = true ↔ ∃ k, b = .lit k ∧ l.same k = true := by
  cases b <;> simp [sameNode]

theorem sameNode_array_iff {x b : Ty} :
    sameNode eq (.array x) b = true ↔ ∃ y, b = .array y ∧ eq x y = true := by
  cases b <;> simp [sameNode]

theorem sameNode_tuple_iff {xs : List Ty} {b : Ty} :
    sameNode eq (.tuple xs) b = true ↔ ∃ ys, b = .tuple ys ∧ sameList eq xs ys = true := by
  cases b <;> simp [sameNode]

theorem sameNode_object_iff {x : Object} {b : Ty} :
    sameNode eq (.object x) b = true ↔ ∃ y, b = .object y ∧ sameObject eq x y = true := by
  cases b <;> simp [sameNode]

theorem sameNode_func_iff {x : Func} {b : Ty} :
    sameNode eq (.func x) b = true ↔ ∃ y, b = .func y ∧ sameFunc eq x y = true := by
  cases b <;> simp [sameNode]

theorem sameNode_pred_iff {x : String} {s b : Ty} :
    sameNode eq (.pred x s) b = true ↔ ∃ t, b = .pred x t ∧ eq s t = true := by
  cases b <;> simp [sameNode]
  exact fun _ => eq_comm

theorem sameNode_union_iff {xs : List Ty} {b : Ty} :
    sameNode eq (.union xs) b = true ↔ ∃ ys, b = .union ys ∧ sameSet eq xs ys = true := by
  cases b <;> simp [sameNode]

theorem sameNode_inter_iff {xs : List Ty} {b : Ty} :
    sameNode eq (.inter xs) b = true ↔ ∃ ys, b = .inter ys ∧ sameSet eq xs ys = true := by
  cases b <;> simp [sameNode]

theorem sameNode_ref_iff {x : String} {xs : List Ty} {b : Ty} :
    sameNode eq (.ref x xs) b = true ↔ ∃ ys, b = .ref x ys ∧ sameList eq xs ys = true := by
  cases b <;> simp [sameNode]
  exact fun _ => eq_comm

theorem sameNode_tvar_iff {x : String} {b : Ty} : sameNode eq (.tvar x) b = true ↔ b = .tvar x := by
  cases b <;> simp [sameNode]
  exact eq_comm

theorem sameNode_classRef_iff {x : String} {b : Ty} :
    sameNode eq (.classRef x) b = true ↔ b = .classRef x := by
  cases b <;> simp [sameNode]
  exact eq_comm

end Views

/-! ### Equivalences on a set of types -/

/-- An equality test is an equivalence on the types with a property. -/
structure EquivOn (eq : Ty → Ty → Bool) (P : Ty → Prop) : Prop where
  refl : ∀ {a}, P a → eq a a = true
  symm : ∀ {a b}, P a → P b → eq a b = true → eq b a = true
  trans : ∀ {a b c}, P a → P b → P c → eq a b = true → eq b c = true → eq a c = true

/-- **Counting.**  A list without doubles is not longer than one in which all its members have
counterparts. -/
theorem length_le_of_cover {eq : Ty → Ty → Bool} {xs ys : List Ty}
    (hdist : xs.Pairwise fun a b => eq a b = false)
    (hcover : ∀ x ∈ xs, ∃ y ∈ ys, eq y x = true)
    (hjoin : ∀ a ∈ xs, ∀ b ∈ xs, ∀ y ∈ ys, eq y a = true → eq y b = true → eq a b = true) :
    xs.length ≤ ys.length := by
  classical
  -- Each member of `xs` takes its counterpart out of `ys`; no other member can need it.
  induction xs generalizing ys with
  | nil => exact Nat.zero_le _
  | cons x xs ih =>
      obtain ⟨y₀, hy₀, hx⟩ := hcover x List.mem_cons_self
      rw [List.pairwise_cons] at hdist
      have hrest : xs.length ≤ (ys.erase y₀).length := by
        refine ih hdist.2 (fun a ha => ?_) fun a ha b hb y hy =>
          hjoin a (.tail _ ha) b (.tail _ hb) y (List.mem_of_mem_erase hy)
        obtain ⟨y, hy, hya⟩ := hcover a (.tail _ ha)
        have hne : y ≠ y₀ := by
          rintro rfl
          have hxa := hjoin x List.mem_cons_self a (.tail _ ha) y hy hx hya
          rw [hdist.1 a ha] at hxa
          cases hxa
        exact ⟨y, (List.mem_erase_of_ne hne).2 hy, hya⟩
      have hpos := List.length_pos_of_mem hy₀
      rw [List.length_erase_of_mem hy₀] at hrest
      rw [List.length_cons]
      omega

/-- If every member of a list without doubles has a counterpart in a list that is not longer, then
every member of that list is a counterpart: one that is none could be left out. -/
theorem exists_counterpart {eq : Ty → Ty → Bool} {xs ys : List Ty} (hlen : ys.length ≤ xs.length)
    (hdist : xs.Pairwise fun a b => eq a b = false)
    (hcover : ∀ x ∈ xs, ∃ y ∈ ys, eq y x = true)
    (hjoin : ∀ a ∈ xs, ∀ b ∈ xs, ∀ y ∈ ys, eq y a = true → eq y b = true → eq a b = true) :
    ∀ y ∈ ys, ∃ x ∈ xs, eq y x = true := by
  classical
  intro y₀ hy₀
  by_contra hnone
  have hrest : xs.length ≤ (ys.erase y₀).length := by
    refine length_le_of_cover hdist (fun x hx => ?_) fun a ha b hb y hy =>
      hjoin a ha b hb y (List.mem_of_mem_erase hy)
    obtain ⟨y, hy, hyx⟩ := hcover x hx
    have hne : y ≠ y₀ := by
      rintro rfl
      exact hnone ⟨x, hx, hyx⟩
    exact ⟨y, (List.mem_erase_of_ne hne).2 hy, hyx⟩
  have hpos := List.length_pos_of_mem hy₀
  rw [List.length_erase_of_mem hy₀] at hrest
  omega

/-! ### Reflexivity -/

section Refl

variable {eq : Ty → Ty → Bool}

theorem sameList_refl {xs : List Ty} (h : ∀ x ∈ xs, eq x x = true) : sameList eq xs xs = true :=
  sameList_iff.2 (List.forall₂_same.2 h)

theorem sameSet_refl {xs : List Ty} (h : ∀ x ∈ xs, eq x x = true) : sameSet eq xs xs = true :=
  sameSet_iff.2 ⟨rfl, fun x hmem => ⟨x, hmem, h x hmem⟩⟩

/-- A record is the same as itself if its parts are. -/
theorem sameObject_refl {o : Object} (hnd : o.names.Nodup) (h : ∀ u, Part u (.object o) → eq u u = true) :
    sameObject eq o o = true := by
  refine (sameObject_iff hnd hnd).2 ⟨fun x => ?_, ?_⟩
  · cases hx : o.find? x with
    | none => exact .none
    | some m => exact .some ⟨rfl, rfl, rfl, rfl, h _ (.member (ObjectOf.mem_of_find? hx).1 rfl)⟩
  · cases hi : o.index with
    | none => exact .none
    | some i => exact .some ⟨h _ (.key hi rfl), h _ (.value hi rfl)⟩

theorem sameParams_refl {ps : List Param} (h : ∀ p ∈ ps, eq p.type p.type = true) :
    List.Forall₂ (SameParam eq) ps ps :=
  List.forall₂_same.2 fun p hmem => ⟨rfl, rfl, h p hmem⟩

end Refl

namespace EquivOn

variable {eq : Ty → Ty → Bool} {P : Ty → Prop} (h : EquivOn eq P)

include h

/-- Sameness of lists is symmetric where it is so for the entries. -/
theorem sameList_symm {xs ys : List Ty} (hx : ∀ x ∈ xs, P x) (hy : ∀ y ∈ ys, P y)
    (hs : sameList eq xs ys = true) : sameList eq ys xs = true := by
  rw [sameList_iff] at hs ⊢
  induction hs with
  | nil => exact .nil
  | cons hxy _ ih =>
      exact .cons (h.symm (hx _ (.head _)) (hy _ (.head _)) hxy)
        (ih (fun x hmem => hx x (.tail _ hmem)) fun y hmem => hy y (.tail _ hmem))

/-- It is transitive where it is so for the entries. -/
theorem sameList_trans {xs ys zs : List Ty} (hx : ∀ x ∈ xs, P x) (hy : ∀ y ∈ ys, P y)
    (hz : ∀ z ∈ zs, P z) (hxy : sameList eq xs ys = true) (hyz : sameList eq ys zs = true) :
    sameList eq xs zs = true := by
  rw [sameList_iff] at hxy hyz ⊢
  induction hxy generalizing zs with
  | nil => exact hyz
  | cons hxy _ ih =>
      cases hyz with
      | cons hyz hrest =>
          exact .cons (h.trans (hx _ (.head _)) (hy _ (.head _)) (hz _ (.head _)) hxy hyz)
            (ih (fun x hmem => hx x (.tail _ hmem)) (fun y hmem => hy y (.tail _ hmem))
              (fun z hmem => hz z (.tail _ hmem)) hrest)

/-- Between lists without doubles, counterparts in one direction are counterparts in both. -/
theorem sameSet_symm {xs ys : List Ty} (hx : ∀ x ∈ xs, P x) (hy : ∀ y ∈ ys, P y)
    (hdist : xs.Pairwise fun a b => eq a b = false) (hs : sameSet eq xs ys = true) :
    sameSet eq ys xs = true := by
  obtain ⟨hlen, hcover⟩ := sameSet_iff.1 hs
  have hback : ∀ y ∈ ys, ∃ x ∈ xs, eq y x = true := by
    refine exists_counterpart hlen.ge hdist hcover fun a ha b hb y hmem hya hyb => ?_
    exact h.trans (hx a ha) (hy y hmem) (hx b hb) (h.symm (hy y hmem) (hx a ha) hya) hyb
  refine sameSet_iff.2 ⟨hlen.symm, fun y hmem => ?_⟩
  obtain ⟨x, hxmem, hyx⟩ := hback y hmem
  exact ⟨x, hxmem, h.symm (hy y hmem) (hx x hxmem) hyx⟩

/-- So is sameness of lists in any order. -/
theorem sameSet_trans {xs ys zs : List Ty} (hx : ∀ x ∈ xs, P x) (hy : ∀ y ∈ ys, P y)
    (hz : ∀ z ∈ zs, P z) (hxy : sameSet eq xs ys = true) (hyz : sameSet eq ys zs = true) :
    sameSet eq xs zs = true := by
  obtain ⟨hlen, hcover⟩ := sameSet_iff.1 hxy
  obtain ⟨hlen', hcover'⟩ := sameSet_iff.1 hyz
  refine sameSet_iff.2 ⟨hlen.trans hlen', fun x hmem => ?_⟩
  obtain ⟨y, hymem, hyx⟩ := hcover x hmem
  obtain ⟨z, hzmem, hzy⟩ := hcover' y hymem
  exact ⟨z, hzmem, h.trans (hz z hzmem) (hy y hymem) (hx x hmem) hzy hyx⟩

/-! The same for records and signatures, whose parts all have the property. -/

/-- Sameness of records is symmetric where it is so for their parts. -/
theorem sameObject_symm {a b : Object} (ha : a.names.Nodup) (hb : b.names.Nodup)
    (hpa : ∀ u, Part u (.object a) → P u) (hpb : ∀ u, Part u (.object b) → P u)
    (hs : sameObject eq a b = true) : sameObject eq b a = true := by
  obtain ⟨hmembers, hindex⟩ := (sameObject_iff ha hb).1 hs
  refine (sameObject_iff hb ha).2 ⟨fun x => ?_, ?_⟩
  · have hx := hmembers x
    cases hax : a.find? x <;> cases hbx : b.find? x <;> rw [hax, hbx] at hx <;> cases hx
    · exact .none
    · rename_i m n hmn
      have hm := hpa _ (.member (ObjectOf.mem_of_find? hax).1 rfl)
      have hn := hpb _ (.member (ObjectOf.mem_of_find? hbx).1 rfl)
      exact .some ⟨hmn.optional.symm, hmn.readonly.symm, hmn.static.symm, hmn.method.symm,
        h.symm hm hn hmn.type⟩
  · cases hai : a.index <;> cases hbi : b.index <;> rw [hai, hbi] at hindex <;> cases hindex
    · exact .none
    · rename_i i j hij
      exact .some ⟨h.symm (hpa _ (.key hai rfl)) (hpb _ (.key hbi rfl)) hij.1,
        h.symm (hpa _ (.value hai rfl)) (hpb _ (.value hbi rfl)) hij.2⟩

/-- It is transitive where it is so for their parts. -/
theorem sameObject_trans {a b c : Object} (ha : a.names.Nodup) (hb : b.names.Nodup)
    (hc : c.names.Nodup) (hpa : ∀ u, Part u (.object a) → P u) (hpb : ∀ u, Part u (.object b) → P u)
    (hpc : ∀ u, Part u (.object c) → P u) (hab : sameObject eq a b = true)
    (hbc : sameObject eq b c = true) : sameObject eq a c = true := by
  obtain ⟨hmembers, hindex⟩ := (sameObject_iff ha hb).1 hab
  obtain ⟨hmembers', hindex'⟩ := (sameObject_iff hb hc).1 hbc
  refine (sameObject_iff ha hc).2 ⟨fun x => ?_, ?_⟩
  · have hx := hmembers x
    have hx' := hmembers' x
    cases hax : a.find? x <;> cases hbx : b.find? x <;> rw [hax, hbx] at hx <;> cases hx <;>
      cases hcx : c.find? x <;> rw [hbx, hcx] at hx' <;> cases hx'
    · exact .none
    · rename_i k m hkm n hmn
      have hk := hpa _ (.member (ObjectOf.mem_of_find? hax).1 rfl)
      have hm := hpb _ (.member (ObjectOf.mem_of_find? hbx).1 rfl)
      have hn := hpc _ (.member (ObjectOf.mem_of_find? hcx).1 rfl)
      exact .some ⟨hmn.optional.trans hkm.optional, hmn.readonly.trans hkm.readonly,
        hmn.static.trans hkm.static, hmn.method.trans hkm.method,
        h.trans hk hm hn hkm.type hmn.type⟩
  · cases hai : a.index <;> cases hbi : b.index <;> rw [hai, hbi] at hindex <;> cases hindex <;>
      cases hci : c.index <;> rw [hbi, hci] at hindex' <;> cases hindex'
    · exact .none
    · rename_i i j hij k hjk
      exact .some
        ⟨h.trans (hpa _ (.key hai rfl)) (hpb _ (.key hbi rfl)) (hpc _ (.key hci rfl)) hij.1 hjk.1,
          h.trans (hpa _ (.value hai rfl)) (hpb _ (.value hbi rfl)) (hpc _ (.value hci rfl)) hij.2
            hjk.2⟩

/-- Sameness of parameters is symmetric where it is so for their types. -/
theorem sameParams_symm {ps qs : List Param} (hp : ∀ p ∈ ps, P p.type) (hq : ∀ q ∈ qs, P q.type)
    (hs : List.Forall₂ (SameParam eq) ps qs) : List.Forall₂ (SameParam eq) qs ps := by
  induction hs with
  | nil => exact .nil
  | cons hpq _ ih =>
      exact .cons ⟨hpq.optional.symm, hpq.rest.symm,
          h.symm (hp _ (.head _)) (hq _ (.head _)) hpq.type⟩
        (ih (fun p hmem => hp p (.tail _ hmem)) fun q hmem => hq q (.tail _ hmem))

/-- It is transitive where it is so for their types. -/
theorem sameParams_trans {ps qs rs : List Param} (hp : ∀ p ∈ ps, P p.type)
    (hq : ∀ q ∈ qs, P q.type) (hr : ∀ r ∈ rs, P r.type) (hpq : List.Forall₂ (SameParam eq) ps qs)
    (hqr : List.Forall₂ (SameParam eq) qs rs) : List.Forall₂ (SameParam eq) ps rs := by
  induction hpq generalizing rs with
  | nil => exact hqr
  | cons hpq _ ih =>
      cases hqr with
      | cons hqr hrest =>
          exact .cons ⟨hpq.optional.trans hqr.optional, hpq.rest.trans hqr.rest,
              h.trans (hp _ (.head _)) (hq _ (.head _)) (hr _ (.head _)) hpq.type hqr.type⟩
            (ih (fun p hmem => hp p (.tail _ hmem)) (fun q hmem => hq q (.tail _ hmem))
              (fun r hmem => hr r (.tail _ hmem)) hrest)

end EquivOn

/-- Everything that a comparison of the type looks at has the property: its parts, and `void` for a
result that is not given. -/
def PartsIn (P : Ty → Prop) (t : Ty) : Prop := ∀ u, Part u t ∨ u = .void → P u

theorem PartsIn.result {P : Ty → Prop} {f : Func} (h : PartsIn P (.func f)) : P f.result := by
  cases hr : f.ret with
  | none => exact h _ (Or.inr (by rw [FuncOf.result, hr]; rfl))
  | some r => exact h _ (Or.inl (.ret (by rw [FuncOf.result, hr]; rfl)))

/-! Signatures without type parameters are compared by their parts. -/

section Signatures

variable {eq : Ty → Ty → Bool} {P : Ty → Prop} (h : EquivOn eq P) {f g k : Func}

include h

theorem EquivOn.sameFunc_refl (hf : f.tparams = []) (hpf : PartsIn P (.func f)) : sameFunc eq f f = true :=
  (sameFunc_iff hf hf).2
    ⟨sameParams_refl fun _ hmem => h.refl (hpf _ (Or.inl (.param hmem rfl))), h.refl hpf.result⟩

/-- Sameness of functions without binders is symmetric. -/
theorem EquivOn.sameFunc_symm (hf : f.tparams = []) (hg : g.tparams = []) (hpf : PartsIn P (.func f))
    (hpg : PartsIn P (.func g)) (hfg : sameFunc eq f g = true) : sameFunc eq g f = true := by
  obtain ⟨hparams, hret⟩ := (sameFunc_iff hf hg).1 hfg
  refine (sameFunc_iff hg hf).2 ⟨?_, h.symm hpf.result hpg.result hret⟩
  exact h.sameParams_symm (fun p hmem => hpf _ (Or.inl (.param hmem rfl)))
    (fun q hmem => hpg _ (Or.inl (.param hmem rfl))) hparams

/-- It is transitive. -/
theorem EquivOn.sameFunc_trans (hf : f.tparams = []) (hg : g.tparams = []) (hk : k.tparams = [])
    (hpf : PartsIn P (.func f)) (hpg : PartsIn P (.func g)) (hpk : PartsIn P (.func k))
    (hfg : sameFunc eq f g = true) (hgk : sameFunc eq g k = true) : sameFunc eq f k = true := by
  obtain ⟨hparams, hret⟩ := (sameFunc_iff hf hg).1 hfg
  obtain ⟨hparams', hret'⟩ := (sameFunc_iff hg hk).1 hgk
  refine (sameFunc_iff hf hk).2 ⟨?_, h.trans hpf.result hpg.result hpk.result hret hret'⟩
  exact h.sameParams_trans (fun p hmem => hpf _ (Or.inl (.param hmem rfl)))
    (fun q hmem => hpg _ (Or.inl (.param hmem rfl))) (fun r hmem => hpk _ (Or.inl (.param hmem rfl)))
    hparams hparams'

end Signatures

/-- What a type of its own, whatever stands below, must be like for equality to be an equivalence:
nothing stands twice, and `NaN` is no constant. -/
def Tidy : Ty → Prop
  | .lit l => l ≠ .num .nan
  | .object o => o.names.Nodup
  | .union ts => ts.Pairwise fun a b => a.equal b = false
  | .inter ts => ts.Pairwise fun a b => a.equal b = false
  | _ => True

theorem WellFormed.tidy {t : Ty} (h : t.WellFormed) : t.Tidy := by
  cases h with
  | lit h => exact h
  | object h _ _ _ => exact h
  | union h _ => exact h
  | inter h _ => exact h
  | _ => exact trivial

section Node

variable {eq : Ty → Ty → Bool} {P : Ty → Prop} {a b c : Ty}

/-! One step of the comparison is reflexive, symmetric and transitive where the test is, first for types
that are no signatures. -/

/-- A node other than a function is the same as itself. -/
theorem sameNode_refl_of_not_func (ha : a.Tidy) (hfunc : ∀ f, a ≠ .func f)
    (h : ∀ u, Part u a → eq u u = true) : sameNode eq a a = true := by
  cases a with
  | prim p => exact sameNode_prim_iff.2 rfl
  | lit l => exact sameNode_lit_iff.2 ⟨_, rfl, Lit.same_self ha⟩
  | array e => exact sameNode_array_iff.2 ⟨_, rfl, h _ .array⟩
  | tuple es => exact sameNode_tuple_iff.2 ⟨_, rfl, sameList_refl fun x hx => h x (.tuple hx)⟩
  | object o => exact sameNode_object_iff.2 ⟨_, rfl, sameObject_refl ha h⟩
  | func f => exact absurd rfl (hfunc f)
  | pred x t => exact sameNode_pred_iff.2 ⟨_, rfl, h _ .pred⟩
  | union ts => exact sameNode_union_iff.2 ⟨_, rfl, sameSet_refl fun x hx => h x (.union hx)⟩
  | inter ts => exact sameNode_inter_iff.2 ⟨_, rfl, sameSet_refl fun x hx => h x (.inter hx)⟩
  | ref x args => exact sameNode_ref_iff.2 ⟨_, rfl, sameList_refl fun x hx => h x (.arg hx)⟩
  | tvar n => exact sameNode_tvar_iff.2 rfl
  | classRef n => exact sameNode_classRef_iff.2 rfl

/-- Sameness of nodes other than functions is symmetric. -/
theorem sameNode_symm_of_not_func (h : EquivOn equal P) (ha : a.Tidy) (hb : b.Tidy)
    (hfunc : ∀ f, a ≠ .func f) (hpart : ∀ u, Part u a → P u) (hpart' : ∀ u, Part u b → P u)
    (hab : sameNode equal a b = true) : sameNode equal b a = true := by
  cases a with
  | prim p =>
      obtain rfl := sameNode_prim_iff.1 hab
      exact hab
  | lit l =>
      obtain ⟨k, rfl, hk⟩ := sameNode_lit_iff.1 hab
      exact sameNode_lit_iff.2 ⟨_, rfl, by rwa [Lit.same_comm]⟩
  | array e =>
      obtain ⟨y, rfl, hy⟩ := sameNode_array_iff.1 hab
      exact sameNode_array_iff.2 ⟨_, rfl, h.symm (hpart _ .array) (hpart' _ .array) hy⟩
  | tuple es =>
      obtain ⟨ys, rfl, hs⟩ := sameNode_tuple_iff.1 hab
      exact sameNode_tuple_iff.2 ⟨_, rfl, h.sameList_symm (fun x hx => hpart x (.tuple hx))
        (fun y hy => hpart' y (.tuple hy)) hs⟩
  | object o =>
      obtain ⟨y, rfl, hs⟩ := sameNode_object_iff.1 hab
      exact sameNode_object_iff.2 ⟨_, rfl, h.sameObject_symm ha hb hpart hpart' hs⟩
  | func f => exact absurd rfl (hfunc f)
  | pred x t =>
      obtain ⟨t, rfl, ht⟩ := sameNode_pred_iff.1 hab
      exact sameNode_pred_iff.2 ⟨_, rfl, h.symm (hpart _ .pred) (hpart' _ .pred) ht⟩
  | union ts =>
      obtain ⟨ys, rfl, hs⟩ := sameNode_union_iff.1 hab
      exact sameNode_union_iff.2 ⟨_, rfl, h.sameSet_symm (fun x hx => hpart x (.union hx))
        (fun y hy => hpart' y (.union hy)) ha hs⟩
  | inter ts =>
      obtain ⟨ys, rfl, hs⟩ := sameNode_inter_iff.1 hab
      exact sameNode_inter_iff.2 ⟨_, rfl, h.sameSet_symm (fun x hx => hpart x (.inter hx))
        (fun y hy => hpart' y (.inter hy)) ha hs⟩
  | ref x args =>
      obtain ⟨ys, rfl, hs⟩ := sameNode_ref_iff.1 hab
      exact sameNode_ref_iff.2 ⟨_, rfl, h.sameList_symm (fun x hx => hpart x (.arg hx))
        (fun y hy => hpart' y (.arg hy)) hs⟩
  | tvar n =>
      obtain rfl := sameNode_tvar_iff.1 hab
      exact hab
  | classRef n =>
      obtain rfl := sameNode_classRef_iff.1 hab
      exact hab

/-- It is transitive. -/
theorem sameNode_trans_of_not_func (h : EquivOn eq P) (ha : a.Tidy) (hb : b.Tidy) (hc : c.Tidy)
    (hfunc : ∀ f, a ≠ .func f) (hpart : ∀ u, Part u a → P u) (hpart' : ∀ u, Part u b → P u)
    (hpart'' : ∀ u, Part u c → P u) (hab : sameNode eq a b = true) (hbc : sameNode eq b c = true) :
    sameNode eq a c = true := by
  cases a with
  | prim p =>
      obtain rfl := sameNode_prim_iff.1 hab
      exact hbc
  | lit l =>
      obtain ⟨k, rfl, hk⟩ := sameNode_lit_iff.1 hab
      obtain ⟨l, rfl, hkl⟩ := sameNode_lit_iff.1 hbc
      exact sameNode_lit_iff.2 ⟨_, rfl, Lit.same_trans hk hkl⟩
  | array e =>
      obtain ⟨y, rfl, hy⟩ := sameNode_array_iff.1 hab
      obtain ⟨z, rfl, hz⟩ := sameNode_array_iff.1 hbc
      exact sameNode_array_iff.2
        ⟨_, rfl, h.trans (hpart _ .array) (hpart' _ .array) (hpart'' _ .array) hy hz⟩
  | tuple es =>
      obtain ⟨ys, rfl, hs⟩ := sameNode_tuple_iff.1 hab
      obtain ⟨zs, rfl, hs'⟩ := sameNode_tuple_iff.1 hbc
      exact sameNode_tuple_iff.2 ⟨_, rfl, h.sameList_trans (fun x hx => hpart x (.tuple hx))
        (fun y hy => hpart' y (.tuple hy)) (fun z hz => hpart'' z (.tuple hz)) hs hs'⟩
  | object o =>
      obtain ⟨y, rfl, hs⟩ := sameNode_object_iff.1 hab
      obtain ⟨z, rfl, hs'⟩ := sameNode_object_iff.1 hbc
      exact sameNode_object_iff.2
        ⟨_, rfl, h.sameObject_trans ha hb hc hpart hpart' hpart'' hs hs'⟩
  | func f => exact absurd rfl (hfunc f)
  | pred x t =>
      obtain ⟨t, rfl, ht⟩ := sameNode_pred_iff.1 hab
      obtain ⟨u, rfl, hu⟩ := sameNode_pred_iff.1 hbc
      exact sameNode_pred_iff.2
        ⟨_, rfl, h.trans (hpart _ .pred) (hpart' _ .pred) (hpart'' _ .pred) ht hu⟩
  | union ts =>
      obtain ⟨ys, rfl, hs⟩ := sameNode_union_iff.1 hab
      obtain ⟨zs, rfl, hs'⟩ := sameNode_union_iff.1 hbc
      exact sameNode_union_iff.2 ⟨_, rfl, h.sameSet_trans (fun x hx => hpart x (.union hx))
        (fun y hy => hpart' y (.union hy)) (fun z hz => hpart'' z (.union hz)) hs hs'⟩
  | inter ts =>
      obtain ⟨ys, rfl, hs⟩ := sameNode_inter_iff.1 hab
      obtain ⟨zs, rfl, hs'⟩ := sameNode_inter_iff.1 hbc
      exact sameNode_inter_iff.2 ⟨_, rfl, h.sameSet_trans (fun x hx => hpart x (.inter hx))
        (fun y hy => hpart' y (.inter hy)) (fun z hz => hpart'' z (.inter hz)) hs hs'⟩
  | ref x args =>
      obtain ⟨ys, rfl, hs⟩ := sameNode_ref_iff.1 hab
      obtain ⟨zs, rfl, hs'⟩ := sameNode_ref_iff.1 hbc
      exact sameNode_ref_iff.2 ⟨_, rfl, h.sameList_trans (fun x hx => hpart x (.arg hx))
        (fun y hy => hpart' y (.arg hy)) (fun z hz => hpart'' z (.arg hz)) hs hs'⟩
  | tvar n =>
      obtain rfl := sameNode_tvar_iff.1 hab
      exact hbc
  | classRef n =>
      obtain rfl := sameNode_classRef_iff.1 hab
      exact hbc

/-! Well-formed signatures have no type parameters. -/

/-- A node is the same as itself if its parts are. -/
theorem sameNode_refl (h : EquivOn eq P) (ha : a.WellFormed) (hp : PartsIn P a) :
    sameNode eq a a = true := by
  by_cases hfunc : ∃ f, a = .func f
  · obtain ⟨f, rfl⟩ := hfunc
    exact sameNode_func_iff.2 ⟨_, rfl, h.sameFunc_refl ha.tparams hp⟩
  · exact sameNode_refl_of_not_func ha.tidy (fun f hf => hfunc ⟨f, hf⟩) fun u hu =>
      h.refl (hp u (Or.inl hu))

/-- Sameness of nodes is symmetric where it is so for their parts. -/
theorem sameNode_symm (h : EquivOn equal P) (ha : a.WellFormed) (hb : b.WellFormed)
    (hpa : PartsIn P a) (hpb : PartsIn P b) (hab : sameNode equal a b = true) :
    sameNode equal b a = true := by
  by_cases hfunc : ∃ f, a = .func f
  · obtain ⟨x, rfl⟩ := hfunc
    obtain ⟨y, rfl, hs⟩ := sameNode_func_iff.1 hab
    exact sameNode_func_iff.2 ⟨_, rfl, h.sameFunc_symm ha.tparams hb.tparams hpa hpb hs⟩
  · exact sameNode_symm_of_not_func h ha.tidy hb.tidy (fun f hf => hfunc ⟨f, hf⟩)
      (fun u hu => hpa u (Or.inl hu)) (fun u hu => hpb u (Or.inl hu)) hab

/-- It is transitive where it is so for their parts. -/
theorem sameNode_trans (h : EquivOn eq P) (ha : a.WellFormed) (hb : b.WellFormed)
    (hc : c.WellFormed) (hpa : PartsIn P a) (hpb : PartsIn P b) (hpc : PartsIn P c)
    (hab : sameNode eq a b = true) (hbc : sameNode eq b c = true) : sameNode eq a c = true := by
  by_cases hfunc : ∃ f, a = .func f
  · obtain ⟨x, rfl⟩ := hfunc
    obtain ⟨y, rfl, hs⟩ := sameNode_func_iff.1 hab
    obtain ⟨z, rfl, hs'⟩ := sameNode_func_iff.1 hbc
    exact sameNode_func_iff.2
      ⟨_, rfl, h.sameFunc_trans ha.tparams hb.tparams hc.tparams hpa hpb hpc hs hs'⟩
  · exact sameNode_trans_of_not_func h ha.tidy hb.tidy hc.tidy (fun f hf => hfunc ⟨f, hf⟩)
      (fun u hu => hpa u (Or.inl hu)) (fun u hu => hpb u (Or.inl hu)) (fun u hu => hpc u (Or.inl hu))
      hab hbc

end Node

/-! ### The equivalence -/

theorem equal_prim_iff {p : Prim} {b : Ty} : equal (.prim p) b = true ↔ b = .prim p := by
  rw [equal, depthBound, equalUpTo_succ, sameNode_prim_iff]

theorem equal_prim_right_iff {p : Prim} {a : Ty} : equal a (.prim p) = true ↔ a = .prim p := by
  rw [equal, depthBound, equalUpTo_succ]
  cases a <;> simp [sameNode]

/-- An equivalence on some types stays one when `void` joins them. -/
theorem EquivOn.or_void {P : Ty → Prop} (h : EquivOn equal P) :
    EquivOn equal fun t => P t ∨ t = .void where
  refl := by
    rintro a (ha | rfl)
    · exact h.refl ha
    · exact equal_prim_iff.2 rfl
  symm := by
    rintro a b (ha | rfl) (hb | rfl) hab
    · exact h.symm ha hb hab
    · obtain rfl := equal_prim_right_iff.1 hab
      exact hab
    · obtain rfl := equal_prim_iff.1 hab
      exact hab
    · exact hab
  trans := by
    rintro a b c ha (hb | rfl) hc hab hbc
    · rcases ha with ha | rfl
      · rcases hc with hc | rfl
        · exact h.trans ha hb hc hab hbc
        · obtain rfl := equal_prim_right_iff.1 hbc
          exact hab
      · obtain rfl := equal_prim_iff.1 hab
        exact hbc
    · obtain rfl := equal_prim_right_iff.1 hab
      exact hbc

/-- The types below a size: the induction is on the size, and a type is compared by its parts. -/
theorem equivOn_size_lt (n : Nat) : EquivOn equal fun t => t.WellFormed ∧ t.size < n := by
  induction n with
  | zero =>
      exact ⟨fun h => absurd h.2 (Nat.not_lt_zero _), fun h => absurd h.2 (Nat.not_lt_zero _),
        fun h => absurd h.2 (Nat.not_lt_zero _)⟩
  | succ n ih =>
      have hparts : ∀ {t : Ty}, t.WellFormed ∧ t.size < n + 1 →
          PartsIn (fun u => (u.WellFormed ∧ u.size < n) ∨ u = .void) t := by
        rintro t ⟨ht, hsize⟩ u (hu | rfl)
        · have hlt := hu.size_lt
          exact Or.inl ⟨ht.part hu, by omega⟩
        · exact Or.inr rfl
      refine ⟨fun ha => ?_, fun ha hb hab => ?_, fun ha hb hc hab hbc => ?_⟩
      · rw [equal_eq_sameNode ha.1 ha.1]
        exact sameNode_refl ih.or_void ha.1 (hparts ha)
      · rw [equal_eq_sameNode ha.1 hb.1] at hab
        rw [equal_eq_sameNode hb.1 ha.1]
        exact sameNode_symm ih.or_void ha.1 hb.1 (hparts ha) (hparts hb) hab
      · rw [equal_eq_sameNode ha.1 hb.1] at hab
        rw [equal_eq_sameNode hb.1 hc.1] at hbc
        rw [equal_eq_sameNode ha.1 hc.1]
        exact sameNode_trans ih.or_void ha.1 hb.1 hc.1 (hparts ha) (hparts hb) (hparts hc) hab hbc

/-- Equality is an equivalence on well-formed types. -/
theorem equivOn_wellFormed : EquivOn equal WellFormed where
  refl ha := (equivOn_size_lt (_ + 1)).refl ⟨ha, Nat.lt_succ_self _⟩
  symm {a b} ha hb hab :=
    (equivOn_size_lt (a.size + b.size + 1)).symm ⟨ha, by omega⟩ ⟨hb, by omega⟩ hab
  trans {a b c} ha hb hc hab hbc :=
    (equivOn_size_lt (a.size + b.size + c.size + 1)).trans ⟨ha, by omega⟩ ⟨hb, by omega⟩
      ⟨hc, by omega⟩ hab hbc

/-- **Structural equality is an equivalence** on the well-formed types. -/
theorem equal_equivalence : Equivalence fun a b : {t : Ty // t.WellFormed} => a.1.equal b.1 = true where
  refl a := equivOn_wellFormed.refl a.2
  symm {a b} hab := equivOn_wellFormed.symm a.2 b.2 hab
  trans {a b c} hab hbc := equivOn_wellFormed.trans a.2 b.2 c.2 hab hbc

end Ty

end TreeCheck
