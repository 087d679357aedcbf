import TreeCheck.Env.Utility
import TreeCheck.Proofs.Ty.Rebuild
import TreeCheck.Proofs.Ty.Union

/-!
# The modifiers of members

`Partial`, `Required` and `Readonly` change every member of a record, or of every record in a union.
The records of a union may become equal on the way, so that the union has fewer members after one
change than before it.  What two changes in a row lead to does not depend on that: it is what their
composition leads to.

* `Utility.changed`, `Utility.changedAll` — the change on one record, and on a type of records;
* `Utility.mapMembers_of_records`, `Utility.mapMembers_cases` — where changes succeed, and with what;
* `Utility.exists_equal_mem_unionMembers` — no record is lost when a union is built;
* `Utility.Agree`, `Utility.Modifier` — changes that cannot tell equal members apart;
* `Utility.equal_changedAll_comp` — two changes in a row are one;
* `Utility.modifier_algebra` — the laws of the three modifiers.
-/

namespace TreeCheck

open Ty

/-! ### Types of records -/

/-- Removing `nil` once is enough. -/
theorem Ty.removeNil_removeNil {t : Ty} (h : t.Normal) : t.removeNil.removeNil = t.removeNil := by
  obtain rfl | rfl | ⟨hunknown, hnever⟩ := t.unknown_or_never_or
  · rfl
  · rfl
  · have hlist := (h.unionList hunknown hnever).sublist (List.filter_sublist (p := fun m => !m.isNil))
    rw [removeNil_eq h hunknown hnever]
    have hstill : (ofMembers (t.members.filter fun m => !m.isNil)).members.filter (fun m => !m.isNil) =
        (ofMembers (t.members.filter fun m => !m.isNil)).members := by
      refine List.filter_eq_self.2 fun m hm => ?_
      rcases (mem_members_ofMembers hlist.isUnion).1 hm with hm | ⟨-, rfl⟩
      · exact (List.mem_filter.1 hm).2
      · rfl
    have hnormal : (ofMembers (t.members.filter fun m => !m.isNil)).Normal :=
      normal_ofMembers hlist fun m hm => h.of_mem_members (List.mem_of_mem_filter hm)
    generalize ofMembers (t.members.filter fun m => !m.isNil) = u at hstill hnormal ⊢
    obtain rfl | rfl | ⟨hunknown', hnever'⟩ := u.unknown_or_never_or
    · rfl
    · rfl
    · rw [removeNil_eq hnormal hunknown' hnever', hstill, hnormal.ofMembers_members]

namespace Utility

/-- A record with `f` applied to its members; every other type stays as it is. -/
def changed (f : Member → Member) : Ty → Ty
  | .object o => .object { o with members := o.members.map f }
  | t => t

/-- `f` applied to the members of every record in a type of records. -/
def changedAll (f : Member → Member) (t : Ty) : Ty := unionOf (t.members.map (changed f))

/-- A record, or `nil`. -/
def isRecord (t : Ty) : Bool := t.isObject || t.isNil

/-- The types of which each member is a record or `nil`. -/
def Records (t : Ty) : Prop := ∀ m ∈ t.members, isRecord m = true

variable {f g h : Member → Member} {utility : String} {s t u : Ty} {ts us : List Ty}

theorem isRecord_iff : isRecord t = true ↔ (∃ o, t = .object o) ∨ t = .nil := by
  rw [isRecord, Bool.or_eq_true, isNil_iff]
  refine or_congr_left ?_
  cases t <;> simp [isObject]

theorem isUnion_of_isRecord (ht : isRecord t = true) : t.isUnion = false := by
  obtain ⟨o, rfl⟩ | rfl := isRecord_iff.1 ht
  · rfl
  · rfl

theorem isRecord_changed (ht : isRecord t = true) : isRecord (changed f t) = true := by
  obtain ⟨o, rfl⟩ | rfl := isRecord_iff.1 ht
  · rfl
  · rfl

/-- The change on a type that is no union. -/
theorem mapMembers_of_not_isUnion (ht : t.isUnion = false) :
    mapMembers utility f t =
      if isRecord t || t.isUnknown then .ok (changed f t) else .error (notObject utility t) := by
  cases t with
  | union ts => cases ht
  | prim p => cases p <;> simp [mapMembers, changed, isRecord, isObject, isNil, isUnknown]
  | _ => simp [mapMembers, changed, isRecord, isObject, isNil, isUnknown]

/-- Types that are all records are changed one by one. -/
theorem mapMembersList_of_records (hts : ∀ t ∈ ts, isRecord t = true) :
    mapMembersList utility f ts = .ok (ts.map (changed f)) := by
  induction ts with
  | nil => rfl
  | cons t ts ih =>
      have ht := hts t (.head _)
      rw [mapMembersList, mapMembers_of_not_isUnion (isUnion_of_isRecord ht), ht,
        ih fun u hu => hts u (.tail _ hu)]
      rfl

/-- **A type of records is changed member by member.** -/
theorem mapMembers_of_records (ht : Records t) :
    mapMembers utility f t = .ok (changedAll f t) := by
  by_cases hunion : t.isUnion = true
  · cases t with
    | union ts =>
        have hts : mapMembersList utility f ts = .ok (ts.map (changed f)) := mapMembersList_of_records ht
        rw [mapMembers]
        exact congrArg (Except.map unionOf) hts
    | _ => cases hunion
  · rw [Bool.not_eq_true] at hunion
    have hself : t.members = [t] := by cases t <;> first | rfl | cases hunion
    have hrecord : isRecord t = true := ht t (by rw [hself]; exact .head _)
    rw [mapMembers_of_not_isUnion hunion, hrecord, changedAll, hself, List.map_singleton,
      unionOf_singleton_of_not_isUnion (isUnion_of_isRecord (isRecord_changed hrecord))]
    rfl

/-- Only records can be changed. -/
theorem isRecord_of_mapMembersList (hunion : ∀ t ∈ ts, t.isUnion = false)
    (hunknown : ∀ t ∈ ts, t.isUnknown = false) (h : mapMembersList utility f ts = .ok us) :
    ∀ t ∈ ts, isRecord t = true := by
  induction ts generalizing us with
  | nil => simp
  | cons t ts ih =>
      rw [mapMembersList, mapMembers_of_not_isUnion (hunion t (.head _)), hunknown t (.head _),
        Bool.or_false] at h
      cases hrecord : isRecord t with
      | false =>
          rw [hrecord] at h
          cases h
      | true =>
          cases hrest : mapMembersList utility f ts with
          | error e =>
              rw [hrecord, hrest] at h
              cases h
          | ok vs =>
              rw [List.forall_mem_cons]
              exact ⟨hrecord, ih (fun u hu => hunion u (.tail _ hu)) (fun u hu => hunknown u (.tail _ hu)) hrest⟩

/-- Where a change succeeds, the type is `unknown` or one of records. -/
theorem mapMembers_cases (ht : t.Normal) (h : mapMembers utility f t = .ok s) :
    t = .unknown ∨ Records t := by
  by_cases hunion : t.isUnion = true
  · cases t with
    | union ts =>
        have hlist := (unionOf_eq_union_iff.1 ht.head).1
        rw [mapMembers] at h
        cases hts : mapMembersList utility f ts with
        | error e =>
            rw [hts] at h
            cases h
        | ok us => exact Or.inr (isRecord_of_mapMembersList hlist.isUnion hlist.isUnknown hts)
    | _ => cases hunion
  · rw [Bool.not_eq_true] at hunion
    have hself : t.members = [t] := by cases t <;> first | rfl | cases hunion
    rw [mapMembers_of_not_isUnion hunion] at h
    split_ifs at h with hrecord
    rw [Bool.or_eq_true, isUnknown_iff] at hrecord
    refine hrecord.symm.imp_right fun hrecord => ?_
    rw [Records, hself]
    simpa using hrecord

/-! ### No record is lost -/

section Lists

variable (hts : ∀ t ∈ ts, isRecord t = true)

include hts

theorem flatList_of_records : flatList ts = ts :=
  flatList_eq_self fun u hu => isUnion_of_isRecord (hts u hu)

/-- A record gives way to no wider type, so it or an equal one stands. -/
theorem exists_equal_mem_unionMembers (ht : t ∈ ts) : ∃ m ∈ unionMembers ts, m = t ∨ m.equal t = true := by
  have hnever : t.isNever = false := by
    obtain ⟨o, rfl⟩ | rfl := isRecord_iff.1 (hts t ht)
    · rfl
    · rfl
  have hflat : t ∈ flatList ts := by rwa [flatList_of_records hts]
  obtain ⟨m, hm, hin⟩ := exists_takenIn hflat hnever
  refine ⟨m, hm, ?_⟩
  obtain rfl | heq | hwider := hin
  · exact Or.inl rfl
  · exact Or.inr heq
  · have hrecord := hts t ht
    cases hwider <;> cases hrecord

/-- The members of a union of records, unless nothing was given. -/
theorem mem_members_unionOf (hne : ts ≠ []) {m : Ty} :
    m ∈ (unionOf ts).members ↔ m ∈ unionMembers ts := by
  have hknown : ∀ u ∈ flatList ts, u.isUnknown = false := by
    rw [flatList_of_records hts]
    intro u hu
    obtain ⟨o, rfl⟩ | rfl := isRecord_iff.1 (hts u hu)
    · rfl
    · rfl
  rw [unionOf_eq_ofMembers_unionMembers hknown, mem_members_ofMembers (unionList_unionMembers hknown).isUnion]
  refine or_iff_left fun h => ?_
  obtain ⟨t, ht⟩ := List.exists_mem_of_ne_nil ts hne
  obtain ⟨u, hu, -⟩ := exists_equal_mem_unionMembers hts ht
  rw [h.1] at hu
  cases hu

/-- What stands in a union of records was given. -/
theorem mem_of_mem_members (hne : ts ≠ []) {m : Ty} (hm : m ∈ (unionOf ts).members) : m ∈ ts := by
  rw [mem_members_unionOf hts hne] at hm
  obtain ⟨hgiven, -⟩ | ⟨-, hboth⟩ := mem_unionMembers_cases hm
  · rwa [flatList_of_records hts] at hgiven
  · have hbool := hboth true
    rw [flatList_of_records hts] at hbool
    cases hts _ hbool

theorem records_unionOf (hne : ts ≠ []) : Records (unionOf ts) := fun m hm =>
  hts m (mem_of_mem_members hts hne hm)

end Lists

/-! ### Changes -/

/-- Two changes turn equal members into equal ones. -/
def Agree (f g : Member → Member) : Prop :=
  ∀ m n : Member, m.type.Normal → n.type.Normal → SameMember equal m n → SameMember equal (f m) (g n)

/-- A change that keeps names and normal forms, and cannot tell equal members apart. -/
structure Modifier (f : Member → Member) : Prop where
  name : ∀ m, (f m).name = m.name
  normal : ∀ m, m.type.Normal → (f m).type.Normal
  agree : Agree f f

theorem Modifier.comp (hg : Modifier g) (hf : Modifier f) : Modifier (g ∘ f) where
  name m := (hg.name _).trans (hf.name m)
  normal m hm := hg.normal _ (hf.normal m hm)
  agree m n hm hn h := hg.agree _ _ (hf.normal m hm) (hf.normal n hn) (hf.agree m n hm hn h)

theorem names_map (hf : Modifier f) (o : Object) :
    ({ o with members := o.members.map f } : Object).names = o.names := by
  change (o.members.map f).map (·.name) = o.members.map (·.name)
  rw [List.map_map]
  exact List.map_congr_left fun m _ => hf.name m

theorem find?_map (hf : Modifier f) (o : Object) (x : String) :
    ({ o with members := o.members.map f } : Object).find? x = (o.find? x).map f := by
  change (o.members.map f).find? _ = (o.members.find? _).map f
  rw [List.find?_map]
  congr 2
  funext m
  exact congrArg (· == x) (hf.name m)

/-- A changed type is in normal form. -/
theorem Modifier.normal_changed (hf : Modifier f) (ht : t.Normal) : (changed f t).Normal := by
  cases t with
  | object o =>
      have hnames : (changed f (.object o)).NormalHead := (congrArg List.Nodup (names_map hf o)).mpr ht.head
      refine .intro hnames fun u hu => ?_
      cases hu with
      | member hm hu =>
          obtain ⟨m, hmem, rfl⟩ := List.mem_map.1 hm
          exact hu ▸ hf.normal m (ht.part (.member hmem rfl))
      | key hi hu => exact ht.part (.key hi hu)
      | value hi hu => exact ht.part (.value hi hu)
  | _ => exact ht

/-- Changes that agree turn equal types into equal ones. -/
theorem equal_changed (hf : Modifier f) (hg : Modifier g) (hfg : Agree f g) (ht : t.Normal) (hu : u.Normal)
    (h : t.equal u = true) : (changed f t).equal (changed g u) = true := by
  have hnode := h
  rw [equal_eq_sameNode ht.wellFormed hu.wellFormed] at hnode
  cases t with
  | object o =>
      obtain ⟨p, rfl, hsame⟩ := sameNode_object_iff.1 hnode
      obtain ⟨hmembers, hindex⟩ := (sameObject_iff ht.head hu.head).1 hsame
      rw [equal_eq_sameNode (hf.normal_changed ht).wellFormed (hg.normal_changed hu).wellFormed]
      refine sameNode_object_iff.2 ⟨_, rfl, (sameObject_iff (hf.normal_changed ht).head
        (hg.normal_changed hu).head).2 ⟨fun x => ?_, hindex⟩⟩
      rw [find?_map hf, find?_map hg]
      have hx := hmembers x
      cases ho : o.find? x <;> cases hp : p.find? x <;> rw [ho, hp] at hx <;> cases hx
      · exact .none
      · rename_i m n hmn
        exact .some (hfg m n (ht.part (.member (ObjectOf.mem_of_find? ho).1 rfl))
          (hu.part (.member (ObjectOf.mem_of_find? hp).1 rfl)) hmn)
  | _ =>
      have hstill : changed g u = u := by cases u <;> first | rfl | cases hnode
      rw [hstill]
      exact h

/-! ### Changes in a row -/

theorem changed_comp (f g : Member → Member) (t : Ty) : changed g (changed f t) = changed (g ∘ f) t := by
  cases t with
  | object o => simp [changed]
  | _ => rfl

theorem members_ne_nil (ht : t.Normal) : t.members ≠ [] := by
  cases t with
  | union ts =>
      have hlen := (unionOf_eq_union_iff.1 ht.head).2
      rintro rfl
      cases hlen
  | _ => exact List.cons_ne_nil _ _

section Row

variable (ht : t.Normal) (hrecords : Records t)

include hrecords

theorem isRecord_of_mem_map : ∀ m ∈ t.members.map (changed f), isRecord m = true := by
  intro m hm
  obtain ⟨n, hn, rfl⟩ := List.mem_map.1 hm
  exact isRecord_changed (hrecords n hn)

include ht

theorem records_changedAll : Records (changedAll f t) :=
  records_unionOf (isRecord_of_mem_map hrecords) (by simpa using members_ne_nil ht)

omit hrecords in
theorem Modifier.normal_changedAll (hf : Modifier f) : (changedAll f t).Normal := by
  refine normal_unionOf fun m hm => ?_
  obtain ⟨n, hn, rfl⟩ := List.mem_map.1 hm
  exact hf.normal_changed (ht.of_mem_members hn)

/-- **Two changes in a row are one**: records that become equal after the first change still are after
the second. -/
theorem equal_changedAll_comp (hf : Modifier f) (hg : Modifier g) (hh : Modifier h)
    (hagree : Agree (g ∘ f) h) : (changedAll g (changedAll f t)).equal (changedAll h t) = true := by
  have hone : ∀ m ∈ t.members, (changed g (changed f m)).equal (changed h m) = true := by
    intro m hm
    have hnormal := ht.of_mem_members hm
    rw [changed_comp]
    exact equal_changed (hg.comp hf) hh hagree hnormal hnormal (equivOn_wellFormed.refl hnormal.wellFormed)
  have hafter : ∀ m ∈ t.members.map (changed f), m.Normal := by
    intro m hm
    obtain ⟨n, hn, rfl⟩ := List.mem_map.1 hm
    exact hf.normal_changed (ht.of_mem_members hn)
  have hgiven : ∀ {m : Ty}, m ∈ (changedAll f t).members → m ∈ t.members.map (changed f) := fun hm =>
    mem_of_mem_members (isRecord_of_mem_map hrecords) (by simpa using members_ne_nil ht) hm
  have hfinal : ∀ m ∈ t.members, (changed h m).WellFormed := fun m hm =>
    (hh.normal_changed (ht.of_mem_members hm)).wellFormed
  have hboth : ∀ m ∈ t.members, (changed g (changed f m)).WellFormed := fun m hm =>
    (hg.normal_changed (hf.normal_changed (ht.of_mem_members hm))).wellFormed
  refine equal_unionOf (fun m hm => ?_) (fun m hm => ?_) (fun m hm => ?_) fun m hm => ?_
  · obtain ⟨n, hn, rfl⟩ := List.mem_map.1 hm
    exact hg.normal_changed (hafter n (hgiven hn))
  · obtain ⟨n, hn, rfl⟩ := List.mem_map.1 hm
    exact hh.normal_changed (ht.of_mem_members hn)
  · obtain ⟨n, hn, rfl⟩ := List.mem_map.1 hm
    obtain ⟨k, hk, hkn⟩ := exists_equal_mem_unionMembers (isRecord_of_mem_map hrecords)
      (List.mem_map_of_mem (f := changed f) hn)
    rw [← mem_members_unionOf (isRecord_of_mem_map hrecords) (by simpa using members_ne_nil ht)] at hk
    refine ⟨changed g k, List.mem_map_of_mem hk, ?_⟩
    obtain rfl | hkn := hkn
    · exact hone n hn
    · have hknormal := hafter k (hgiven hk)
      have hnnormal := hafter _ (List.mem_map_of_mem (f := changed f) hn)
      exact equivOn_wellFormed.trans (hg.normal_changed hknormal).wellFormed (hboth n hn) (hfinal n hn)
        (equal_changed hg hg hg.agree hknormal hnnormal hkn) (hone n hn)
  · obtain ⟨k, hk, rfl⟩ := List.mem_map.1 hm
    obtain ⟨n, hn, rfl⟩ := List.mem_map.1 (hgiven hk)
    exact ⟨changed h n, List.mem_map_of_mem hn, equivOn_wellFormed.symm (hboth n hn) (hfinal n hn) (hone n hn)⟩

end Row

/-! ### The three modifiers -/

def loosen (m : Member) : Member := { m with optional := true }

/-- The member made required, and without `nil`. -/
def tighten (m : Member) : Member := { m with optional := false, type := m.type.removeNil }

def fix (m : Member) : Member := { m with readonly := true }

theorem modifier_loosen : Modifier loosen where
  name _ := rfl
  normal _ hm := hm
  agree _ _ _ _ h := ⟨rfl, h.readonly, h.static, h.method, h.type⟩

theorem modifier_tighten : Modifier tighten where
  name _ := rfl
  normal _ hm := normal_removeNil hm
  agree _ _ hm hn h := ⟨rfl, h.readonly, h.static, h.method, equal_removeNil hm hn h.type⟩

theorem modifier_fix : Modifier fix where
  name _ := rfl
  normal _ hm := hm
  agree _ _ _ _ h := ⟨h.optional, rfl, h.static, h.method, h.type⟩

/-- Of two changes to required members the first one counts. -/
theorem agree_tighten_tighten : Agree (tighten ∘ tighten) tighten := fun m n hm hn h => by
  have htype := equal_removeNil hm hn h.type
  rw [← removeNil_removeNil hm] at htype
  exact ⟨rfl, h.readonly, h.static, h.method, htype⟩

/-- **The laws of the three modifiers**, on a type in normal form to which one of them applies: all three
apply, once more changes nothing, members made optional do not matter where they are made required, and
readonly members may be made optional before or after. -/
theorem modifier_algebra {t p : Ty} (ht : t.Normal) (hp : optional t = .ok p) :
    ∃ q r, required t = .ok q ∧ readonly t = .ok r ∧
      (∃ p', optional p = .ok p' ∧ p'.equal p = true) ∧
      (∃ q', required q = .ok q' ∧ q'.equal q = true) ∧
      (∃ r', readonly r = .ok r' ∧ r'.equal r = true) ∧
      (∃ s, required p = .ok s ∧ s.equal q = true) ∧
      ∃ s s', readonly p = .ok s ∧ optional r = .ok s' ∧ s.equal s' = true := by
  obtain rfl | hrecords := mapMembers_cases ht hp
  · obtain rfl : Ty.unknown = p := Except.ok.inj hp
    exact ⟨.unknown, .unknown, rfl, rfl, ⟨_, rfl, rfl⟩, ⟨_, rfl, rfl⟩, ⟨_, rfl, rfl⟩, ⟨_, rfl, rfl⟩,
      ⟨_, _, rfl, rfl, rfl⟩⟩
  · have happly : ∀ {utility f u}, Records u → mapMembers utility f u = .ok (changedAll f u) :=
      mapMembers_of_records
    have hafter : ∀ f, Records (changedAll f t) := fun f => records_changedAll ht hrecords
    obtain rfl : changedAll loosen t = p := Except.ok.inj ((happly hrecords).symm.trans hp)
    have hboth : ∀ f g, Modifier f → Modifier g → (changedAll g (changedAll f t)).Normal := fun f g hf hg =>
      hg.normal_changedAll (hf.normal_changedAll ht)
    have hcomm := modifier_fix.comp modifier_loosen
    have hleft := equal_changedAll_comp ht hrecords modifier_loosen modifier_fix hcomm hcomm.agree
    have hright := equal_changedAll_comp ht hrecords modifier_fix modifier_loosen hcomm hcomm.agree
    refine ⟨changedAll tighten t, changedAll fix t, happly hrecords, happly hrecords,
      ⟨_, happly (hafter _), ?_⟩, ⟨_, happly (hafter _), ?_⟩, ⟨_, happly (hafter _), ?_⟩,
      ⟨_, happly (hafter _), ?_⟩, ⟨_, _, happly (hafter _), happly (hafter _), ?_⟩⟩
    · exact equal_changedAll_comp ht hrecords modifier_loosen modifier_loosen modifier_loosen
        modifier_loosen.agree
    · exact equal_changedAll_comp ht hrecords modifier_tighten modifier_tighten modifier_tighten
        agree_tighten_tighten
    · exact equal_changedAll_comp ht hrecords modifier_fix modifier_fix modifier_fix modifier_fix.agree
    · exact equal_changedAll_comp ht hrecords modifier_loosen modifier_tighten modifier_tighten
        modifier_tighten.agree
    · exact equivOn_wellFormed.trans (hboth _ _ modifier_loosen modifier_fix).wellFormed
        (hcomm.normal_changedAll ht).wellFormed (hboth _ _ modifier_fix modifier_loosen).wellFormed hleft
        (equivOn_wellFormed.symm (hboth _ _ modifier_fix modifier_loosen).wellFormed
          (hcomm.normal_changedAll ht).wellFormed hright)

/-- A record of one number, which may be `nil`. -/
def reading (optional : Bool) : Ty :=
  .object { members := [{ name := "value", type := .union [.number, .nil], optional := optional }] }

theorem normal_reading (optional : Bool) : (reading optional).Normal := by
  refine .intro (List.nodup_singleton _) fun u hu => ?_
  cases hu with
  | member hm hu =>
      rw [List.mem_singleton.1 hm] at hu
      refine hu ▸ .intro rfl fun v hv => ?_
      cases hv with
      | union hv =>
          simp only [List.mem_cons, List.not_mem_nil, or_false] at hv
          obtain rfl | rfl := hv
          · exact normal_prim _
          · exact normal_prim _
  | key hi => cases hi
  | value hi => cases hi

/-- Two records that differ in a modifier become one. -/
theorem modifier_algebra_readings :
    optional (.union [reading true, reading false]) = .ok (reading true) ∧
      ∃ q, required (.union [reading true, reading false]) = .ok q ∧
        ∃ s, required (reading true) = .ok s ∧ s.equal q = true := by
  have hnormal : (Ty.union [reading true, reading false]).Normal := by
    refine .intro rfl fun u hu => ?_
    cases hu with
    | union hu =>
        simp only [List.mem_cons, List.not_mem_nil, or_false] at hu
        obtain rfl | rfl := hu
        · exact normal_reading _
        · exact normal_reading _
  have hp : optional (.union [reading true, reading false]) = .ok (reading true) := rfl
  obtain ⟨q, -, hq, -, -, -, -, hs, -⟩ := modifier_algebra hnormal hp
  exact ⟨hp, q, hq, hs⟩

end Utility

end TreeCheck
