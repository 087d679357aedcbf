import TreeCheck.Proofs.Env.Termination
import TreeCheck.Proofs.Ty.Free
import TreeCheck.Proofs.Ty.Regular

/-!
# Definitions that are read as they stand

Where no record and no tuple has an entry of the type `never`, reading a type never comes up empty: its
members and those of its records are not `never`, and neither are those of the definitions that it names.
Without type parameters nothing is put into a definition, so a name stands for what is written there.

* `Ty.NeverFree` — types in which no record member and no tuple element is `never`;
* `Ty.Legible`, `ObjectOf.Legible`, `Env.Legible` — types in normal form of this kind, without utility types,
  the records that can be read from them, and environments of such definitions;
* `Ty.legible_unionOf`, `Ty.Legible.of_mem_members`, `Ty.Legible.record` — such types are made of such types;
* `Yields` — what a lookup may find;
* `Env.Legible.resolveUpTo`, `Env.Legible.expand` — **names stand for such types, or for records of them**.
-/

namespace TreeCheck

namespace Ty

/-- `never` stands directly in the type, as a record member or as a tuple element. -/
def HoldsNever : Ty → Prop
  | .tuple es => .never ∈ es
  | .object o => ∃ m ∈ o.members, m.type = .never
  | _ => False

/-- No record member and no tuple element anywhere in the type is `never`. -/
inductive NeverFree : Ty → Prop
  | intro {t : Ty} : ¬ t.HoldsNever → (∀ u, Part u t → NeverFree u) → NeverFree t

/-- Types in normal form, generic signatures included, in which no utility type stands and no record member
and no tuple element is `never`. -/
structure Legible (t : Ty) : Prop where
  canonical : t.Canonical
  neverFree : t.NeverFree
  utilityFree : t.UtilityFree

variable {t u : Ty} {ts : List Ty}

theorem NeverFree.head (ht : t.NeverFree) : ¬ t.HoldsNever := by
  cases ht with
  | intro hhead _ => exact hhead

theorem NeverFree.part (ht : t.NeverFree) (hu : Part u t) : u.NeverFree := by
  cases ht with
  | intro _ hparts => exact hparts u hu

theorem neverFree_prim (p : Prim) : NeverFree (.prim p) := .intro id fun _ hu => nomatch hu

theorem neverFree_union (h : ∀ t ∈ ts, t.NeverFree) : NeverFree (.union ts) := by
  refine .intro id fun u hu => ?_
  cases hu with
  | union hu => exact h u hu

theorem canonical_union (hts : unionOf ts = .union ts) (h : ∀ t ∈ ts, t.Canonical) : Canonical (.union ts) := by
  refine .intro hts fun u hu => ?_
  cases hu with
  | part hu =>
      cases hu with
      | union hu => exact h u hu

theorem legible_prim (p : Prim) : Legible (.prim p) where
  canonical := (normal_prim p).canonical
  neverFree := neverFree_prim p
  utilityFree := .prim p

theorem legible_str (x : String) : Legible (.str x) where
  canonical := (normal_str x).canonical
  neverFree := .intro id fun _ hu => nomatch hu
  utilityFree := .lit _

theorem legible_tvar (v : String) : Legible (.tvar v) where
  canonical := canonical_tvar v
  neverFree := .intro id fun _ hu => nomatch hu
  utilityFree := .tvar le_top

/-- A tuple of types that can be read, none of them `never`. -/
theorem legible_tuple (h : ∀ t ∈ ts, t.Legible ∧ t ≠ .never) : Legible (.tuple ts) where
  canonical := by
    refine .intro trivial fun u hu => ?_
    cases hu with
    | part hu =>
        cases hu with
        | tuple hu => exact (h u hu).1.canonical
  neverFree := by
    refine .intro (fun hnever => (h _ hnever).2 rfl) fun u hu => ?_
    cases hu with
    | tuple hu => exact (h u hu).1.neverFree
  utilityFree := .tuple le_top fun t ht => (h t ht).1.utilityFree

/-- A name without arguments can be read, whatever it stands for. -/
theorem legible_name {x : String} (hx : isUtility x = false) : Legible (.ref x []) where
  canonical := by
    refine .intro trivial fun u hu => ?_
    cases hu with
    | part hu =>
        cases hu with
        | arg hu => exact absurd hu List.not_mem_nil
  neverFree := by
    refine .intro id fun u hu => ?_
    cases hu with
    | arg hu => exact absurd hu List.not_mem_nil
  utilityFree := utilityFree_ref_iff.2 ⟨hx, fun _ hu => absurd hu List.not_mem_nil⟩

/-- A record type of members that can be read, none of them `never`. -/
theorem legible_object {ms : List Member} (hnames : (ms.map (·.name)).Nodup)
    (h : ∀ m ∈ ms, m.type.Legible ∧ m.type ≠ .never) : Legible (.object { members := ms }) where
  canonical := canonical_object hnames ⟨fun m hm => (h m hm).1.canonical, by simp, by simp⟩
  neverFree := by
    refine .intro ?_ fun u hu => ?_
    · rintro ⟨m, hm, hnever⟩
      exact (h m hm).2 hnever
    · cases hu with
      | member hm hu => exact hu ▸ (h _ hm).1.neverFree
      | key hi _ => cases hi
      | value hi _ => cases hi
  utilityFree := utilityFree_object_iff.2 ⟨fun m hm => (h m hm).1.utilityFree, by simp, by simp⟩

/-- The members of a union can be read. -/
theorem Legible.of_mem_union (ht : Legible (.union ts)) (hu : u ∈ ts) : u.Legible where
  canonical := ht.canonical.part (.union hu)
  neverFree := ht.neverFree.part (.union hu)
  utilityFree := by
    cases ht.utilityFree with
    | union hts => exact hts u hu

theorem Legible.of_mem_members (ht : t.Legible) (hu : u ∈ t.members) : u.Legible := by
  cases t with
  | union ts => exact ht.of_mem_union hu
  | _ => rwa [List.mem_singleton.1 hu]

theorem Legible.unionList (ht : Legible (.union ts)) : UnionList ts ∧ 2 ≤ ts.length :=
  unionOf_eq_union_iff.1 ht.canonical.head

/-- A union of types that can be read can be read. -/
theorem legible_ofMembers (hlist : UnionList ts) (h : ∀ t ∈ ts, t.Legible) : (ofMembers ts).Legible := by
  match ts with
  | [] => exact legible_prim _
  | [t] => exact h t (.head _)
  | t :: u :: us =>
      exact ⟨canonical_union (unionOf_eq_ofMembers hlist) fun v hv => (h v hv).canonical,
        neverFree_union fun v hv => (h v hv).neverFree, .union fun v hv => (h v hv).utilityFree⟩

/-- The union of legible types is legible. -/
theorem legible_unionOf (h : ∀ t ∈ ts, t.Legible) : (unionOf ts).Legible := by
  have hflat : ∀ u ∈ flatList ts, u.Legible := by
    intro u hu
    rw [flatList_eq_flatMap] at hu
    obtain ⟨t, ht, hu⟩ := List.mem_flatMap.1 hu
    have hmembers : t.flat = t.members := by
      cases t with
      | union us => exact flat_eq_members (h _ ht).unionList.1.isUnion
      | _ => rfl
    exact (h t ht).of_mem_members (hmembers ▸ hu)
  by_cases hunknown : ∀ u ∈ flatList ts, u.isUnknown = false
  · rw [unionOf_eq_ofMembers_unionMembers hunknown]
    refine legible_ofMembers (unionList_unionMembers hunknown) fun u hu => ?_
    rcases mem_of_mem_unionMembers hu with hu | rfl
    · exact hflat u hu
    · exact legible_prim _
  · have hany : (flatList ts).any Ty.isUnknown = true := by
      rw [List.any_eq_true]
      simpa using hunknown
    rw [unionOf, unionWith, hany]
    exact legible_prim _

end Ty

/-! ### Records -/

/-- Every member of the record can be read, and none is `never`. -/
def ObjectOf.Legible (o : Object) : Prop := ∀ m ∈ o.members, m.type.Legible ∧ m.type ≠ .never

namespace ObjectOf

variable {o p : Object} {m : Member}

/-- A member after an insertion was there before or is the inserted one. -/
theorem mem_of_mem_insert {c : Member} (h : m ∈ (o.insert c).members) : m ∈ o.members ∨ m = c := by
  unfold insert at h
  simp only at h
  split at h
  · obtain ⟨d, hd, rfl⟩ := List.mem_map.1 h
    split
    · exact Or.inr rfl
    · exact Or.inl hd
  · exact (List.mem_append.1 h).imp_right List.mem_singleton.1

theorem mem_of_mem_insertAll {ms : List Member} (h : m ∈ (o.insertAll ms).members) : m ∈ o.members ∨ m ∈ ms := by
  unfold insertAll at h
  induction ms generalizing o with
  | nil => exact Or.inl h
  | cons c ms ih =>
      rcases ih h with h | h
      · exact (mem_of_mem_insert h).imp_right fun h => List.mem_cons.2 (Or.inl h)
      · exact Or.inr (.tail _ h)

/-- The members of an extended record come from one record or the other. -/
theorem mem_of_mem_extend (h : m ∈ (o.extend p).members) : m ∈ o.members ∨ m ∈ p.members := by
  refine mem_of_mem_insertAll ?_
  unfold extend at h
  simp only at h
  split at h <;> exact h

theorem Legible.extend (ho : o.Legible) (hp : p.Legible) : (o.extend p).Legible := fun m hm =>
  (mem_of_mem_extend hm).elim (ho m) (hp m)

end ObjectOf

/-- The members of a legible record type can be read. -/
theorem Ty.Legible.record {o : Object} (ho : Ty.Legible (.object o)) : o.Legible := by
  intro m hm
  refine ⟨⟨ho.canonical.part (.member hm rfl), ho.neverFree.part (.member hm rfl), ?_⟩, fun hnever => ?_⟩
  · exact (Ty.utilityFree_object_iff.1 ho.utilityFree).members m hm
  · exact ho.neverFree.head ⟨m, hm, hnever⟩

theorem Ty.legible_readType {m : Member} (hm : m.type.Legible) : m.readType.Legible := by
  unfold MemberOf.readType
  split
  · refine Ty.legible_unionOf fun u hu => ?_
    rcases List.mem_pair.1 hu with rfl | rfl
    · exact hm
    · exact Ty.legible_prim _
  · exact hm

/-- What a name may stand for: a type that can be read, or a record of such types. -/
def Ty.Revealed (t : Ty) : Prop := t.Legible ∨ ∃ o, t = .object o ∧ o.Legible

theorem Ty.Revealed.record {o : Object} (h : Ty.Revealed (.object o)) : o.Legible := by
  rcases h with h | ⟨p, heq, hp⟩
  · exact h.record
  · cases heq
    exact hp

/-! ### What lookups find -/

section

variable {α β γ : Type}

/-- What the lookup finds has the property. -/
def Yields (P : α → Prop) (q : Lookup α) : Prop := ∀ a, q.run = .ok (.ok a) → P a

variable {P : α → Prop} {R : β → Prop}

theorem yields_pure {a : α} (h : P a) : Yields P (pure a) := by
  intro b hb
  cases hb
  exact h

theorem yields_throw (err : TypeError) : Yields P (throw err) := by
  intro b hb
  cases hb

/-- A lookup may use what holds of the first result. -/
theorem Yields.bind {q : Lookup α} {f : α → Lookup β} (h : Yields P q) (hf : ∀ a, P a → Yields R (f a)) :
    Yields R (q >>= f) := by
  intro b hb
  cases hq : q.run with
  | error fault =>
      rw [ExceptT.run_bind, hq] at hb
      cases hb
  | ok o =>
      rw [ExceptT.run_bind, hq] at hb
      cases o with
      | error err => cases hb
      | ok a => exact hf a (h a hq) b hb

theorem yields_foldlM {f : α → γ → Lookup α} {xs : List γ} (hf : ∀ a, P a → ∀ x ∈ xs, Yields P (f a x)) {a : α}
    (h : P a) : Yields P (xs.foldlM f a) := by
  induction xs generalizing a with
  | nil => exact yields_pure h
  | cons x xs ih =>
      rw [List.foldlM_cons]
      exact (hf a h x (.head _)).bind fun b hb => ih (fun c hc y hy => hf c hc y (.tail _ hy)) hb

end

/-! ### Names -/

/-- Nothing is bound for no type parameters. -/
theorem yields_bindNamed_nil (x : String) (args : List Ty) : Yields (· = []) (bindNamed x [] args) := by
  unfold bindNamed
  split
  · exact yields_pure (P := (· = [])) rfl
  · exact yields_throw _

/-- An empty substitution puts in nothing. -/
theorem Ty.Canonical.apply_nil {t : Ty} (ht : t.Canonical) : t.apply [] = t := ht.apply_eq_self fun _ _ => rfl

namespace Env

/-- The environment has aliases and interfaces only, all without parameters, and their definitions can be
read. -/
structure Legible (e : Env) : Prop where
  monomorphic : e.Monomorphic
  classes : e.classes = []
  aliases : ∀ x a, e.alias? x = some a → a.body.Legible
  interfaces : ∀ x i, e.interface? x = some i →
    Ty.Legible (.object i.body) ∧ ∀ b ∈ i.bases, isUtility b.name = false

variable {e : Env}

/-- The record of an interface, if the names that it extends can be read. -/
theorem yields_interfaceWith {resolve : String → List Ty → Lookup Ty} {i : Interface} (hparams : i.params = [])
    (hbody : Ty.Legible (.object i.body))
    (hresolve : ∀ b ∈ i.bases, ∀ args, Yields Ty.Revealed (resolve b.name args)) (args : List Ty) :
    Yields ObjectOf.Legible (interfaceWith resolve i args) := by
  rw [interfaceWith, hparams]
  refine (yields_bindNamed_nil _ _).bind fun s hs => ?_
  subst hs
  have happly : i.body.apply [] = i.body := by
    injection hbody.canonical.apply_nil
  refine Yields.bind (P := ObjectOf.Legible) (yields_foldlM (fun o ho b hb => ?_) fun m hm => absurd hm List.not_mem_nil) fun o ho => ?_
  · refine (hresolve b hb _).bind fun t ht => ?_
    cases t with
    | object p => exact yields_pure (ho.extend ht.record)
    | _ => exact yields_pure ho
  · rw [happly]
    exact yields_pure (ho.extend hbody.record)

/-- **What a name stands for can be read**: the body of an alias, or a record of members that can be read. -/
theorem Legible.resolveUpTo (he : e.Legible) (n : ℕ) (active : List String) {x : String} (args : List Ty)
    (hx : isUtility x = false) : Yields Ty.Revealed (e.resolveUpTo n active x args) := by
  induction n generalizing active x args with
  | zero =>
      intro t ht
      cases ht
  | succ n ih =>
      rw [Env.resolveUpTo]
      cases hbuiltin : builtin? x with
      | some t =>
          simp only
          split
          · obtain ⟨p, -, rfl⟩ := prim_of_builtin? hbuiltin
            exact yields_pure (Or.inl (Ty.legible_prim p))
          · exact yields_throw _
      | none =>
          simp only [hx, Bool.false_eq_true, if_false]
          split
          · exact yields_throw _
          · cases halias : e.alias? x with
            | some a =>
                have hparams : a.params = [] := he.monomorphic x _ (by simp [typeParams?, halias])
                have hbody := he.aliases x a halias
                simp only [hparams]
                refine (yields_bindNamed_nil _ _).bind fun s hs => ?_
                subst hs
                rw [hbody.canonical.apply_nil]
                cases hshape : a.body with
                | ref y as =>
                    rw [hshape] at hbody
                    exact ih _ as (Ty.utilityFree_ref_iff.1 hbody.utilityFree).1
                | _ => exact yields_pure (Or.inl (hshape ▸ hbody))
            | none =>
                simp only
                cases hinterface : e.interface? x with
                | some i =>
                    have hparams : i.params = [] := he.monomorphic x _ (by simp [typeParams?, halias, hinterface])
                    obtain ⟨hbody, hbases⟩ := he.interfaces x i hinterface
                    exact (yields_interfaceWith hparams hbody (fun b hb as => ih _ as (hbases b hb)) args).bind
                      fun o ho => yields_pure (Or.inr ⟨o, rfl, ho⟩)
                | none =>
                    have hclass : e.class? x = none := by
                      rw [class?, he.classes]
                      rfl
                    simp only [hclass]
                    exact yields_throw _

/-- **Names stand for what can be read.** -/
theorem Legible.expand (he : e.Legible) {x : String} {args : List Ty} {u : Ty} (hx : isUtility x = false)
    (h : e.resolver.expand (.ref x args) = .ok (some u)) : u.Revealed := by
  simp only [resolver, resolverWith, expandWith] at h
  cases hrun : (e.resolve x args).run with
  | error f =>
      rw [hrun] at h
      cases h
  | ok o =>
      rw [hrun] at h
      cases o with
      | error err => cases h
      | ok t =>
          cases h
          exact he.resolveUpTo _ _ args hx u hrun

end Env

end TreeCheck
