import Mathlib
import TreeCheck.Proofs.Ty.Names
import TreeCheck.Proofs.Ty.Node
import TreeCheck.Proofs.Ty.Substitution

/-!
# The references in a type

A reference stands in a type at a node, or in an argument of another reference; the type parameters of
signatures do not count, as rebuilding leaves them alone.

* `Ty.RefIn`, `Ty.Everywhere` — a reference that stands in a type, and what holds of all of them;
* `Ty.everywhere_unionOf`, `Ty.everywhere_interOf` — normal forms bring in no references;
* `Ty.everywhere_apply` — after a substitution there are the references of the type, with a part of the
  substitution in their arguments, and those that are put in;
* `Replies`, `Ty.replies_rebuildM` — a rebuilding ends, and what holds of the references that it leaves.
-/

namespace TreeCheck

namespace Ty

/-- The reference stands in the type, not counting the type parameters of signatures. -/
inductive RefIn (x : String) (args : List Ty) : Ty → Prop
  | here : RefIn x args (.ref x args)
  | part {u t : Ty} : Part u t → RefIn x args u → RefIn x args t

/-- The references in the type have a property, those in arguments too. -/
def Everywhere (P : String → List Ty → Prop) (t : Ty) : Prop := ∀ x args, RefIn x args t → P x args

section

variable {P Q : String → List Ty → Prop} {t u : Ty}

theorem Everywhere.mono (h : Everywhere P t) (hPQ : ∀ x args, P x args → Q x args) : Everywhere Q t :=
  fun x args hx => hPQ x args (h x args hx)

theorem Everywhere.part (h : Everywhere P t) (hu : Part u t) : Everywhere P u :=
  fun x args hx => h x args (.part hu hx)

theorem everywhere_of_parts (ht : t.isRef = false) (h : ∀ u, Part u t → Everywhere P u) : Everywhere P t := by
  intro x args hx
  cases hx with
  | here => cases ht
  | part hu hx => exact h _ hu x args hx

/-- A condition holds everywhere in a reference if it holds of it and in its arguments. -/
theorem everywhere_ref_iff {x : String} {args : List Ty} :
    Everywhere P (.ref x args) ↔ P x args ∧ ∀ a ∈ args, Everywhere P a := by
  constructor
  · exact fun h => ⟨h x args .here, fun a ha => h.part (.arg ha)⟩
  · rintro ⟨hx, hargs⟩ y bs hy
    cases hy with
    | here => exact hx
    | part hu hy =>
        cases hu with
        | arg ha => exact hargs _ ha y bs hy

theorem everywhere_prim (p : Prim) : Everywhere P (.prim p) := everywhere_of_parts rfl nofun

theorem everywhere_tvar (v : String) : Everywhere P (.tvar v) := everywhere_of_parts rfl nofun

theorem everywhere_union {ts : List Ty} (h : ∀ u ∈ ts, Everywhere P u) : Everywhere P (.union ts) := by
  refine everywhere_of_parts rfl fun u hu => ?_
  cases hu with
  | union hu => exact h u hu

theorem everywhere_inter {ts : List Ty} (h : ∀ u ∈ ts, Everywhere P u) : Everywhere P (.inter ts) := by
  refine everywhere_of_parts rfl fun u hu => ?_
  cases hu with
  | inter hu => exact h u hu

theorem everywhere_object_iff {o : Object} : Everywhere P (.object o) ↔ Entries (Everywhere P) o := by
  constructor
  · intro h
    exact ⟨fun m hm => h.part (.member hm rfl), fun i hi => h.part (.key hi rfl), fun i hi => h.part (.value hi rfl)⟩
  · intro h
    refine everywhere_of_parts rfl fun u hu => ?_
    cases hu with
    | member hm hu => exact hu ▸ h.members _ hm
    | key hi hu => exact hu ▸ h.key _ hi
    | value hi hu => exact hu ▸ h.value _ hi

/-! ### Normal forms -/

mutual
theorem Everywhere.flat : ∀ {t : Ty}, Everywhere P t → ∀ u ∈ t.flat, Everywhere P u
  | .union ts, h, u, hu => by
      rw [Ty.flat] at hu
      exact everywhere_flatList (fun t ht => h.part (.union ht)) u hu
  | .prim _, h, u, hu | .lit _, h, u, hu | .array _, h, u, hu | .tuple _, h, u, hu
  | .object _, h, u, hu | .func _, h, u, hu | .pred _ _, h, u, hu | .inter _, h, u, hu
  | .ref _ _, h, u, hu | .tvar _, h, u, hu | .classRef _, h, u, hu => by
      rwa [List.mem_singleton.1 hu]

theorem everywhere_flatList : ∀ {ts : List Ty}, (∀ t ∈ ts, Everywhere P t) →
    ∀ u ∈ flatList ts, Everywhere P u
  | [], _, u, hu => by cases hu
  | t :: ts, h, u, hu => by
      rw [flatList, List.mem_append] at hu
      rcases hu with hu | hu
      · exact Everywhere.flat (h t (.head _)) u hu
      · exact everywhere_flatList (fun t ht => h t (.tail _ ht)) u hu
end

theorem everywhere_unionOf {ts : List Ty} (h : ∀ t ∈ ts, Everywhere P t) : Everywhere P (unionOf ts) :=
  unionWith_induction _ everywhere_prim (fun _ => everywhere_union) (everywhere_flatList h)

theorem Everywhere.of_mem_parts (h : Everywhere P t) (hu : u ∈ t.parts) : Everywhere P u := by
  cases t with
  | inter ts => exact h.part (.inter hu)
  | _ => rwa [List.mem_singleton.1 hu]

/-- It holds everywhere in an intersection if it does in the parts. -/
theorem everywhere_interWith (eq : Ty → Ty → Bool) (k : ℕ) {ts : List Ty} (h : ∀ t ∈ ts, Everywhere P t) :
    Everywhere P (interWith eq k ts) := by
  induction k generalizing ts with
  | zero => exact everywhere_inter h
  | succ k ih =>
      have hmembers : ∀ t ∈ ts.flatMap parts, Everywhere P t := by
        intro t ht
        obtain ⟨u, hu, ht⟩ := List.mem_flatMap.1 ht
        exact (h u hu).of_mem_parts ht
      have hmeet : ∀ a b, Everywhere P a → Everywhere P b → Everywhere P (interWith eq k [a, b]) :=
        fun a b ha hb => ih (by simp [ha, hb])
      have hobjects : ∀ o ∈ objectsOf (ts.flatMap parts), Entries (Everywhere P) o := by
        intro o ho
        obtain ⟨t, ht, hto⟩ := List.mem_filterMap.1 ho
        cases t with
        | object p =>
            cases hto
            exact everywhere_object_iff.1 (hmembers _ ht)
        | _ => cases hto
      simp only [interWith]
      split
      · exact everywhere_prim _
      · refine ofParts_induction everywhere_prim (fun _ => everywhere_inter) fun u hu => ?_
        rcases List.mem_append.1 hu with hu | hu
        · obtain ⟨o, ho, rfl⟩ := List.mem_map.1 hu
          exact everywhere_object_iff.2 (Entries.mergeObjects hmeet hobjects (Option.mem_toList.1 ho))
        · exact hmembers u (List.mem_of_mem_filter ((distinctWith_sublist _ _).subset hu))

theorem everywhere_interOf {ts : List Ty} (h : ∀ t ∈ ts, Everywhere P t) : Everywhere P (interOf ts) :=
  everywhere_interWith _ _ h

end

/-! ### Substitutions -/

/-- **The references after a substitution**: those of the type, with a part of the substitution in their
arguments, and those that are put in. -/
theorem everywhere_apply {P : String → List Ty → Prop} {t : Ty} {s : Subst}
    (hs : ∀ v a, s.get? v = some a → Everywhere P a)
    (ht : ∀ x args s', RefIn x args t → (∀ v a, Assoc.get? s' v = some a → s.get? v = some a) →
      P x (args.map (apply s'))) : Everywhere P (t.apply s) := by
  induction t using child_induction generalizing s with
  | h t ih =>
      have hpart : ∀ {u : Ty}, Part u t → Everywhere P (u.apply s) := fun hu =>
        ih _ (.part hu) hs fun x args s' hx => ht x args s' (.part hu hx)
      cases t with
      | prim p => exact everywhere_prim p
      | lit l => exact everywhere_of_parts rfl nofun
      | classRef x => exact everywhere_of_parts rfl nofun
      | tvar v =>
          rw [apply_tvar]
          cases hv : s.get? v with
          | none => exact everywhere_tvar v
          | some a => exact hs v a hv
      | array e =>
          refine everywhere_of_parts rfl fun u hu => ?_
          cases hu
          exact hpart .array
      | pred x e =>
          refine everywhere_of_parts rfl fun u hu => ?_
          cases hu
          exact hpart .pred
      | tuple es =>
          rw [apply_tuple]
          refine everywhere_of_parts rfl fun u hu => ?_
          cases hu with
          | tuple hu =>
              obtain ⟨e, he, rfl⟩ := List.mem_map.1 hu
              exact hpart (.tuple he)
      | union ts =>
          rw [apply_union]
          refine everywhere_unionOf fun u hu => ?_
          obtain ⟨e, he, rfl⟩ := List.mem_map.1 hu
          exact hpart (.union he)
      | inter ts =>
          rw [apply_inter]
          refine everywhere_interOf fun u hu => ?_
          obtain ⟨e, he, rfl⟩ := List.mem_map.1 hu
          exact hpart (.inter he)
      | ref x args =>
          rw [apply_ref]
          refine everywhere_ref_iff.2 ⟨ht x args s .here fun _ _ => id, fun a ha => ?_⟩
          obtain ⟨b, hb, rfl⟩ := List.mem_map.1 ha
          exact hpart (.arg hb)
      | object o =>
          rw [apply_object]
          refine everywhere_object_iff.2 ⟨fun m hm => ?_, fun i hi => ?_, fun i hi => ?_⟩
          · obtain ⟨m', hm', rfl⟩ := List.mem_map.1 hm
            exact hpart (.member hm' rfl)
          · obtain ⟨j, hj, rfl⟩ := Option.map_eq_some_iff.1 hi
            exact hpart (.key hj rfl)
          · obtain ⟨j, hj, rfl⟩ := Option.map_eq_some_iff.1 hi
            exact hpart (.value hj rfl)
      | func f =>
          -- the own type parameters take their names out of the substitution
          have hless : ∀ v a, (s.without (typeParamNames f.tparams)).get? v = some a → s.get? v = some a := by
            intro v a hv
            rw [Subst.get?_without] at hv
            split at hv
            · cases hv
            · exact hv
          have hpart' : ∀ {u : Ty}, Part u (.func f) →
              Everywhere P (u.apply (s.without (typeParamNames f.tparams))) := fun hu =>
            ih _ (.part hu) (fun v a hv => hs v a (hless v a hv))
              fun x args s' hx hs' => ht x args s' (.part hu hx) fun v a hv => hless v a (hs' v a hv)
          refine everywhere_of_parts rfl fun u hu => ?_
          rw [apply, applyWith] at hu
          cases hu with
          | param hp hu =>
              rw [applyParamsWith_eq_map] at hp
              obtain ⟨q, hq, rfl⟩ := List.mem_map.1 hp
              exact hu ▸ hpart' (.param hq rfl)
          | ret hr =>
              rw [applyOptionWith_eq_map] at hr
              obtain ⟨r, hr', rfl⟩ := Option.map_eq_some_iff.1 hr
              exact hpart' (.ret hr')

end Ty

/-! ### Answers -/

/-- The question is answered, and the answer has a property.  Where there is a flaw, the answer may be that a
default is missing. -/
def Replies {α : Type} (flaw : Prop) (P : α → Prop) (q : Query α) : Prop :=
  match q with
  | .ok a => P a
  | .error f => f = .missingDefault ∧ flaw

section

variable {α β : Type} {flaw : Prop} {P : α → Prop} {R : β → Prop} {q : Query α}

theorem replies_pure {a : α} (h : P a) : Replies flaw P (pure a) := h

/-- A query may go on with what was replied. -/
theorem Replies.bind {f : α → Query β} (h : Replies flaw P q) (hf : ∀ a, P a → Replies flaw R (f a)) :
    Replies flaw R (q >>= f) := by
  cases q with
  | ok a => exact hf a h
  | error e => exact h

/-- What is said of the replies may be relaxed. -/
theorem Replies.mono {P' : α → Prop} (h : Replies flaw P q) (hP : ∀ a, P a → P' a) : Replies flaw P' q := by
  cases q with
  | ok a => exact hP a h
  | error e => exact h

/-- The answer is the answer. -/
theorem Replies.self (h : Replies flaw P q) : Replies flaw (fun a => q = .ok a ∧ P a) q := by
  cases q with
  | ok a => exact ⟨rfl, h⟩
  | error e => exact h

end

/-! ### Rebuilding -/

namespace Ty

section

variable {flaw : Prop} {f : Ty → Query Ty} {P : Ty → Prop} {R : Ty → Ty → Prop}

/-- A list is rebuilt entry by entry, or the flaw of an entry is met. -/
theorem replies_rebuildListM {ts : List Ty} (h : ∀ t ∈ ts, Replies flaw (R t) (rebuildM f t)) :
    Replies flaw (List.Forall₂ R ts) (rebuildListM f ts) := by
  induction ts with
  | nil => exact .nil
  | cons t ts ih =>
      rw [rebuildListM]
      exact (h t (.head _)).bind fun u hu => (ih fun v hv => h v (.tail _ hv)).bind fun us hus =>
        replies_pure (.cons hu hus)

/-- So are members. -/
theorem replies_rebuildMembersM {ms : List Member} (h : ∀ m ∈ ms, Replies flaw P (rebuildM f m.type)) :
    Replies flaw (fun ms' => ∀ m ∈ ms', P m.type) (rebuildMembersM f ms) := by
  induction ms with
  | nil => exact fun _ hm => nomatch hm
  | cons m ms ih =>
      rw [rebuildMembersM]
      exact (h m (.head _)).bind fun u hu => (ih fun n hn => h n (.tail _ hn)).bind fun ms' hms' =>
        replies_pure (List.forall_mem_cons.2 ⟨hu, hms'⟩)

/-- So are parameters. -/
theorem replies_rebuildParamsM {ps : List Param} (h : ∀ p ∈ ps, Replies flaw P (rebuildM f p.type)) :
    Replies flaw (fun ps' => ∀ p ∈ ps', P p.type) (rebuildParamsM f ps) := by
  induction ps with
  | nil => exact fun _ hp => nomatch hp
  | cons p ps ih =>
      rw [rebuildParamsM]
      exact (h p (.head _)).bind fun u hu => (ih fun q hq => h q (.tail _ hq)).bind fun ps' hps' =>
        replies_pure (List.forall_mem_cons.2 ⟨hu, hps'⟩)

/-- So is a type that may be missing. -/
theorem replies_rebuildOptionM {t : Option Ty} (h : ∀ u, t = some u → Replies flaw P (rebuildM f u)) :
    Replies flaw (fun r => ∀ u, r = some u → P u) (rebuildOptionM f t) := by
  cases t with
  | none => exact fun _ hu => nomatch hu
  | some u =>
      rw [rebuildOptionM]
      exact (h u rfl).bind fun v hv => replies_pure fun w hw => Option.some.inj hw ▸ hv

/-- So are the key and the value of an index. -/
theorem replies_rebuildIndexM {i : Option Index} (hkey : ∀ j, i = some j → Replies flaw P (rebuildM f j.key))
    (hvalue : ∀ j, i = some j → Replies flaw P (rebuildM f j.value)) :
    Replies flaw (fun r => ∀ j, r = some j → P j.key ∧ P j.value) (rebuildIndexM f i) := by
  cases i with
  | none => exact fun _ hj => nomatch hj
  | some j =>
      rw [rebuildIndexM]
      exact (hkey j rfl).bind fun k hk => (hvalue j rfl).bind fun v hv => replies_pure fun j' hj' => by
        cases hj'
        exact ⟨hk, hv⟩

end

/-- An entry of the second list is related to one of the first. -/
theorem exists_left_of_forall₂ {α β : Type} {R : α → β → Prop} {as : List α} {bs : List β}
    (h : List.Forall₂ R as bs) {b : β} (hb : b ∈ bs) : ∃ a ∈ as, R a b := by
  induction h with
  | nil => cases hb
  | cons hab _ ih =>
      rcases List.mem_cons.1 hb with rfl | hb
      · exact ⟨_, .head _, hab⟩
      · obtain ⟨a, ha, hR⟩ := ih hb
        exact ⟨a, .tail _ ha, hR⟩

/-- **What rebuilding leaves.**  If the references of a type can be replaced once their arguments are rebuilt, and
what is left may be looked at again, then rebuilding ends and leaves references of that kind. -/
theorem replies_rebuildM {flaw : Prop} {f : Ty → Query Ty} {P K : String → List Ty → Prop} {t : Ty}
    (ht : Everywhere P t) (hagain : ∀ u, Everywhere K u → Replies flaw (Everywhere K) (f u))
    (hname : ∀ x args args', P x args →
      List.Forall₂ (fun a a' => rebuildM f a = .ok a' ∧ Everywhere K a') args args' →
        Replies flaw (Everywhere K) (f (.ref x args'))) :
    Replies flaw (Everywhere K) (rebuildM f t) := by
  induction t using child_induction with
  | h t ih =>
      have hpart : ∀ {u : Ty}, Part u t → Replies flaw (Everywhere K) (rebuildM f u) := fun hu =>
        ih _ (.part hu) (ht.part hu)
      have hlist : ∀ {us : List Ty}, (∀ u ∈ us, Part u t) →
          Replies flaw (List.Forall₂ (fun a a' => rebuildM f a = .ok a' ∧ Everywhere K a') us)
            (rebuildListM f us) := fun hus => replies_rebuildListM fun u hu => (hpart (hus u hu)).self
      have hall : ∀ {us us' : List Ty},
          List.Forall₂ (fun a a' => rebuildM f a = .ok a' ∧ Everywhere K a') us us' →
            ∀ u ∈ us', Everywhere K u := by
        intro us us' h u hu
        obtain ⟨v, -, hv⟩ := exists_left_of_forall₂ h hu
        exact hv.2
      cases t with
      | prim p => exact hagain _ (everywhere_prim p)
      | lit l => exact hagain _ (everywhere_of_parts rfl nofun)
      | tvar v => exact hagain _ (everywhere_tvar v)
      | classRef x => exact hagain _ (everywhere_of_parts rfl nofun)
      | array e =>
          rw [rebuildM]
          refine (hpart .array).bind fun u hu => hagain _ (everywhere_of_parts rfl fun v hv => ?_)
          cases hv
          exact hu
      | pred x e =>
          rw [rebuildM]
          refine (hpart .pred).bind fun u hu => hagain _ (everywhere_of_parts rfl fun v hv => ?_)
          cases hv
          exact hu
      | tuple es =>
          rw [rebuildM]
          refine (hlist fun u hu => .tuple hu).bind fun us hus => hagain _ (everywhere_of_parts rfl fun v hv => ?_)
          cases hv with
          | tuple hv => exact hall hus v hv
      | union ts =>
          rw [rebuildM]
          exact (hlist fun u hu => .union hu).bind fun us hus => hagain _ (everywhere_unionOf (hall hus))
      | inter ts =>
          rw [rebuildM]
          exact (hlist fun u hu => .inter hu).bind fun us hus => hagain _ (everywhere_interOf (hall hus))
      | ref x args =>
          rw [rebuildM]
          exact (hlist fun u hu => .arg hu).bind fun us hus => hname x args us (ht x args .here) hus
      | object o =>
          rw [rebuildM]
          refine (replies_rebuildMembersM fun m hm => hpart (.member hm rfl)).bind fun ms hms => ?_
          refine (replies_rebuildIndexM (fun j hj => hpart (.key hj rfl)) fun j hj => hpart (.value hj rfl)).bind
            fun i hi => hagain _ (everywhere_object_iff.2 ⟨hms, fun j hj => (hi j hj).1, fun j hj => (hi j hj).2⟩)
      | func g =>
          rw [rebuildM]
          refine (replies_rebuildParamsM fun p hp => hpart (.param hp rfl)).bind fun ps hps => ?_
          refine (replies_rebuildOptionM fun r hr => hpart (.ret hr)).bind fun r hr =>
            hagain _ (everywhere_of_parts rfl fun u hu => ?_)
          cases hu with
          | param hp hu => exact hu ▸ hps _ hp
          | ret hu => exact hr u hu

end Ty

end TreeCheck
