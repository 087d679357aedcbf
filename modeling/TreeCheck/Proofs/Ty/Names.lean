import Mathlib
import TreeCheck.Proofs.Ty.Depth
import TreeCheck.Ty.Rebuild

/-!
# The names in a type

A type refers to named types at its nodes and, where rebuilding does not reach, in the constraints and
defaults of the type parameters of its signatures.

* `Ty.Refers` — every name in a type belongs to a set, those in constraints and defaults too;
* `Ty.Names` — the names at the nodes of a type are settled, wait to be replaced, or are the own names
  of a recursive definition; those in constraints and defaults are settled;
* `Ty.names_unionOf`, `Ty.names_interOf` — normal forms bring in no names;
* `Ty.rebuildM_names` — rebuilding a type whose names are replaced leaves the others;
* `Ty.names_renameRef` — a recursive definition under another name.
-/

namespace TreeCheck.Ty

open Std.Do

set_option mvcgen.warning false

def isRef : Ty → Bool
  | .ref _ _ => true
  | _ => false

/-- The constraint or the default of a type parameter of a signature. -/
inductive Bound (c : Ty) : Ty → Prop
  | constraint {f : Func} {p : TypeParam} : p ∈ f.tparams → p.constraint = some c → Bound c (.func f)
  | default {f : Func} {p : TypeParam} : p ∈ f.tparams → p.default = some c → Bound c (.func f)

/-- Every name in the type belongs to a set, also the names in constraints and defaults. -/
inductive Refers (R : Set String) : Ty → Prop
  | intro {t : Ty} (href : ∀ x args, t = .ref x args → x ∈ R) (hclass : ∀ x, t = .classRef x → x ∈ R)
      (hbound : ∀ c, Bound c t → Refers R c) (hparts : ∀ u, Part u t → Refers R u) : Refers R t

theorem Refers.mono {R R' : Set String} {t : Ty} (h : Refers R t) (hR : R ⊆ R') : Refers R' t := by
  induction h with
  | intro href hclass _ _ ihbound ihparts =>
      exact .intro (fun x args ht => hR (href x args ht)) (fun x ht => hR (hclass x ht)) ihbound ihparts

/-- The names at the nodes of a type are settled, wait to be replaced (`Q`, with the number of their
arguments), or are own names, which do not stand in arguments.  Constraints and defaults refer to
settled names only. -/
inductive Names (C : Set String) (Q : String → ℕ → Prop) : Set String → Ty → Prop
  | intro {own : Set String} {t : Ty}
      (href : ∀ x args, t = .ref x args → x ∈ C ∨ Q x args.length ∨ x ∈ own)
      (hclass : ∀ x, t = .classRef x → x ∈ C) (hbound : ∀ c, Bound c t → Refers C c)
      (hargs : ∀ a, Part a t → t.isRef = true → Names C Q ∅ a)
      (hparts : ∀ u, Part u t → t.isRef = false → Names C Q own u) : Names C Q own t

/-- No name of the type waits to be replaced. -/
abbrev Settled (C : Set String) : Set String → Ty → Prop := Names C fun _ _ => False

section

variable {C : Set String} {Q Q' : String → ℕ → Prop} {own own' : Set String} {t : Ty}

/-- Conditions on the names may be relaxed. -/
theorem Names.mono (h : Names C Q own t) (hQ : ∀ x n, Q x n → Q' x n) (hown : own ⊆ own') :
    Names C Q' own' t := by
  induction h generalizing own' with
  | intro href hclass hbound _ _ ihargs ihparts =>
      refine .intro (fun x args ht => ?_) hclass hbound (fun a ha hr => ihargs a ha hr subset_rfl)
        fun u hu hr => ihparts u hu hr hown
      exact (href x args ht).imp_right (Or.imp (hQ x _) (@hown x))

theorem Names.refers (h : Settled C own t) : Refers (C ∪ own) t := by
  induction h with
  | @intro own t href hclass hbound _ _ ihargs ihparts =>
      refine .intro (fun x args ht => ?_) (fun x ht => Or.inl (hclass x ht))
        (fun c hc => (hbound c hc).mono Set.subset_union_left) fun u hu => ?_
      · rcases href x args ht with h | h | h
        · exact Or.inl h
        · exact h.elim
        · exact Or.inr h
      · cases hr : t.isRef with
        | false => exact ihparts u hu hr
        | true => exact (ihargs u hu hr).mono (by simp)

theorem Refers.names (h : Refers C t) : Names C Q own t := by
  induction h generalizing own with
  | intro href hclass hbound _ _ ihparts =>
      exact .intro (fun x args ht => Or.inl (href x args ht)) hclass hbound
        (fun a ha _ => ihparts a ha) fun u hu _ => ihparts u hu

/-- The parts of a type have its names. -/
theorem Names.part (h : Names C Q own t) (ht : t.isRef = false) {u : Ty} (hu : Part u t) :
    Names C Q own u := by
  cases h with
  | intro _ _ _ _ hparts => exact hparts u hu ht

/-- A type that is no name names what its parts name. -/
theorem names_of_parts (hnamed : t.isNamed = false) (hbound : ∀ c, Bound c t → Refers C c)
    (hparts : ∀ u, Part u t → Names C Q own u) : Names C Q own t := by
  refine .intro (fun x args ht => ?_) (fun x ht => ?_) hbound (fun a _ hr => ?_)
    fun u hu _ => hparts u hu
  · rw [ht] at hnamed
    cases hnamed
  · rw [ht] at hnamed
    cases hnamed
  · cases t with
    | ref x args => cases hnamed
    | _ => cases hr

theorem names_prim (p : Prim) : Names C Q own (.prim p) :=
  names_of_parts rfl nofun nofun

theorem names_union {ts : List Ty} (h : ∀ u ∈ ts, Names C Q own u) : Names C Q own (.union ts) := by
  refine names_of_parts rfl nofun fun u hu => ?_
  cases hu with
  | union hu => exact h u hu

theorem names_inter {ts : List Ty} (h : ∀ u ∈ ts, Names C Q own u) : Names C Q own (.inter ts) := by
  refine names_of_parts rfl nofun fun u hu => ?_
  cases hu with
  | inter hu => exact h u hu

theorem names_object_iff {o : Object} : Names C Q own (.object o) ↔ Entries (Names C Q own) o := by
  constructor
  · intro h
    exact ⟨fun m hm => h.part rfl (.member hm rfl), fun i hi => h.part rfl (.key hi rfl),
      fun i hi => h.part rfl (.value hi rfl)⟩
  · intro h
    refine names_of_parts rfl nofun fun u hu => ?_
    cases hu with
    | member hm hu => exact hu ▸ h.members _ hm
    | key hi hu => exact hu ▸ h.key _ hi
    | value hi hu => exact hu ▸ h.value _ hi

theorem names_record {ms : List Member} (h : ∀ m ∈ ms, Names C Q own m.type) :
    Names C Q own (.object { members := ms }) :=
  names_object_iff.2 ⟨h, fun _ hi => (by cases hi), fun _ hi => by cases hi⟩

/-- A reference has good names if its own is good and its arguments have. -/
theorem names_ref {x : String} {args : List Ty} (hx : x ∈ C ∨ Q x args.length ∨ x ∈ own)
    (hargs : ∀ a ∈ args, Names C Q ∅ a) : Names C Q own (.ref x args) := by
  refine .intro (fun y bs h => ?_) nofun nofun (fun a ha _ => ?_) nofun
  · cases h
    exact hx
  · cases ha with
    | arg ha => exact hargs a ha

/-- The name and the arguments of a reference with good names are good. -/
theorem Names.of_ref {x : String} {args : List Ty} (h : Names C Q own (.ref x args)) :
    (x ∈ C ∨ Q x args.length ∨ x ∈ own) ∧ ∀ a ∈ args, Names C Q ∅ a := by
  cases h with
  | intro href _ _ hargs _ => exact ⟨href x args rfl, fun a ha => hargs a (.arg ha) rfl⟩

/-! ### Normal forms -/

mutual
theorem Names.flat : ∀ {t : Ty}, Names C Q own t → ∀ u ∈ t.flat, Names C Q own u
  | .union ts, h, u, hu => by
      rw [Ty.flat] at hu
      exact names_flatList (fun t ht => h.part rfl (.union ht)) u hu
  | .prim _, h, u, hu | .lit _, h, u, hu | .array _, h, u, hu | .tuple _, h, u, hu
  | .object _, h, u, hu | .func _, h, u, hu | .pred _ _, h, u, hu | .inter _, h, u, hu
  | .ref _ _, h, u, hu | .tvar _, h, u, hu | .classRef _, h, u, hu => by
      rwa [List.mem_singleton.1 hu]

theorem names_flatList : ∀ {ts : List Ty}, (∀ t ∈ ts, Names C Q own t) →
    ∀ u ∈ flatList ts, Names C Q own u
  | [], _, u, hu => by cases hu
  | t :: ts, h, u, hu => by
      rw [flatList, List.mem_append] at hu
      rcases hu with hu | hu
      · exact Names.flat (h t (.head _)) u hu
      · exact names_flatList (fun t ht => h t (.tail _ ht)) u hu
end

theorem names_unionOf {ts : List Ty} (h : ∀ t ∈ ts, Names C Q own t) : Names C Q own (unionOf ts) :=
  unionWith_induction _ names_prim (fun _ => names_union) (names_flatList h)

theorem Names.of_mem_parts (h : Names C Q own t) {u : Ty} (hu : u ∈ t.parts) : Names C Q own u := by
  cases t with
  | inter ts => exact h.part rfl (.inter hu)
  | _ => rwa [List.mem_singleton.1 hu]

/-- An intersection of types with good names has good names. -/
theorem names_interWith (eq : Ty → Ty → Bool) (k : Nat) {ts : List Ty}
    (h : ∀ t ∈ ts, Names C Q own t) : Names C Q own (interWith eq k ts) := by
  induction k generalizing ts with
  | zero => exact names_inter h
  | succ k ih =>
      have hmembers : ∀ t ∈ ts.flatMap parts, Names C Q own t := by
        intro t ht
        obtain ⟨u, hu, ht⟩ := List.mem_flatMap.1 ht
        exact (h u hu).of_mem_parts ht
      have hmeet : ∀ a b, Names C Q own a → Names C Q own b →
          Names C Q own (interWith eq k [a, b]) := fun a b ha hb => ih (by simp [ha, hb])
      have hobjects : ∀ o ∈ objectsOf (ts.flatMap parts), Entries (Names C Q own) o := by
        intro o ho
        obtain ⟨t, ht, hto⟩ := List.mem_filterMap.1 ho
        cases t with
        | object p =>
            cases hto
            exact names_object_iff.1 (hmembers _ ht)
        | _ => cases hto
      simp only [interWith]
      split
      · exact names_prim _
      · refine ofParts_induction names_prim (fun _ => names_inter) fun u hu => ?_
        rcases List.mem_append.1 hu with hu | hu
        · obtain ⟨o, ho, rfl⟩ := List.mem_map.1 hu
          exact names_object_iff.2 (Entries.mergeObjects hmeet hobjects (Option.mem_toList.1 ho))
        · exact hmembers u (List.mem_of_mem_filter ((distinctWith_sublist _ _).subset hu))

theorem names_interOf {ts : List Ty} (h : ∀ t ∈ ts, Names C Q own t) : Names C Q own (interOf ts) :=
  names_interWith _ _ h

end

/-! ### Rebuilding -/

section

variable {m : Type → Type} {ps : PostShape} [Monad m] [WPMonad m ps] {f : Ty → m Ty} {P : Ty → Prop}

/-- A rebuilt list keeps its length and has good entries. -/
theorem rebuildListM_spec {ts : List Ty} (h : ∀ t ∈ ts, ⦃⌜True⌝⦄ rebuildM f t ⦃⇓? u => ⌜P u⌝⦄) :
    ⦃⌜True⌝⦄ rebuildListM f ts ⦃⇓? us => ⌜us.length = ts.length ∧ ∀ u ∈ us, P u⌝⦄ := by
  induction ts with
  | nil =>
      rw [rebuildListM]
      mvcgen
      simp
  | cons t ts ih =>
      have hhead := h t (.head _)
      have htail := ih fun u hu => h u (.tail _ hu)
      rw [rebuildListM]
      mvcgen [hhead, htail]
      simp_all

/-- Rebuilt members have good types. -/
theorem rebuildMembersM_spec {xs : List Member}
    (h : ∀ x ∈ xs, ⦃⌜True⌝⦄ rebuildM f x.type ⦃⇓? u => ⌜P u⌝⦄) :
    ⦃⌜True⌝⦄ rebuildMembersM f xs ⦃⇓? ys => ⌜∀ y ∈ ys, P y.type⌝⦄ := by
  induction xs with
  | nil =>
      rw [rebuildMembersM]
      mvcgen
      simp
  | cons x xs ih =>
      have hhead := h x (.head _)
      have htail := ih fun y hy => h y (.tail _ hy)
      rw [rebuildMembersM]
      mvcgen [hhead, htail]
      simp_all

/-- So have rebuilt parameters. -/
theorem rebuildParamsM_spec {xs : List Param}
    (h : ∀ x ∈ xs, ⦃⌜True⌝⦄ rebuildM f x.type ⦃⇓? u => ⌜P u⌝⦄) :
    ⦃⌜True⌝⦄ rebuildParamsM f xs ⦃⇓? ys => ⌜∀ y ∈ ys, P y.type⌝⦄ := by
  induction xs with
  | nil =>
      rw [rebuildParamsM]
      mvcgen
      simp
  | cons x xs ih =>
      have hhead := h x (.head _)
      have htail := ih fun y hy => h y (.tail _ hy)
      rw [rebuildParamsM]
      mvcgen [hhead, htail]
      simp_all

/-- So has a rebuilt type that may be missing. -/
theorem rebuildOptionM_spec {t : Option Ty}
    (h : ∀ u, t = some u → ⦃⌜True⌝⦄ rebuildM f u ⦃⇓? v => ⌜P v⌝⦄) :
    ⦃⌜True⌝⦄ rebuildOptionM f t ⦃⇓? r => ⌜∀ v, r = some v → P v⌝⦄ := by
  cases t with
  | none =>
      rw [rebuildOptionM]
      mvcgen
      simp
  | some u =>
      have hu := h u rfl
      rw [rebuildOptionM]
      mvcgen [hu]
      simp_all

/-- So have the key and the value of a rebuilt index. -/
theorem rebuildIndexM_spec {i : Option Index}
    (hkey : ∀ j, i = some j → ⦃⌜True⌝⦄ rebuildM f j.key ⦃⇓? u => ⌜P u⌝⦄)
    (hvalue : ∀ j, i = some j → ⦃⌜True⌝⦄ rebuildM f j.value ⦃⇓? u => ⌜P u⌝⦄) :
    ⦃⌜True⌝⦄ rebuildIndexM f i ⦃⇓? r => ⌜∀ j, r = some j → P j.key ∧ P j.value⌝⦄ := by
  cases i with
  | none =>
      rw [rebuildIndexM]
      mvcgen
      simp
  | some j =>
      have hk := hkey j rfl
      have hv := hvalue j rfl
      rw [rebuildIndexM]
      mvcgen [hk, hv]
      simp_all

variable {C : Set String} {Q : String → ℕ → Prop} {own : Set String} {t : Ty}

/-- One layer of rebuilding: a type that is no reference is put together from its rebuilt parts, with
the type parameters that it had. -/
theorem rebuildM_layer (hkeep : ∀ u, Names C Q own u → ⦃⌜True⌝⦄ f u ⦃⇓? v => ⌜Names C Q own v⌝⦄)
    (hnot : t.isRef = false) (hclass : ∀ x, t = .classRef x → x ∈ C)
    (hbound : ∀ c, Bound c t → Refers C c)
    (hparts : ∀ u, Part u t → ⦃⌜True⌝⦄ rebuildM f u ⦃⇓? v => ⌜Names C Q own v⌝⦄) :
    ⦃⌜True⌝⦄ rebuildM f t ⦃⇓? v => ⌜Names C Q own v⌝⦄ := by
  cases t with
  | ref x args => cases hnot
  | prim p => exact hkeep _ (names_of_parts rfl hbound nofun)
  | lit l => exact hkeep _ (names_of_parts rfl hbound nofun)
  | tvar v => exact hkeep _ (names_of_parts rfl hbound nofun)
  | classRef x => exact hkeep _ (.intro nofun hclass hbound nofun nofun)
  | array e =>
      have he := hparts e .array
      rw [rebuildM]
      mvcgen [he, hkeep]
      intro hr
      refine names_of_parts rfl nofun fun u hu => ?_
      cases hu
      exact hr
  | pred x e =>
      have he := hparts e .pred
      rw [rebuildM]
      mvcgen [he, hkeep]
      intro hr
      refine names_of_parts rfl nofun fun u hu => ?_
      cases hu
      exact hr
  | tuple es =>
      have hes := rebuildListM_spec fun e he => hparts e (.tuple he)
      rw [rebuildM]
      mvcgen [hes, hkeep]
      intro _ hus
      refine names_of_parts rfl nofun fun u hu => ?_
      cases hu with
      | tuple hu => exact hus u hu
  | union ts =>
      have hts := rebuildListM_spec fun e he => hparts e (.union he)
      rw [rebuildM]
      mvcgen [hts, hkeep]
      exact fun _ => names_unionOf
  | inter ts =>
      have hts := rebuildListM_spec fun e he => hparts e (.inter he)
      rw [rebuildM]
      mvcgen [hts, hkeep]
      exact fun _ => names_interOf
  | object o =>
      have hms := rebuildMembersM_spec fun x hx => hparts x.type (.member hx rfl)
      have hi := rebuildIndexM_spec (fun j hj => hparts j.key (.key hj rfl))
        fun j hj => hparts j.value (.value hj rfl)
      rw [rebuildM]
      mvcgen [hms, hi, hkeep]
      rename_i hmembers _
      intro hindex
      exact names_object_iff.2 ⟨hmembers, fun j hj => (hindex j hj).1, fun j hj => (hindex j hj).2⟩
  | func g =>
      have hps := rebuildParamsM_spec fun x hx => hparts x.type (.param hx rfl)
      have hr := rebuildOptionM_spec fun u hu => hparts u (.ret hu)
      rw [rebuildM]
      mvcgen [hps, hr, hkeep]
      rename_i hparams _
      intro hret
      refine names_of_parts rfl (fun c hc => ?_) fun u hu => ?_
      · cases hc with
        | constraint hp hc => exact hbound c (.constraint hp hc)
        | default hp hc => exact hbound c (.default hp hc)
      · cases hu with
        | param hp hu => exact hu ▸ hparams _ hp
        | ret hu => exact hret u hu

/-- **Rebuilding settles names.**  If the names that wait are replaced by settled types, and what is
settled stays, only settled names are left, and the new own names in place of the own names. -/
theorem rebuildM_names (own' : Set String) (ht : Names C Q own t)
    (hkeep₀ : ∀ u, Settled C ∅ u → ⦃⌜True⌝⦄ f u ⦃⇓? v => ⌜Settled C ∅ v⌝⦄)
    (hkeep : ∀ u, Settled C own' u → ⦃⌜True⌝⦄ f u ⦃⇓? v => ⌜Settled C own' v⌝⦄)
    (hwaits : ∀ x args, Q x args.length → (∀ a ∈ args, Settled C ∅ a) →
      ⦃⌜True⌝⦄ f (.ref x args) ⦃⇓? v => ⌜Settled C ∅ v⌝⦄)
    (hown : ∀ x args, x ∈ own → (∀ a ∈ args, Settled C ∅ a) →
      ⦃⌜True⌝⦄ f (.ref x args) ⦃⇓? v => ⌜Settled C own' v⌝⦄) :
    ⦃⌜True⌝⦄ rebuildM f t ⦃⇓? v => ⌜Settled C own' v⌝⦄ := by
  induction ht generalizing own' with
  | @intro own t href hclass hbound _ _ ihargs ihparts =>
      by_cases hr : t.isRef = false
      · exact rebuildM_layer hkeep hr hclass hbound fun u hu => ihparts u hu hr own' hkeep hown
      · obtain ⟨x, args, rfl⟩ : ∃ x args, t = .ref x args := by
          cases t with
          | ref x args => exact ⟨x, args, rfl⟩
          | _ => exact absurd rfl hr
        have hargs := rebuildListM_spec fun a ha => ihargs a (.arg ha) rfl ∅ hkeep₀ nofun
        have hname : ∀ us : List Ty, us.length = args.length → (∀ u ∈ us, Settled C ∅ u) →
            ⦃⌜True⌝⦄ f (.ref x us) ⦃⇓? v => ⌜Settled C own' v⌝⦄ := by
          intro us hlen hus
          rcases href x args rfl with hx | hx | hx
          · exact hkeep _ (names_ref (Or.inl hx) hus)
          · have hx := hwaits x us (hlen ▸ hx) hus
            mvcgen [hx]
            exact SPred.pure_mono fun hv => hv.mono (fun _ _ => id) (Set.empty_subset _)
          · exact hown x us hx hus
        rw [rebuildM]
        mvcgen [hargs, hname]
        all_goals simp_all

end

/-! ### Renaming -/

theorem mentionsList_eq_any (x : String) (ts : List Ty) : mentionsList x ts = ts.any (mentions x) := by
  induction ts with
  | nil => rfl
  | cons t ts ih => rw [mentionsList, List.any_cons, ih]

theorem mentionsMembers_eq_any (x : String) (ms : List Member) :
    mentionsMembers x ms = ms.any fun m => m.type.mentions x := by
  induction ms with
  | nil => rfl
  | cons m ms ih => rw [mentionsMembers, List.any_cons, ih]

theorem mentionsParams_eq_any (x : String) (ps : List Param) :
    mentionsParams x ps = ps.any fun p => p.type.mentions x := by
  induction ps with
  | nil => rfl
  | cons p ps ih => rw [mentionsParams, List.any_cons, ih]

/-- The parts of a type mention no name that the type does not. -/
theorem mentions_part {x : String} {u t : Ty} (ht : t.mentions x = false) (hu : Part u t) :
    u.mentions x = false := by
  cases hu with
  | array | pred => exact ht
  | tuple hu | union hu | inter hu =>
      rw [mentions, mentionsList_eq_any] at ht
      simpa using List.any_eq_false.1 ht u hu
  | arg hu =>
      rw [mentions, mentionsList_eq_any] at ht
      simpa using List.any_eq_false.1 (Bool.or_eq_false_iff.1 ht).2 u hu
  | member hm hu =>
      rw [mentions, mentionsMembers_eq_any] at ht
      simpa [← hu] using List.any_eq_false.1 (Bool.or_eq_false_iff.1 ht).1 _ hm
  | key hi hu | value hi hu =>
      rw [mentions, hi, mentionsIndex] at ht
      simp_all
  | param hp hu =>
      rw [mentions, mentionsParams_eq_any] at ht
      simpa [← hu] using List.any_eq_false.1 (Bool.or_eq_false_iff.1 ht).1 _ hp
  | ret hu =>
      rw [mentions, hu, mentionsOption] at ht
      exact (Bool.or_eq_false_iff.1 ht).2

/-- An own name that is not mentioned may be left out. -/
theorem Names.of_not_mentions {C : Set String} {Q : String → ℕ → Prop} {x : String} {own : Set String}
    {t : Ty} (h : Names C Q own t) (hown : own ⊆ {x}) (ht : t.mentions x = false) : Names C Q ∅ t := by
  induction h with
  | intro href hclass hbound hargs hparts ihargs ihparts =>
      refine .intro (fun y args h => ?_) hclass hbound hargs fun u hu hr =>
        ihparts u hu hr hown (mentions_part ht hu)
      subst h
      refine (href y args rfl).imp_right (Or.imp_right fun hy => ?_)
      obtain rfl := hown hy
      simp [mentions] at ht

/-- **A recursive definition under another name.**  Its own name is replaced wherever it stands. -/
theorem names_renameRef {C : Set String} {t : Ty} {old new : String} (hold : old ∉ C)
    (ht : Settled C {old} t) : Settled C {new} (t.renameRef old new) := by
  unfold renameRef
  split
  · next h =>
      rcases h with rfl | h
      · exact ht
      · exact (ht.of_not_mentions subset_rfl (by simpa using h)).mono (fun _ _ => id)
          (Set.empty_subset _)
  · refine Id.of_wp_run_eq rfl (Settled C {new}) ?_
    refine (rebuildM_names {new} ht ?_ ?_ nofun ?_).entails_wp_of_post ?_
    · intro u hu
      mvcgen
      split
      · next x args =>
          have hx : x ≠ old := by
            rintro rfl
            simpa [hold] using hu.of_ref.1
          rwa [if_neg hx]
      · exact hu
    · intro u hu
      mvcgen
      split
      · next x args =>
          split
          · exact names_ref (Or.inr (Or.inr rfl)) hu.of_ref.2
          · exact hu
      · exact hu
    · rintro x args rfl hargs
      mvcgen
      exact names_ref (Or.inr (Or.inr rfl)) hargs
    · exact ⟨fun _ h => h, trivial⟩

end TreeCheck.Ty
