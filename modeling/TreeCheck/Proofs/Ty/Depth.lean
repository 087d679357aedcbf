import Mathlib.Data.ENat.Basic
import TreeCheck.Proofs.Ty.Capture
import TreeCheck.Proofs.Ty.Normal

/-!
# Depth of types

Size is no bound for types that are brought into normal form: merging the records of an intersection
makes new intersections below.  Depth is, when unions and intersections do not count.  A type variable
counts as deep as what it may be replaced by, so depth is relative to a weight for each variable.

* `Ty.Within` — a type of at most some depth, all of whose references have a property; the depth `⊤`
  leaves only the property;
* `Ty.Mentions`, `Ty.Within.of_mentions` — only the weights of free variables matter;
* `Ty.within_unionWith`, `Ty.within_interWith` — normal forms are not deeper;
* `Ty.within_applyWith` — nor are types after a substitution;
* `Ty.Within.exists_nat` — every type has a finite depth, if variables have.
-/

namespace TreeCheck

/-- The weights with some names made weightless. -/
def hideNames (w : String → ℕ∞) (ns : List String) (v : String) : ℕ∞ := if v ∈ ns then 0 else w v

theorem hideNames_le (w : String → ℕ∞) (ns : List String) (v : String) : hideNames w ns v ≤ w v := by
  unfold hideNames
  split
  · exact zero_le
  · exact le_refl _

theorem hideNames_nil (w : String → ℕ∞) : hideNames w [] = w := rfl

/-- The types of the entries of a record have a property. -/
structure Entries (P : Ty → Prop) (o : Object) : Prop where
  members : ∀ m ∈ o.members, P m.type
  key : ∀ i, o.index = some i → P i.key
  value : ∀ i, o.index = some i → P i.value

theorem Entries.empty {P : Ty → Prop} : Entries P {} := ⟨by simp, by simp, by simp⟩

namespace Ty

/-- The type is at most `n` deep, a variable `v` counting `w v`, and its references have the property
`Q`.  Unions and intersections do not count, and the arguments of references may be of any depth. -/
inductive Within (Q : String → Prop) : (String → ℕ∞) → ℕ∞ → Ty → Prop
  | prim {w : String → ℕ∞} {n : ℕ∞} (p : Prim) : Within Q w n (.prim p)
  | lit {w : String → ℕ∞} {n : ℕ∞} (l : Lit) : Within Q w n (.lit l)
  | array {w : String → ℕ∞} {n : ℕ∞} {e : Ty} : 1 ≤ n → Within Q w (n - 1) e →
      Within Q w n (.array e)
  | tuple {w : String → ℕ∞} {n : ℕ∞} {es : List Ty} : 1 ≤ n → (∀ e ∈ es, Within Q w (n - 1) e) →
      Within Q w n (.tuple es)
  | object {w : String → ℕ∞} {n : ℕ∞} {o : Object} : 1 ≤ n →
      (∀ m ∈ o.members, Within Q w (n - 1) m.type) →
      (∀ i, o.index = some i → Within Q w (n - 1) i.key) →
      (∀ i, o.index = some i → Within Q w (n - 1) i.value) → Within Q w n (.object o)
  | func {w : String → ℕ∞} {n : ℕ∞} {f : Func} : 1 ≤ n →
      (∀ p ∈ f.params, Within Q (hideNames w (typeParamNames f.tparams)) (n - 1) p.type) →
      (∀ t, f.ret = some t → Within Q (hideNames w (typeParamNames f.tparams)) (n - 1) t) →
      Within Q w n (.func f)
  | pred {w : String → ℕ∞} {n : ℕ∞} (x : String) (t : Ty) : Within Q w n (.pred x t)
  | union {w : String → ℕ∞} {n : ℕ∞} {ts : List Ty} : (∀ t ∈ ts, Within Q w n t) →
      Within Q w n (.union ts)
  | inter {w : String → ℕ∞} {n : ℕ∞} {ts : List Ty} : (∀ t ∈ ts, Within Q w n t) →
      Within Q w n (.inter ts)
  | ref {w : String → ℕ∞} {n : ℕ∞} {x : String} {args : List Ty} : Q x →
      (∀ a ∈ args, Within Q w ⊤ a) → Within Q w n (.ref x args)
  | tvar {w : String → ℕ∞} {n : ℕ∞} {v : String} : w v ≤ n → Within Q w n (.tvar v)
  | classRef {w : String → ℕ∞} {n : ℕ∞} (x : String) : Within Q w n (.classRef x)

section

variable {Q : String → Prop} {w w' : String → ℕ∞} {n m : ℕ∞} {t : Ty}

/-- A type within a depth is within a larger one. -/
theorem Within.mono (h : Within Q w n t) (hnm : n ≤ m) : Within Q w m t := by
  induction h generalizing m with
  | prim p => exact .prim p
  | lit l => exact .lit l
  | array hn _ ih => exact .array (hn.trans hnm) (ih (tsub_le_tsub_right hnm 1))
  | tuple hn _ ih => exact .tuple (hn.trans hnm) fun e he => ih e he (tsub_le_tsub_right hnm 1)
  | object hn _ _ _ ihm ihk ihv =>
      exact .object (hn.trans hnm) (fun x hx => ihm x hx (tsub_le_tsub_right hnm 1))
        (fun i hi => ihk i hi (tsub_le_tsub_right hnm 1))
        fun i hi => ihv i hi (tsub_le_tsub_right hnm 1)
  | func hn _ _ ihp ihr =>
      exact .func (hn.trans hnm) (fun p hp => ihp p hp (tsub_le_tsub_right hnm 1))
        fun t ht => ihr t ht (tsub_le_tsub_right hnm 1)
  | pred x t => exact .pred x t
  | union _ ih => exact .union fun t ht => ih t ht hnm
  | inter _ ih => exact .inter fun t ht => ih t ht hnm
  | ref hx hargs _ => exact .ref hx hargs
  | tvar hv => exact .tvar (hv.trans hnm)
  | classRef x => exact .classRef x

/-- Without a bound on the depth, the weights do not matter. -/
theorem Within.forget (h : Within Q w n t) : Within Q w' ⊤ t := by
  induction h generalizing w' with
  | prim p => exact .prim p
  | lit l => exact .lit l
  | array _ _ ih => exact .array le_top ih
  | tuple _ _ ih => exact .tuple le_top fun e he => ih e he
  | object _ _ _ _ ihm ihk ihv =>
      exact .object le_top (fun m hm => ihm m hm) (fun i hi => ihk i hi) fun i hi => ihv i hi
  | func _ _ _ ihp ihr => exact .func le_top (fun p hp => ihp p hp) fun t ht => ihr t ht
  | pred x t => exact .pred x t
  | union _ ih => exact .union fun t ht => ih t ht
  | inter _ ih => exact .inter fun t ht => ih t ht
  | ref hx _ ih => exact .ref hx fun a ha => ih a ha
  | tvar _ => exact .tvar le_top
  | classRef x => exact .classRef x

/-- The variable stands free in the type, not counting the arguments of references. -/
inductive Mentions (v : String) : Ty → Prop
  | tvar : Mentions v (.tvar v)
  | part {t u : Ty} : t.isNamed = false → (∀ f, t = .func f → v ∉ typeParamNames f.tparams) →
      Part u t → Mentions v u → Mentions v t

/-- Only the weights of the variables that stand free matter. -/
theorem Within.of_mentions (h : Within Q w n t) (hw : ∀ v, Mentions v t → w' v ≤ w v) :
    Within Q w' n t := by
  induction h generalizing w' with
  | prim p => exact .prim p
  | lit l => exact .lit l
  | array hn _ ih => exact .array hn (ih fun v hv => hw v (.part rfl (by simp) .array hv))
  | tuple hn _ ih =>
      exact .tuple hn fun e he => ih e he fun v hv => hw v (.part rfl (by simp) (.tuple he) hv)
  | object hn _ _ _ ihm ihk ihv =>
      exact .object hn
        (fun m hm => ihm m hm fun v hv => hw v (.part rfl (by simp) (.member hm rfl) hv))
        (fun i hi => ihk i hi fun v hv => hw v (.part rfl (by simp) (.key hi rfl) hv))
        fun i hi => ihv i hi fun v hv => hw v (.part rfl (by simp) (.value hi rfl) hv)
  | @func w n f hn _ _ ihp ihr =>
      have hhide : ∀ {u : Ty}, Part u (.func f) → ∀ v, Mentions v u →
          hideNames w' (typeParamNames f.tparams) v ≤ hideNames w (typeParamNames f.tparams) v := by
        intro u hu v hv
        unfold hideNames
        split
        · exact le_refl _
        · rename_i hv'
          refine hw v (.part rfl (fun g hg => ?_) hu hv)
          cases hg
          exact hv'
      exact .func hn (fun p hp => ihp p hp (hhide (.param hp rfl)))
        fun t ht => ihr t ht (hhide (.ret ht))
  | pred x t => exact .pred x t
  | union _ ih => exact .union fun t ht => ih t ht fun v hv => hw v (.part rfl (by simp) (.union ht) hv)
  | inter _ ih => exact .inter fun t ht => ih t ht fun v hv => hw v (.part rfl (by simp) (.inter ht) hv)
  | ref hx hargs _ => exact .ref hx fun a ha => (hargs a ha).forget
  | tvar hv => exact .tvar ((hw _ .tvar).trans hv)
  | classRef x => exact .classRef x

theorem within_object_iff {o : Object} :
    Within Q w n (.object o) ↔ 1 ≤ n ∧ Entries (Within Q w (n - 1)) o := by
  constructor
  · intro h
    cases h with
    | object hn hm hk hv => exact ⟨hn, hm, hk, hv⟩
  · rintro ⟨hn, h⟩
    exact .object hn h.members h.key h.value

end

/-! ### Finite depths -/

section

variable {Q : String → Prop}

/-- A depth that is enough for every entry of a list. -/
theorem exists_nat_forall {α : Type} {w : String → ℕ∞} (type : α → Ty) (xs : List α)
    (h : ∀ x ∈ xs, ∃ n : ℕ, Within Q w n (type x)) : ∃ n : ℕ, ∀ x ∈ xs, Within Q w n (type x) := by
  induction xs with
  | nil => exact ⟨0, fun x hx => nomatch hx⟩
  | cons x xs ih =>
      obtain ⟨n, hn⟩ := h x (.head _)
      obtain ⟨m, hm⟩ := ih fun y hy => h y (.tail _ hy)
      refine ⟨max n m, fun y hy => ?_⟩
      rcases List.mem_cons.1 hy with rfl | hy
      · exact hn.mono (by exact_mod_cast le_max_left n m)
      · exact (hm y hy).mono (by exact_mod_cast le_max_right n m)

/-- **Every type has a finite depth**, if all variables have finite weights. -/
theorem Within.exists_nat {w w' : String → ℕ∞} {n : ℕ∞} {t : Ty} (h : Within Q w' n t)
    (hw : ∀ v, w v ≠ ⊤) : ∃ k : ℕ, Within Q w k t := by
  have hpred : ∀ {k : ℕ} {u : Ty} {w : String → ℕ∞}, Within Q w k u →
      Within Q w (((k + 1 : ℕ) : ℕ∞) - 1) u := fun h => h.mono (by norm_cast)
  have hpos : ∀ k : ℕ, (1 : ℕ∞) ≤ ((k + 1 : ℕ) : ℕ∞) := fun k => by simp
  induction h generalizing w with
  | prim p => exact ⟨0, .prim p⟩
  | lit l => exact ⟨0, .lit l⟩
  | array _ _ ih =>
      obtain ⟨k, hk⟩ := ih hw
      exact ⟨k + 1, .array (hpos k) (hpred hk)⟩
  | @tuple _ _ es _ _ ih =>
      obtain ⟨k, hk⟩ := exists_nat_forall id _ fun e he => ih e he hw
      exact ⟨k + 1, .tuple (hpos k) fun e he => hpred (hk e he)⟩
  | @object _ _ o _ _ _ _ ihm ihk ihv =>
      obtain ⟨a, ha⟩ := exists_nat_forall (fun m : Member => m.type) _ fun m hm => ihm m hm hw
      obtain ⟨b, hb⟩ := exists_nat_forall (fun i : Index => i.key) o.index.toList
        fun i hi => ihk i (Option.mem_toList.1 hi) hw
      obtain ⟨c, hc⟩ := exists_nat_forall (fun i : Index => i.value) o.index.toList
        fun i hi => ihv i (Option.mem_toList.1 hi) hw
      refine ⟨a + b + c + 1, .object (hpos _) (fun m hm => ?_) (fun i hi => ?_) fun i hi => ?_⟩
      · exact hpred ((ha m hm).mono (by exact_mod_cast (by omega : a ≤ a + b + c)))
      · exact hpred ((hb i (Option.mem_toList.2 hi)).mono
          (by exact_mod_cast (by omega : b ≤ a + b + c)))
      · exact hpred ((hc i (Option.mem_toList.2 hi)).mono
          (by exact_mod_cast (by omega : c ≤ a + b + c)))
  | @func _ _ f _ _ _ ihp ihr =>
      have hhide : ∀ v, hideNames w (typeParamNames f.tparams) v ≠ ⊤ := fun v htop =>
        hw v (top_le_iff.1 (htop ▸ hideNames_le w _ v))
      obtain ⟨a, ha⟩ := exists_nat_forall (fun p : Param => p.type) _
        fun p hp => ihp p hp hhide
      obtain ⟨b, hb⟩ := exists_nat_forall id f.ret.toList
        fun t ht => ihr t (Option.mem_toList.1 ht) hhide
      refine ⟨a + b + 1, .func (hpos _) (fun p hp => ?_) fun t ht => ?_⟩
      · exact hpred ((ha p hp).mono (by exact_mod_cast (by omega : a ≤ a + b)))
      · exact hpred ((hb t (Option.mem_toList.2 ht)).mono (by exact_mod_cast (by omega : b ≤ a + b)))
  | pred x t => exact ⟨0, .pred x t⟩
  | union _ ih =>
      obtain ⟨k, hk⟩ := exists_nat_forall id _ fun e he => ih e he hw
      exact ⟨k, .union hk⟩
  | inter _ ih =>
      obtain ⟨k, hk⟩ := exists_nat_forall id _ fun e he => ih e he hw
      exact ⟨k, .inter hk⟩
  | ref hx hargs _ => exact ⟨0, .ref hx fun a ha => (hargs a ha).forget⟩
  | @tvar _ _ v _ => exact ⟨(w v).toNat, .tvar (ENat.natCast_toNat (hw v)).ge⟩
  | classRef x => exact ⟨0, .classRef x⟩

end

/-! ### Normal forms -/

/-- What holds of built-in types, of the flat members and of unions of types that it holds of, holds of
the normal form of a union. -/
theorem unionWith_induction {P : Ty → Prop} (eq : Ty → Ty → Bool) {ts : List Ty}
    (hprim : ∀ p, P (.prim p)) (hunion : ∀ us, (∀ u ∈ us, P u) → P (.union us))
    (h : ∀ u ∈ flatList ts, P u) : P (unionWith eq ts) := by
  simp only [unionWith]
  split
  · exact hprim _
  · have hmem : ∀ u ∈ absorb (distinctWith eq ((flatList ts).filter (!isNever ·))), P u := by
      intro u hu
      rcases mem_absorb hu with hu | rfl
      · exact h u (List.mem_of_mem_filter ((distinctWith_sublist _ _).subset hu))
      · exact hprim _
    generalize absorb (distinctWith eq ((flatList ts).filter (!isNever ·))) = us at hmem
    rcases us with _ | ⟨u, _ | ⟨v, us⟩⟩
    · exact hprim _
    · exact hmem u (.head _)
    · exact hunion _ hmem

section

variable {Q : String → Prop} {w : String → ℕ∞} {n : ℕ∞}

mutual
theorem Within.flat : ∀ {t : Ty}, Within Q w n t → ∀ u ∈ t.flat, Within Q w n u
  | .union ts, h, u, hu => by
      rw [Ty.flat] at hu
      cases h with
      | union h => exact within_flatList h u hu
  | .prim _, h, u, hu | .lit _, h, u, hu | .array _, h, u, hu | .tuple _, h, u, hu
  | .object _, h, u, hu | .func _, h, u, hu | .pred _ _, h, u, hu | .inter _, h, u, hu
  | .ref _ _, h, u, hu | .tvar _, h, u, hu | .classRef _, h, u, hu => by
      rwa [List.mem_singleton.1 hu]

theorem within_flatList : ∀ {ts : List Ty}, (∀ t ∈ ts, Within Q w n t) →
    ∀ u ∈ flatList ts, Within Q w n u
  | [], _, u, hu => by cases hu
  | t :: ts, h, u, hu => by
      rw [flatList, List.mem_append] at hu
      rcases hu with hu | hu
      · exact Within.flat (h t (.head _)) u hu
      · exact within_flatList (fun t ht => h t (.tail _ ht)) u hu
end

theorem within_unionWith (eq : Ty → Ty → Bool) {ts : List Ty} (h : ∀ t ∈ ts, Within Q w n t) :
    Within Q w n (unionWith eq ts) :=
  unionWith_induction eq .prim (fun _ hus => .union hus) (within_flatList h)

end

end Ty

namespace Entries

variable {P : Ty → Prop} {o p : Object}

/-- What holds of all entries holds after a good member is inserted. -/
theorem insert {m : Member} (h : Entries P o) (hm : P m.type) : Entries P (o.insert m) := by
  refine ⟨fun x hx => ?_, h.key, h.value⟩
  unfold ObjectOf.insert at hx
  simp only at hx
  split at hx
  · obtain ⟨c, hc, rfl⟩ := List.mem_map.1 hx
    split
    · exact hm
    · exact h.members c hc
  · rcases List.mem_append.1 hx with hx | hx
    · exact h.members x hx
    · rwa [List.mem_singleton.1 hx]

/-- It holds after many are. -/
theorem insertAll {ms : List Member} (h : Entries P o) (hms : ∀ m ∈ ms, P m.type) :
    Entries P (o.insertAll ms) := by
  unfold ObjectOf.insertAll
  induction ms generalizing o with
  | nil => exact h
  | cons m ms ih =>
      exact ih (h.insert (hms m (.head _))) fun x hx => hms x (.tail _ hx)

/-- It holds after one record extends another. -/
theorem extend (h : Entries P o) (hp : Entries P p) : Entries P (o.extend p) := by
  have hall := h.insertAll hp.members
  unfold ObjectOf.extend
  simp only
  split
  · rename_i i hi
    refine ⟨hall.members, fun j hj => ?_, fun j hj => ?_⟩
    · cases hj
      exact hp.key i hi
    · cases hj
      exact hp.value i hi
  · exact hall

/-- Merging a member keeps the property if meeting two types does. -/
theorem mergeMember {meet : Ty → Ty → Ty} (hmeet : ∀ a b, P a → P b → P (meet a b)) {m : Member}
    (h : Entries P o) (hm : P m.type) : Entries P (Ty.mergeMember meet o m) := by
  unfold Ty.mergeMember
  split
  · rename_i e he
    exact h.insert (hmeet _ _ (h.members e (ObjectOf.mem_of_find? he).1) hm)
  · exact h.insert hm

/-- It holds after two records are merged by a meet that keeps it. -/
theorem mergeObject {meet : Ty → Ty → Ty} (hmeet : ∀ a b, P a → P b → P (meet a b))
    (h : Entries P o) (hp : Entries P p) : Entries P (Ty.mergeObject meet o p) := by
  have hmembers : Entries P (p.members.foldl (Ty.mergeMember meet) o) := by
    have hms := hp.members
    generalize p.members = ms at hms
    induction ms generalizing o with
    | nil => exact h
    | cons m ms ih =>
        exact ih (h.mergeMember hmeet (hms m (.head _))) fun x hx => hms x (.tail _ hx)
  unfold Ty.mergeObject
  refine ⟨hmembers.members, fun i hi => ?_, fun i hi => ?_⟩
  · rcases Option.or_eq_some_iff.1 hi with hi | ⟨-, hi⟩
    · exact hmembers.key i hi
    · exact hp.key i hi
  · rcases Option.or_eq_some_iff.1 hi with hi | ⟨-, hi⟩
    · exact hmembers.value i hi
    · exact hp.value i hi

/-- It holds after a list of records is. -/
theorem mergeObjects {meet : Ty → Ty → Ty} (hmeet : ∀ a b, P a → P b → P (meet a b))
    {os : List Object} (h : ∀ o ∈ os, Entries P o) {o : Object}
    (ho : Ty.mergeObjects meet os = some o) : Entries P o := by
  cases os with
  | nil => cases ho
  | cons p ps =>
      cases ho
      have hp := h p (.head _)
      have hps : ∀ q ∈ ps, Entries P q := fun q hq => h q (.tail _ hq)
      clear h
      induction ps generalizing p with
      | nil => exact hp
      | cons q ps ih =>
          exact ih _ (hp.mergeObject hmeet (hps q (.head _))) fun x hx => hps x (.tail _ hx)

end Entries

namespace Ty

/-- A property of the parts and of intersections holds of what the parts build. -/
theorem ofParts_induction {P : Ty → Prop} (hprim : ∀ p, P (.prim p))
    (hinter : ∀ us, (∀ u ∈ us, P u) → P (.inter us)) {us : List Ty} (h : ∀ u ∈ us, P u) :
    P (ofParts us) := by
  rcases us with _ | ⟨u, _ | ⟨v, us⟩⟩
  · exact hprim _
  · exact h u (.head _)
  · exact hinter _ h

section

variable {Q : String → Prop} {w w' : String → ℕ∞} {n : ℕ∞}

theorem Within.of_mem_parts {t : Ty} (h : Within Q w n t) : ∀ u ∈ t.parts, Within Q w n u := by
  intro u hu
  cases h with
  | inter hts => exact hts u hu
  | _ =>
      rw [List.mem_singleton.1 hu]
      constructor <;> assumption

/-- **Normal forms of intersections are not deeper.**  Records are merged, and where they have members
in common the intersections move below. -/
theorem within_interWith (eq : Ty → Ty → Bool) (k : Nat) {ts : List Ty}
    (h : ∀ t ∈ ts, Within Q w n t) : Within Q w n (interWith eq k ts) := by
  induction k generalizing n ts with
  | zero => exact .inter h
  | succ k ih =>
      have hmembers : ∀ t ∈ ts.flatMap parts, Within Q w n t := by
        intro t ht
        obtain ⟨u, hu, ht⟩ := List.mem_flatMap.1 ht
        exact (h u hu).of_mem_parts t ht
      have hmeet : ∀ a b, Within Q w (n - 1) a → Within Q w (n - 1) b →
          Within Q w (n - 1) (interWith eq k [a, b]) := by
        intro a b ha hb
        refine ih fun t ht => ?_
        rcases List.mem_cons.1 ht with rfl | ht
        · exact ha
        · rwa [List.mem_singleton.1 ht]
      have hobjects : ∀ o ∈ objectsOf (ts.flatMap parts), 1 ≤ n ∧ Entries (Within Q w (n - 1)) o := by
        intro o ho
        obtain ⟨t, ht, hto⟩ := List.mem_filterMap.1 ho
        cases t with
        | object p =>
            cases hto
            exact within_object_iff.1 (hmembers _ ht)
        | _ => cases hto
      simp only [interWith]
      split
      · exact .prim _
      · refine ofParts_induction .prim (fun _ hus => .inter hus) fun u hu => ?_
        rcases List.mem_append.1 hu with hu | hu
        · obtain ⟨o, ho, rfl⟩ := List.mem_map.1 hu
          have ho := Option.mem_toList.1 ho
          have hne : 1 ≤ n := by
            cases hos : objectsOf (ts.flatMap parts) with
            | nil =>
                rw [hos] at ho
                cases ho
            | cons p ps => exact (hobjects p (hos ▸ .head _)).1
          exact within_object_iff.2 ⟨hne, Entries.mergeObjects hmeet (fun p hp => (hobjects p hp).2) ho⟩
        · exact hmembers u (List.mem_of_mem_filter ((distinctWith_sublist _ _).subset hu))

/-! ### Substitutions -/

/-- **Types after a substitution are not deeper**, if the weight of a variable is enough for what is put
in for it. -/
theorem within_applyWith (eq : Ty → Ty → Bool) {t : Ty} (h : Within Q w' n t) {s : Subst}
    (hsome : ∀ v a, s.get? v = some a → Within Q w (w' v) a)
    (hnone : ∀ v, s.get? v = none → w v ≤ w' v) : Within Q w n (applyWith eq s t) := by
  induction h generalizing w s with
  | prim p => exact .prim p
  | lit l => exact .lit l
  | array hn _ ih => exact .array hn (ih hsome hnone)
  | tuple hn _ ih =>
      rw [applyWith, applyListWith_eq_map]
      refine .tuple hn fun e he => ?_
      obtain ⟨u, hu, rfl⟩ := List.mem_map.1 he
      exact ih u hu hsome hnone
  | @object _ _ o hn _ _ _ ihm ihk ihv =>
      rw [applyWith, applyMembersWith_eq_map]
      refine .object hn (fun m hm => ?_) (fun i hi => ?_) fun i hi => ?_
      · obtain ⟨m', hm', rfl⟩ := List.mem_map.1 hm
        exact ihm m' hm' hsome hnone
      · cases hindex : o.index with
        | none =>
            rw [hindex] at hi
            cases hi
        | some j =>
            rw [hindex] at hi
            cases hi
            exact ihk j hindex hsome hnone
      · cases hindex : o.index with
        | none =>
            rw [hindex] at hi
            cases hi
        | some j =>
            rw [hindex] at hi
            cases hi
            exact ihv j hindex hsome hnone
  | @func w' n f hn _ _ ihp ihr =>
      -- the parameters shadow what is put in for their names, and may capture what is put in for others
      have hsome' : ∀ v a, (s.without (typeParamNames f.tparams)).get? v = some a →
          Within Q (hideNames w (typeParamNames f.tparams))
            (hideNames w' (typeParamNames f.tparams) v) a := by
        intro v a hv
        rw [Subst.get?_without] at hv
        split at hv
        · cases hv
        · rename_i hmem
          rw [show hideNames w' (typeParamNames f.tparams) v = w' v from if_neg hmem]
          exact (hsome v a hv).of_mentions fun u _ => hideNames_le w _ u
      have hnone' : ∀ v, (s.without (typeParamNames f.tparams)).get? v = none →
          hideNames w (typeParamNames f.tparams) v ≤ hideNames w' (typeParamNames f.tparams) v := by
        intro v hv
        rw [Subst.get?_without] at hv
        unfold hideNames
        split
        · exact le_refl _
        · rename_i hmem
          rw [if_neg hmem] at hv
          exact hnone v hv
      rw [applyWith, applyParamsWith_eq_map]
      refine .func hn (fun p hp => ?_) fun t ht => ?_
      · obtain ⟨q, hq, rfl⟩ := List.mem_map.1 hp
        rw [typeParamNames_applyTypeParamsWith]
        exact ihp q hq hsome' hnone'
      · rw [typeParamNames_applyTypeParamsWith]
        cases hret : f.ret with
        | none =>
            rw [hret] at ht
            cases ht
        | some u =>
            rw [hret] at ht
            cases ht
            exact ihr u hret hsome' hnone'
  | pred x t => exact .pred x _
  | union _ ih =>
      rw [applyWith, applyListWith_eq_map]
      refine within_unionWith eq fun t ht => ?_
      obtain ⟨u, hu, rfl⟩ := List.mem_map.1 ht
      exact ih u hu hsome hnone
  | inter _ ih =>
      rw [applyWith, applyListWith_eq_map]
      refine within_interWith eq _ fun t ht => ?_
      obtain ⟨u, hu, rfl⟩ := List.mem_map.1 ht
      exact ih u hu hsome hnone
  | ref hx _ ih =>
      rw [applyWith, applyListWith_eq_map]
      refine .ref hx fun a ha => ?_
      obtain ⟨u, hu, rfl⟩ := List.mem_map.1 ha
      exact ih u hu hsome hnone
  | @tvar _ _ v hv =>
      rw [applyWith]
      cases hget : s.get? v with
      | none => exact .tvar ((hnone v hget).trans hv)
      | some a => exact (hsome v a hget).mono hv
  | classRef x => exact .classRef x

theorem within_nullable {t : Ty} (h : Within Q w n t) : Within Q w n t.nullable := by
  refine within_unionWith _ fun u hu => ?_
  rcases List.mem_cons.1 hu with rfl | hu
  · exact h
  · rw [List.mem_singleton.1 hu]
    exact .prim _

theorem within_removeNil {t : Ty} (h : Within Q w n t) : Within Q w n t.removeNil := by
  refine within_unionWith _ fun u hu => ?_
  have hu := List.mem_of_mem_filter hu
  cases h with
  | union hts => exact hts u hu
  | _ =>
      rw [List.mem_singleton.1 hu]
      constructor <;> assumption

end

end Ty

end TreeCheck
