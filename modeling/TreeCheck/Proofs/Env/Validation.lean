import Mathlib.Logic.Relation
import TreeCheck.Env.Flatten
import TreeCheck.Proofs.Ty.Depth

/-!
# Circles of aliases

An alias leads to the aliases that its definition names outside records and signatures, in type
arguments too.  Validation walks through definitions with their arguments put in, and marks the names
that it is walking through.  An argument is walked through after the alias that it is given to has been
marked, so a mark that is met again is a circle only if arguments have nothing to do with that alias.

* `Ty.Unguarded` — a reference that stands outside records and signatures;
* `Ty.allUnguarded_apply` — after a substitution it is one of the type or one of what was put in;
* `Env.LeadsTo`, `Env.HasCircle` — the graph of aliases and its circles;
* `Env.Apart`, `Env.TidyFrom` — arguments that share no alias with what they are given to;
* `Env.hasCircle_of_validateAlias` — in tidy definitions, what validation rejects is a circle.
-/

namespace TreeCheck

open Relation

namespace Ty

/-- Whether references inside the type are no part of its structure. -/
def isGuard : Ty → Bool
  | .object _ => true
  | .func _ => true
  | _ => false

/-- The reference stands in a type outside records and signatures. -/
inductive Unguarded (x : String) (args : List Ty) : Ty → Prop
  | ref : Unguarded x args (.ref x args)
  | part {t u : Ty} : t.isGuard = false → Part u t → Unguarded x args u → Unguarded x args t

/-- All references outside records and signatures have a property. -/
def AllUnguarded (P : String → List Ty → Prop) (t : Ty) : Prop :=
  ∀ x args, Unguarded x args t → P x args

section

variable {P : String → List Ty → Prop}

/-- A type that is no reference holds the references of its parts. -/
theorem allUnguarded_of_parts {t : Ty} (href : ∀ x args, t ≠ .ref x args)
    (h : ∀ u, Part u t → AllUnguarded P u) : AllUnguarded P t := by
  intro x args hx
  cases hx with
  | ref => exact absurd rfl (href x args)
  | part _ hu hx => exact h _ hu x args hx

/-- What holds of all references holds of those in a part. -/
theorem AllUnguarded.part {t u : Ty} (h : AllUnguarded P t) (hguard : t.isGuard = false)
    (hu : Part u t) : AllUnguarded P u :=
  fun x args hx => h x args (.part hguard hu hx)

theorem allUnguarded_prim (p : Prim) : AllUnguarded P (.prim p) :=
  allUnguarded_of_parts (fun _ _ h => by cases h) fun _ hu => by cases hu

theorem allUnguarded_object (o : Object) : AllUnguarded P (.object o) := by
  intro x args hx
  cases hx with
  | part hguard _ _ => cases hguard

theorem allUnguarded_func (f : Func) : AllUnguarded P (.func f) := by
  intro x args hx
  cases hx with
  | part hguard _ _ => cases hguard

theorem allUnguarded_tuple {ts : List Ty} (h : ∀ t ∈ ts, AllUnguarded P t) :
    AllUnguarded P (.tuple ts) := by
  refine allUnguarded_of_parts (fun _ _ h => by cases h) fun u hu => ?_
  cases hu with
  | tuple hu => exact h u hu

theorem allUnguarded_union {ts : List Ty} (h : ∀ t ∈ ts, AllUnguarded P t) :
    AllUnguarded P (.union ts) := by
  refine allUnguarded_of_parts (fun _ _ h => by cases h) fun u hu => ?_
  cases hu with
  | union hu => exact h u hu

theorem allUnguarded_inter {ts : List Ty} (h : ∀ t ∈ ts, AllUnguarded P t) :
    AllUnguarded P (.inter ts) := by
  refine allUnguarded_of_parts (fun _ _ h => by cases h) fun u hu => ?_
  cases hu with
  | inter hu => exact h u hu

/-- A property of a reference and of its arguments is one of all references in it. -/
theorem allUnguarded_ref {x : String} {args : List Ty} (hx : P x args)
    (hargs : ∀ a ∈ args, AllUnguarded P a) : AllUnguarded P (.ref x args) := by
  intro y as hy
  cases hy with
  | ref => exact hx
  | part _ hu hy =>
      cases hu with
      | arg hu => exact hargs _ hu y as hy

/-! ### Normal forms -/

mutual
theorem AllUnguarded.flat : ∀ {t : Ty}, AllUnguarded P t → ∀ u ∈ t.flat, AllUnguarded P u
  | .union ts, h, u, hu => by
      rw [Ty.flat] at hu
      exact allUnguarded_flatList (fun t ht => h.part rfl (.union ht)) u hu
  | .prim _, h, u, hu | .lit _, h, u, hu | .array _, h, u, hu | .tuple _, h, u, hu
  | .object _, h, u, hu | .func _, h, u, hu | .pred _ _, h, u, hu | .inter _, h, u, hu
  | .ref _ _, h, u, hu | .tvar _, h, u, hu | .classRef _, h, u, hu => by
      rwa [List.mem_singleton.1 hu]

theorem allUnguarded_flatList : ∀ {ts : List Ty}, (∀ t ∈ ts, AllUnguarded P t) →
    ∀ u ∈ flatList ts, AllUnguarded P u
  | [], _, u, hu => by cases hu
  | t :: ts, h, u, hu => by
      rw [flatList, List.mem_append] at hu
      rcases hu with hu | hu
      · exact AllUnguarded.flat (h t (.head _)) u hu
      · exact allUnguarded_flatList (fun t ht => h t (.tail _ ht)) u hu
end

theorem allUnguarded_unionWith (eq : Ty → Ty → Bool) {ts : List Ty}
    (h : ∀ t ∈ ts, AllUnguarded P t) : AllUnguarded P (unionWith eq ts) :=
  unionWith_induction eq allUnguarded_prim (fun _ => allUnguarded_union) (allUnguarded_flatList h)

theorem AllUnguarded.of_mem_parts {t u : Ty} (h : AllUnguarded P t) (hu : u ∈ t.parts) :
    AllUnguarded P u := by
  cases t with
  | inter ts => exact h.part rfl (.inter hu)
  | _ => rwa [List.mem_singleton.1 hu]

/-- Records are merged, and their references are guarded before and after. -/
theorem allUnguarded_interWith (eq : Ty → Ty → Bool) (k : Nat) {ts : List Ty}
    (h : ∀ t ∈ ts, AllUnguarded P t) : AllUnguarded P (interWith eq k ts) := by
  cases k with
  | zero => exact allUnguarded_inter h
  | succ k =>
      simp only [interWith]
      split
      · exact allUnguarded_prim _
      · refine ofParts_induction allUnguarded_prim (fun _ => allUnguarded_inter) fun u hu => ?_
        rcases List.mem_append.1 hu with hu | hu
        · obtain ⟨o, -, rfl⟩ := List.mem_map.1 hu
          exact allUnguarded_object o
        · have hu := List.mem_of_mem_filter ((distinctWith_sublist _ _).subset hu)
          obtain ⟨t, ht, hu⟩ := List.mem_flatMap.1 hu
          exact (h t ht).of_mem_parts hu

/-! ### Substitutions -/

/-- **References after a substitution** are those of the type, with their arguments substituted, and
those of what is put in. -/
theorem allUnguarded_applyWith (eq : Ty → Ty → Bool) {s : Subst} {t : Ty}
    (hs : ∀ v a, s.get? v = some a → AllUnguarded P a)
    (ht : AllUnguarded (fun x args => P x (args.map (applyWith eq s))) t) :
    AllUnguarded P (applyWith eq s t) := by
  induction hn : t.size using Nat.strong_induction_on generalizing t with
  | _ n ih =>
      have hparts : t.isGuard = false → ∀ u, Part u t → AllUnguarded P (applyWith eq s u) :=
        fun hguard u hu => ih u.size (hn ▸ hu.size_lt) (ht.part hguard hu) rfl
      clear ih hn
      cases t with
      | prim p => exact allUnguarded_prim p
      | lit l => exact allUnguarded_of_parts (fun _ _ h => by cases h) fun _ hu => by cases hu
      | classRef x => exact allUnguarded_of_parts (fun _ _ h => by cases h) fun _ hu => by cases hu
      | object o => exact allUnguarded_object _
      | func f => exact allUnguarded_func _
      | array e =>
          refine allUnguarded_of_parts (fun _ _ h => by cases h) fun u hu => ?_
          cases hu
          exact hparts rfl e .array
      | pred x e =>
          refine allUnguarded_of_parts (fun _ _ h => by cases h) fun u hu => ?_
          cases hu
          exact hparts rfl e .pred
      | tuple es =>
          rw [applyWith, applyListWith_eq_map]
          refine allUnguarded_tuple fun u hu => ?_
          obtain ⟨e, he, rfl⟩ := List.mem_map.1 hu
          exact hparts rfl e (.tuple he)
      | union ts =>
          rw [applyWith, applyListWith_eq_map]
          refine allUnguarded_unionWith eq fun u hu => ?_
          obtain ⟨e, he, rfl⟩ := List.mem_map.1 hu
          exact hparts rfl e (.union he)
      | inter ts =>
          rw [applyWith, applyListWith_eq_map]
          refine allUnguarded_interWith eq _ fun u hu => ?_
          obtain ⟨e, he, rfl⟩ := List.mem_map.1 hu
          exact hparts rfl e (.inter he)
      | ref x args =>
          rw [applyWith, applyListWith_eq_map]
          refine allUnguarded_ref (ht x args .ref) fun u hu => ?_
          obtain ⟨a, ha, rfl⟩ := List.mem_map.1 hu
          exact hparts rfl a (.arg ha)
      | tvar v =>
          rw [applyWith]
          cases hv : s.get? v with
          | none => exact allUnguarded_of_parts (fun _ _ h => by cases h) fun _ hu => by cases hu
          | some a => exact hs v a hv

end

end Ty

/-! ### What parameters are bound to -/

/-- Parameters are bound to arguments and to defaults, which refer to earlier parameters. -/
theorem allUnguarded_of_bindParams {P : String → List Ty → Prop} {ps : List TypeParam}
    (hps : ∀ p ∈ ps, ∀ d, p.default = some d → d.AllUnguarded fun x _ => ∀ args, P x args)
    {args : List Ty} (hargs : ∀ a ∈ args, a.AllUnguarded P) {s s' : Subst}
    (hs : ∀ b ∈ s, b.2.AllUnguarded P) (h : bindParams ps args s = .ok s') :
    ∀ b ∈ s', b.2.AllUnguarded P := by
  have hsnoc : ∀ {s : Subst} {x : String} {t : Ty}, (∀ b ∈ s, b.2.AllUnguarded P) →
      t.AllUnguarded P → ∀ b ∈ s ++ [(x, t)], b.2.AllUnguarded P := by
    intro s x t hs ht b hb
    rcases List.mem_append.1 hb with hb | hb
    · exact hs b hb
    · rwa [List.mem_singleton.1 hb]
  induction ps generalizing args s with
  | nil =>
      cases h
      exact hs
  | cons p ps ih =>
      have hps' := fun q hq => hps q (.tail p hq)
      cases args with
      | cons a as => exact ih hps' (fun b hb => hargs b (.tail _ hb)) (hsnoc hs (hargs a (.head _))) h
      | nil =>
          rw [bindParams] at h
          cases hd : p.default with
          | none =>
              rw [hd] at h
              cases h
          | some d =>
              rw [hd] at h
              have hvalue : (d.apply s).AllUnguarded P :=
                Ty.allUnguarded_applyWith _ (fun v a hv => hs _ (Assoc.mem_of_get? hv)) fun x us hx =>
                  hps p (.head _) d hd x us hx _
              exact ih hps' hargs (hsnoc hs hvalue) h

theorem bindParams_of_bindNamed {x : String} {ps : List TypeParam} {args : List Ty} {s : Subst}
    (h : (bindNamed x ps args).run = .ok (.ok s)) : bindParams ps args [] = .ok s := by
  unfold bindNamed at h
  split at h
  · cases hb : bindParams ps args [] with
    | error f =>
        rw [hb] at h
        cases h
    | ok s' =>
        rw [hb] at h
        cases h
        rfl
  · cases h

/-- Lookups one after the other fail where one of them does. -/
theorem error_of_bind {α β : Type} {q : Lookup α} {f : α → Lookup β} {err : TypeError}
    (h : (q >>= f).run = .ok (.error err)) :
    q.run = .ok (.error err) ∨ ∃ a, q.run = .ok (.ok a) ∧ (f a).run = .ok (.error err) := by
  rw [ExceptT.run_bind] at h
  cases hq : q.run with
  | error fault =>
      rw [hq] at h
      cases h
  | ok o =>
      rw [hq] at h
      cases o with
      | error err' =>
          cases h
          exact Or.inl rfl
      | ok a => exact Or.inr ⟨a, rfl, h⟩

/-- If a run over a list fails, it fails at some entry. -/
theorem exists_of_forM_error {α : Type} {f : α → Lookup Unit} {xs : List α} {err : TypeError}
    (h : (xs.forM f).run = .ok (.error err)) : ∃ x ∈ xs, (f x).run = .ok (.error err) := by
  induction xs with
  | nil => cases h
  | cons x xs ih =>
      rcases error_of_bind (q := f x) (f := fun _ => xs.forM f) h with hx | ⟨_, -, hxs⟩
      · exact ⟨x, .head _, hx⟩
      · obtain ⟨y, hy, herr⟩ := ih hxs
        exact ⟨y, .tail _ hy, herr⟩

/-! ### The graph of aliases -/

namespace Env

/-- The name stands for an alias where a type refers to it. -/
def NamesAlias (e : Env) (x : String) : Prop := isUtility x = false ∧ (e.alias? x).isSome = true

/-- The definition of an alias refers to another one outside records and signatures. -/
def LeadsTo (e : Env) (x y : String) : Prop :=
  e.NamesAlias y ∧ ∃ a args, e.alias? x = some a ∧ a.body.Unguarded y args

/-- The alias leads to another one in any number of steps. -/
abbrev Reaches (e : Env) : String → String → Prop := ReflTransGen e.LeadsTo

/-- A circle of aliases can be reached from the alias. -/
def HasCircle (e : Env) (x : String) : Prop := ∃ y, e.Reaches x y ∧ TransGen e.LeadsTo y y

/-- No alias is reached from both. -/
def Apart (e : Env) (x y : String) : Prop := ∀ z, e.Reaches x z → ¬ e.Reaches y z

variable {e : Env} {x y z : String}

theorem Apart.of_reaches_left (h : e.Apart x y) (hx : e.Reaches x z) : e.Apart z y :=
  fun w hz hy => h w (hx.trans hz) hy

theorem Apart.of_reaches_right (h : e.Apart x y) (hy : e.Reaches y z) : e.Apart x z :=
  fun w hx hz => h w hx (hy.trans hz)

/-- The arguments of an alias refer to aliases that are apart from it. -/
def TidyRef (e : Env) (x : String) (args : List Ty) : Prop :=
  e.NamesAlias x → ∀ a ∈ args, a.AllUnguarded fun y _ => e.NamesAlias y → e.Apart y x

/-- In the definitions that are reached from an alias, the arguments of aliases are apart from them, and
the defaults of parameters refer to no aliases. -/
structure TidyFrom (e : Env) (x : String) : Prop where
  args : ∀ y a, e.Reaches x y → e.alias? y = some a → a.body.AllUnguarded e.TidyRef
  defaults : ∀ y a, e.Reaches x y → e.alias? y = some a → ∀ p ∈ a.params, ∀ d, p.default = some d →
    d.AllUnguarded fun z _ => ¬ e.NamesAlias z

/-! ### The walk -/

/-- A reference that the walk from an alias may meet: what it refers to is reached from the alias, and
each marked name leads to it or is apart from it. -/
structure Met (e : Env) (root : String) (active : List String) (y : String) (args : List Ty) : Prop where
  reached : e.Reaches root y
  marked : ∀ z ∈ active, TransGen e.LeadsTo z y ∨ e.Apart y z
  tidy : ∀ a ∈ args, a.AllUnguarded fun w _ => e.NamesAlias w → e.Apart w y

/-- The aliases that a type refers to may be met. -/
def Walked (e : Env) (root : String) (active : List String) (t : Ty) : Prop :=
  t.AllUnguarded fun y args => e.NamesAlias y → e.Met root active y args

/-- What the marked alias leads to. -/
theorem met_of_leads {root : String} {active : List String} (hreached : e.Reaches root x)
    (hmarked : ∀ w ∈ active, TransGen e.LeadsTo w x ∨ e.Apart x w) (hlead : e.LeadsTo x y) {args : List Ty}
    (htidy : ∀ a ∈ args, a.AllUnguarded fun w _ => e.NamesAlias w → e.Apart w y) :
    e.Met root (x :: active) y args where
  reached := hreached.tail hlead
  marked w hw := by
    rcases List.mem_cons.1 hw with rfl | hw
    · exact Or.inl (.single hlead)
    · exact (hmarked w hw).imp (·.tail hlead) fun h => h.of_reaches_left (.single hlead)
  tidy := htidy

/-- The body of an alias that is met, with arguments or without. -/
theorem walked_body {root : String} (h : e.TidyFrom root) {active : List String}
    (hreached : e.Reaches root x) (hmarked : ∀ w ∈ active, TransGen e.LeadsTo w x ∨ e.Apart x w)
    {a : Alias} (ha : e.alias? x = some a) : e.Walked root (x :: active) a.body :=
  fun y args hy hy' => met_of_leads hreached hmarked ⟨hy', a, args, ha, hy⟩
    (h.args x a hreached ha y args hy hy')

/-- What is put in for the parameters refers to the aliases of the arguments. -/
theorem allUnguarded_of_bindNamed {Q : String → List Ty → Prop} {ps : List TypeParam} {args : List Ty}
    (hps : ∀ p ∈ ps, ∀ d, p.default = some d → d.AllUnguarded fun z _ => ¬ e.NamesAlias z)
    (hargs : ∀ t ∈ args, t.AllUnguarded fun y us => e.NamesAlias y → Q y us) {s : Subst}
    (h : (bindNamed x ps args).run = .ok (.ok s)) {v : String} {t : Ty} (hv : s.get? v = some t) :
    t.AllUnguarded fun y us => e.NamesAlias y → Q y us := by
  have hdefaults : ∀ p ∈ ps, ∀ d, p.default = some d →
      d.AllUnguarded fun y _ => ∀ us, e.NamesAlias y → Q y us :=
    fun p hp d hd y us hy _ halias => absurd halias (hps p hp d hd y us hy)
  have hempty : ∀ b ∈ ([] : Subst), b.2.AllUnguarded fun y us => e.NamesAlias y → Q y us :=
    fun b hb => nomatch hb
  exact allUnguarded_of_bindParams hdefaults hargs hempty (bindParams_of_bindNamed h) _
    (Assoc.mem_of_get? hv)

/-- The body of an alias that is met, with its arguments put in. -/
theorem walked_apply {root : String} (h : e.TidyFrom root) {active : List String} {args : List Ty}
    (hx : e.Met root active x args) (hargs : ∀ t ∈ args, e.Walked root active t) {a : Alias}
    (ha : e.alias? x = some a) {s : Subst} (hs : (bindNamed x a.params args).run = .ok (.ok s)) :
    e.Walked root (x :: active) (a.body.apply s) := by
  have hdefaults := h.defaults x a hx.reached ha
  refine Ty.allUnguarded_applyWith _ (fun v t hv y bs hy hy' => ?_) fun y bs hy hy' => ?_
  · obtain ⟨hreached, hmarked, htidy⟩ := allUnguarded_of_bindNamed hdefaults hargs hs hv y bs hy hy'
    refine ⟨hreached, fun w hw => ?_, htidy⟩
    rcases List.mem_cons.1 hw with rfl | hw
    · exact Or.inr (allUnguarded_of_bindNamed hdefaults hx.tidy hs hv y bs hy hy')
    · exact hmarked w hw
  · have hlead : e.LeadsTo x y := ⟨hy', a, bs, ha, hy⟩
    refine met_of_leads hx.reached hx.marked hlead fun t ht => ?_
    obtain ⟨u, hu, rfl⟩ := List.mem_map.1 ht
    refine Ty.allUnguarded_applyWith _ (fun v t hv w us hw hw' => ?_) fun w us hw hw' => ?_
    · have happart := allUnguarded_of_bindNamed hdefaults hx.tidy hs hv w us hw hw'
      exact happart.of_reaches_right (.single hlead)
    · exact h.args x a hx.reached ha y bs hy hy' u hu w us hw hw'

/-- The parts of a type that is walked are walked. -/
theorem Walked.part {root : String} {active : List String} {t u : Ty} (h : e.Walked root active t)
    (hguard : t.isGuard = false) (hu : Ty.Part u t) : e.Walked root active u :=
  Ty.AllUnguarded.part h hguard hu

/-- The walk goes on through the definition of an alias: as it is written if there are no arguments or
their number is wrong, else with the arguments put in. -/
theorem walk_alias {n : Nat} {path active : List String} {args : List Ty} {a : Alias}
    {r : Except TypeError Unit} (hutility : isUtility y = false) (ha : e.alias? y = some a)
    (hactive : y ∉ active) (h : (e.walkAliasUpTo (n + 1) path active (.ref y args)).run = .ok r) :
    ∃ body, (e.walkAliasUpTo n (path ++ [y]) (y :: active) body).run = .ok r ∧
      (args = [] ∧ body = a.body ∨
        args ≠ [] ∧ ((∃ err, (bindNamed y a.params args).run = .ok (.error err)) ∧ body = a.body ∨
          ∃ s, (bindNamed y a.params args).run = .ok (.ok s) ∧ body = a.body.apply s)) := by
  have hactive : active.contains y = false := by simpa using hactive
  simp only [walkAliasUpTo, hutility, ha, hactive, Bool.false_eq_true, if_false] at h
  cases args with
  | nil => exact ⟨a.body, h, Or.inl ⟨rfl, rfl⟩⟩
  | cons t ts =>
      cases hbind : (bindNamed y a.params (t :: ts)).run with
      | error fault =>
          simp only [hbind] at h
          cases h
      | ok o =>
          simp only [hbind] at h
          cases o with
          | error err => exact ⟨a.body, h, Or.inr ⟨by simp, Or.inl ⟨⟨err, rfl⟩, rfl⟩⟩⟩
          | ok s => exact ⟨a.body.apply s, h, Or.inr ⟨by simp, Or.inr ⟨s, rfl, rfl⟩⟩⟩

/-- **A mark that is met again is a circle.** -/
theorem hasCircle_of_walk {root : String} (h : e.TidyFrom root) {n : Nat} {path active : List String}
    {t : Ty} (ht : e.Walked root active t) {path' : List String}
    (hwalk : (e.walkAliasUpTo n path active t).run = .ok (.error (.recursiveAlias x path'))) :
    e.HasCircle root := by
  induction n generalizing path active t with
  | zero => cases hwalk
  | succ n ih =>
      cases t with
      | array u => exact ih (ht.part rfl .array) hwalk
      | pred y u => exact ih (ht.part rfl .pred) hwalk
      | tuple ts =>
          obtain ⟨u, hu, hwalk⟩ := exists_of_forM_error hwalk
          exact ih (ht.part rfl (.tuple hu)) hwalk
      | union ts =>
          obtain ⟨u, hu, hwalk⟩ := exists_of_forM_error hwalk
          exact ih (ht.part rfl (.union hu)) hwalk
      | inter ts =>
          obtain ⟨u, hu, hwalk⟩ := exists_of_forM_error hwalk
          exact ih (ht.part rfl (.inter hu)) hwalk
      | prim p | lit l | object o | func f | tvar v | classRef y => cases hwalk
      | ref y args =>
          have hargs : ∀ u ∈ args, e.Walked root active u := fun u hu => ht.part rfl (.arg hu)
          cases hutility : isUtility y with
          | true =>
              simp only [walkAliasUpTo, hutility, if_true] at hwalk
              obtain ⟨u, hu, hwalk⟩ := exists_of_forM_error hwalk
              exact ih (hargs u hu) hwalk
          | false =>
              cases ha : e.alias? y with
              | none =>
                  simp only [walkAliasUpTo, hutility, ha, Bool.false_eq_true, if_false] at hwalk
                  cases hwalk
              | some a =>
                  have hy := ht y args .ref ⟨hutility, by rw [ha]; rfl⟩
                  by_cases hactive : y ∈ active
                  · rcases hy.marked y hactive with hcircle | happart
                    · exact ⟨y, hy.reached, hcircle⟩
                    · exact absurd .refl (happart y .refl)
                  · obtain ⟨body, hwalk, hbody⟩ := walk_alias hutility ha hactive hwalk
                    rcases hbody with ⟨-, rfl⟩ | ⟨-, ⟨-, rfl⟩ | ⟨s, hs, rfl⟩⟩
                    · exact ih (walked_body h hy.reached hy.marked ha) hwalk
                    · exact ih (walked_body h hy.reached hy.marked ha) hwalk
                    · exact ih (walked_apply h hy hargs ha hs) hwalk

/-- **What validation rejects is a circle**, if arguments are apart from the aliases that they are given
to. -/
theorem hasCircle_of_validateAlias (h : e.TidyFrom x) {y : String} {path : List String}
    (hvalidate : (e.validateAlias x).run = .ok (.error (.recursiveAlias y path))) : e.HasCircle x := by
  unfold validateAlias at hvalidate
  cases ha : e.alias? x with
  | none =>
      rw [ha] at hvalidate
      cases hvalidate
  | some a =>
      rw [ha] at hvalidate
      have hbody : e.Walked x [x] a.body := walked_body h .refl (by simp) ha
      exact hasCircle_of_walk h hbody hvalidate

end Env

namespace Env

variable {e : Env} {x y : String}

/-- A definition without references leads nowhere. -/
theorem eq_of_reaches {a : Alias} (ha : e.alias? x = some a)
    (hbody : a.body.AllUnguarded fun _ _ => False) (h : e.Reaches x y) : y = x := by
  rcases ReflTransGen.cases_head h with rfl | ⟨z, ⟨-, b, args, hb, hz⟩, -⟩
  · rfl
  · cases ha.symm.trans hb
    exact (hbody z args hz).elim

end Env

def boxAlias : Alias := { name := "Box", params := [{ name := "T" }], body := .array (.tvar "T") }

theorem allUnguarded_boxAlias {P : String → List Ty → Prop} : boxAlias.body.AllUnguarded P := by
  refine Ty.allUnguarded_of_parts (fun _ _ h => by cases h) fun u hu => ?_
  cases hu
  exact Ty.allUnguarded_of_parts (fun _ _ h => by cases h) fun _ hu => by cases hu

/-- Names in boxes, and beside them an alias that reaches itself. -/
def loopEnv : Env where
  aliases :=
    [("Box", boxAlias), ("Name", { name := "Name", body := .string }),
      ("Loop", { name := "Loop", body := .union [.ref "Box" [.ref "Name" []], .ref "Loop" []] })]

theorem apart_loopEnv : loopEnv.Apart "Name" "Box" := by
  intro z hname hbox
  have hname := Env.eq_of_reaches (e := loopEnv) rfl (Ty.allUnguarded_prim _) hname
  have hbox := Env.eq_of_reaches (e := loopEnv) rfl allUnguarded_boxAlias hbox
  exact absurd (hname.symm.trans hbox) (by decide)

theorem tidyFrom_loopEnv : loopEnv.TidyFrom "Loop" where
  args y a _ ha := by
    have hmem := Assoc.mem_of_get? (show loopEnv.aliases.get? y = some a from ha)
    simp only [loopEnv, List.mem_cons, Prod.mk.injEq, List.not_mem_nil, or_false] at hmem
    rcases hmem with ⟨-, rfl⟩ | ⟨-, rfl⟩ | ⟨-, rfl⟩
    · exact allUnguarded_boxAlias
    · exact Ty.allUnguarded_prim _
    · have hname : Ty.AllUnguarded loopEnv.TidyRef (.ref "Name" []) :=
        Ty.allUnguarded_ref (by simp [Env.TidyRef]) (by simp)
      have hbox : loopEnv.TidyRef "Box" [.ref "Name" []] := by
        rintro - t ht
        rw [List.mem_singleton.1 ht]
        exact Ty.allUnguarded_ref (fun _ => apart_loopEnv) (by simp)
      refine Ty.allUnguarded_union fun t ht => ?_
      simp only [List.mem_cons, List.not_mem_nil, or_false] at ht
      rcases ht with rfl | rfl
      · exact Ty.allUnguarded_ref hbox (by simpa using hname)
      · exact Ty.allUnguarded_ref (by simp [Env.TidyRef]) (by simp)
  defaults y a _ ha p hp d hd := by
    have hmem := Assoc.mem_of_get? (show loopEnv.aliases.get? y = some a from ha)
    simp only [loopEnv, List.mem_cons, Prod.mk.injEq, List.not_mem_nil, or_false] at hmem
    rcases hmem with ⟨-, rfl⟩ | ⟨-, rfl⟩ | ⟨-, rfl⟩
    · rw [List.mem_singleton.1 hp] at hd
      cases hd
    · cases hp
    · cases hp

theorem hasCircle_of_validateAlias_loop :
    (loopEnv.validateAlias "Loop").run = .ok (.error (.recursiveAlias "Loop" ["Loop", "Loop"])) ∧
      loopEnv.HasCircle "Loop" := by
  have hvalidate : (loopEnv.validateAlias "Loop").run =
      .ok (.error (.recursiveAlias "Loop" ["Loop", "Loop"])) := by
    decide +kernel
  exact ⟨hvalidate, Env.hasCircle_of_validateAlias tidyFrom_loopEnv hvalidate⟩

/-! ### An argument that is an alias of its own -/

def boxesEnv : Env where
  aliases :=
    [("Box", boxAlias), ("Boxes", { name := "Boxes", body := .ref "Box" [.ref "Box" [.number]] })]

/-- The only step is from the boxes to the box. -/
theorem leadsTo_boxesEnv {x y : String} (h : boxesEnv.LeadsTo x y) : x = "Boxes" ∧ y = "Box" := by
  obtain ⟨-, a, args, ha, hy⟩ := h
  have hmem := Assoc.mem_of_get? (show boxesEnv.aliases.get? x = some a from ha)
  simp only [boxesEnv, List.mem_cons, Prod.mk.injEq, List.not_mem_nil, or_false] at hmem
  rcases hmem with ⟨-, rfl⟩ | ⟨rfl, rfl⟩
  · exact (allUnguarded_boxAlias (P := fun _ _ => False) y args hy).elim
  · refine ⟨rfl, ?_⟩
    have hbox : Ty.AllUnguarded (fun z _ => z = "Box") (.ref "Box" [.ref "Box" [.number]]) :=
      Ty.allUnguarded_ref rfl (by simpa using Ty.allUnguarded_ref rfl (by simpa using Ty.allUnguarded_prim _))
    exact hbox y args hy

/-- **Validation rejects definitions without a circle**: the box inside meets the mark of the box that it
is given to. -/
theorem validateAlias_boxes :
    (boxesEnv.validateAlias "Boxes").run =
        .ok (.error (.recursiveAlias "Boxes" ["Boxes", "Box", "Box"])) ∧
      ¬ boxesEnv.HasCircle "Boxes" := by
  refine ⟨by decide +kernel, ?_⟩
  rintro ⟨y, -, hcircle⟩
  obtain ⟨z, hyz, -⟩ := TransGen.head'_iff.1 hcircle
  obtain ⟨z', -, hzy⟩ := TransGen.tail'_iff.1 hcircle
  have hy := (leadsTo_boxesEnv hyz).1
  have hy' := (leadsTo_boxesEnv hzy).2
  exact absurd (hy.symm.trans hy') (by decide)

end TreeCheck
