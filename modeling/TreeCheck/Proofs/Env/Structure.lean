import TreeCheck.Proofs.Env.Resolution
import TreeCheck.Proofs.Env.Validation

/-!
# What validation promises

Validation and expansion walk through the same definitions.  Where an alias is given arguments both put
them in, so what validation has walked through can be expanded: the marks of expansion are among the
marks of validation.  The two part ways where validation does not put in what expansion does, at an
alias all of whose parameters have defaults, and at utilities that bring to light what records and
signatures guard.

* `Answers` — a lookup that has one answer from some depth on, and no recursive alias;
* `Ty.Structural` — a type without names at its head, in unions and intersections neither;
* `Utility.Quiet` — the utilities that bring no names to light;
* `Env.Passes` — what validation accepts as a definition;
* `Env.answers_of_walk` — what validation has walked through can be expanded;
* `Env.structural_answers_of_validates` — names whose definitions are valid can be expanded.
-/

namespace TreeCheck

/-! ### Lookups with an answer -/

/-- Whether an alias was found to be recursive. -/
def TypeError.isRecursive : TypeError → Bool
  | .recursiveAlias _ _ => true
  | _ => false

/-- The answer of a lookup: a result with a property, or an error that is no recursive alias. -/
def Answered {α : Type} (P : α → Prop) : Except TypeError α → Prop
  | .ok a => P a
  | .error err => err.isRecursive = false

/-- From some depth on, the lookup has one answer. -/
def Answers {α : Type} (P : α → Prop) (q : Nat → Lookup α) : Prop :=
  ∃ N r, (∀ n, N ≤ n → (q n).run = .ok r) ∧ Answered P r

section

variable {α β : Type} {P : α → Prop} {R : β → Prop}

theorem answers_pure {a : α} (h : P a) : Answers P fun _ => pure a :=
  ⟨0, .ok a, fun _ _ => rfl, h⟩

theorem answers_throw {err : TypeError} (h : err.isRecursive = false) :
    Answers P fun _ => throw err :=
  ⟨0, .error err, fun _ _ => rfl, h⟩

/-- A property of the answer may be weakened. -/
theorem Answers.mono {Q : α → Prop} {q : Nat → Lookup α} (h : Answers P q) (hPQ : ∀ a, P a → Q a) :
    Answers Q q := by
  obtain ⟨N, r, hq, hr⟩ := h
  refine ⟨N, r, hq, ?_⟩
  cases r with
  | error err => exact hr
  | ok a => exact hPQ a hr

/-- One more level of depth. -/
theorem Answers.of_succ {q : Nat → Lookup α} (h : Answers P fun n => q (n + 1)) : Answers P q := by
  obtain ⟨N, r, hq, hr⟩ := h
  refine ⟨N + 1, r, fun n hn => ?_, hr⟩
  obtain ⟨k, rfl⟩ : ∃ k, n = k + 1 := ⟨n - 1, by omega⟩
  exact hq k (by omega)

/-- A lookup may go on with its one answer. -/
theorem Answers.bind {q : Nat → Lookup α} {f : Nat → α → Lookup β} (h : Answers P q)
    (hf : ∀ a, P a → Answers R fun n => f n a) : Answers R fun n => q n >>= f n := by
  obtain ⟨N, r, hq, hr⟩ := h
  cases r with
  | error err =>
      refine ⟨N, .error err, fun n hn => ?_, hr⟩
      rw [ExceptT.run_bind, hq n hn]
      rfl
  | ok a =>
      obtain ⟨M, r, hf, hr⟩ := hf a hr
      refine ⟨max N M, r, fun n hn => ?_, hr⟩
      rw [ExceptT.run_bind, hq n (by omega)]
      exact hf n (by omega)

/-- Lookups for the entries of a list have one answer together. -/
theorem answers_mapM {f : Nat → α → Lookup β} {xs : List α}
    (h : ∀ x ∈ xs, Answers R fun n => f n x) :
    Answers (fun ys => ∀ y ∈ ys, R y) fun n => xs.mapM (f n) := by
  induction xs with
  | nil => exact answers_pure (by simp)
  | cons x xs ih =>
      simp only [List.mapM_cons]
      refine (h x (.head _)).bind fun y hy => ?_
      refine (ih fun z hz => h z (.tail _ hz)).bind fun ys hys => answers_pure ?_
      simpa using ⟨hy, hys⟩

/-- A list of lookups succeeds where each of them does. -/
theorem forall_of_forM_ok {f : α → Lookup Unit} {xs : List α} (h : (xs.forM f).run = .ok (.ok ())) :
    ∀ x ∈ xs, (f x).run = .ok (.ok ()) := by
  induction xs with
  | nil => simp
  | cons x xs ih =>
      change (f x >>= fun _ => xs.forM f).run = _ at h
      rw [ExceptT.run_bind] at h
      cases hx : (f x).run with
      | error fault =>
          rw [hx] at h
          cases h
      | ok o =>
          rw [hx] at h
          cases o with
          | error err => cases h
          | ok u => simpa [hx] using ih h

end

/-! ### Types without names at the head -/

namespace Ty

/-- No name stands at the head of the type, in unions and intersections neither. -/
inductive Structural : Ty → Prop
  | head {t : Ty} : t.isNamed = false → t.isUnion = false → t.parts = [t] → Structural t
  | union {ts : List Ty} : (∀ t ∈ ts, Structural t) → Structural (.union ts)
  | inter {ts : List Ty} : (∀ t ∈ ts, Structural t) → Structural (.inter ts)

theorem structural_prim (p : Prim) : Structural (.prim p) := .head rfl rfl rfl

theorem structural_object (o : Object) : Structural (.object o) := .head rfl rfl rfl

/-- The members of a structural type are structural. -/
theorem Structural.of_mem_members {t u : Ty} (h : Structural t) (hu : u ∈ t.members) :
    Structural u := by
  cases h with
  | union h => exact h u hu
  | inter h =>
      rw [List.mem_singleton.1 hu]
      exact .inter h
  | head hnamed hunion hparts =>
      cases t with
      | union ts => cases hunion
      | _ =>
          rw [List.mem_singleton.1 hu]
          exact .head hnamed hunion hparts

/-- So are its parts. -/
theorem Structural.of_mem_parts {t u : Ty} (h : Structural t) (hu : u ∈ t.parts) : Structural u := by
  cases h with
  | union h =>
      rw [List.mem_singleton.1 hu]
      exact .union h
  | inter h => exact h u hu
  | head hnamed hunion hparts =>
      rw [hparts, List.mem_singleton] at hu
      exact hu ▸ .head hnamed hunion hparts

mutual
theorem Structural.flat : ∀ {t : Ty}, Structural t → ∀ u ∈ t.flat, Structural u
  | .union ts, h, u, hu => by
      rw [Ty.flat] at hu
      exact structural_flatList (fun t ht => h.of_mem_members ht) u hu
  | .prim _, h, u, hu | .lit _, h, u, hu | .array _, h, u, hu | .tuple _, h, u, hu
  | .object _, h, u, hu | .func _, h, u, hu | .pred _ _, h, u, hu | .inter _, h, u, hu
  | .ref _ _, h, u, hu | .tvar _, h, u, hu | .classRef _, h, u, hu => by
      rwa [List.mem_singleton.1 hu]

theorem structural_flatList : ∀ {ts : List Ty}, (∀ t ∈ ts, Structural t) →
    ∀ u ∈ flatList ts, Structural u
  | [], _, u, hu => by cases hu
  | t :: ts, h, u, hu => by
      rw [flatList, List.mem_append] at hu
      rcases hu with hu | hu
      · exact Structural.flat (h t (.head _)) u hu
      · exact structural_flatList (fun t ht => h t (.tail _ ht)) u hu
end

theorem structural_unionOf {ts : List Ty} (h : ∀ t ∈ ts, Structural t) : Structural (unionOf ts) :=
  unionWith_induction _ structural_prim (fun _ => .union) (structural_flatList h)

/-- An intersection of structural types is structural. -/
theorem structural_interOf {ts : List Ty} (h : ∀ t ∈ ts, Structural t) : Structural (interOf ts) := by
  simp only [interOf, interWith]
  split
  · exact structural_prim _
  · refine ofParts_induction structural_prim (fun _ => .inter) fun u hu => ?_
    rcases List.mem_append.1 hu with hu | hu
    · obtain ⟨o, -, rfl⟩ := List.mem_map.1 hu
      exact structural_object o
    · have hu := List.mem_of_mem_filter ((distinctWith_sublist _ _).subset hu)
      obtain ⟨t, ht, hu⟩ := List.mem_flatMap.1 hu
      exact (h t ht).of_mem_parts hu

theorem Structural.filter {t : Ty} (h : Structural t) (keep : Ty → Bool) : Structural (t.filter keep) :=
  structural_unionOf fun _ hu => h.of_mem_members (List.mem_of_mem_filter hu)

theorem Structural.nullable {t : Ty} (h : Structural t) : Structural t.nullable :=
  structural_unionOf (by simpa using ⟨h, structural_prim _⟩)

end Ty

/-! ### Utilities -/

namespace Utility

/-- The utility brings no names to light and compares no types. -/
def Quiet (x : String) : Prop := x ∉ ["ReturnType", "KeyOf", "Exclude", "Extract"]

instance (x : String) : Decidable (Quiet x) :=
  inferInstanceAs (Decidable (x ∉ ["ReturnType", "KeyOf", "Exclude", "Extract"]))

theorem answered_map {α β : Type} {P : α → Prop} {R : β → Prop} {r : Except TypeError α} {g : α → β}
    (h : Answered P r) (hg : ∀ a, P a → R (g a)) : Answered R (r.map g) := by
  cases r with
  | error err => exact h
  | ok a => exact hg a h

mutual
theorem mapMembers_answered (x : String) (f : Member → Member) :
    ∀ {t : Ty}, t.Structural → Answered Ty.Structural (mapMembers x f t)
  | .object _, _ => Ty.structural_object _
  | .union ts, h => by
      have hts : Answered _ (mapMembersList x f ts) :=
        mapMembersList_answered x f fun t ht => h.of_mem_members ht
      exact answered_map hts fun _ => Ty.structural_unionOf
  | .prim p, _ => by cases p <;> first | exact Ty.structural_prim _ | rfl
  | .lit _, _ | .array _, _ | .tuple _, _ | .func _, _ | .pred _ _, _ | .inter _, _
  | .ref _ _, _ | .tvar _, _ | .classRef _, _ => rfl

/-- Changing members of structural types is answered. -/
theorem mapMembersList_answered (x : String) (f : Member → Member) :
    ∀ {ts : List Ty}, (∀ t ∈ ts, t.Structural) →
      Answered (fun us => ∀ u ∈ us, Ty.Structural u) (mapMembersList x f ts)
  | [], _ => by simp [mapMembersList, Answered]
  | t :: ts, h => by
      have ht := mapMembers_answered x f (h t (.head _))
      have hts := mapMembersList_answered x f fun u hu => h u (.tail _ hu)
      rw [mapMembersList]
      cases hr : mapMembers x f t with
      | error err =>
          rw [hr] at ht
          exact ht
      | ok u =>
          rw [hr] at ht
          exact answered_map hts fun us hus => by simpa using ⟨ht, hus⟩
end

theorem keysOf_answered (x : String) (t : Ty) (ts : List Ty) :
    Answered (fun _ => True) (keysOf x t ts) := by
  induction ts with
  | nil => trivial
  | cons u us ih =>
      unfold keysOf
      split
      · trivial
      · rename_i h
        cases h
        exact answered_map ih fun _ _ => trivial
      · rfl

theorem keys_answered (x : String) (t : Ty) : Answered (fun _ => True) (keys x t) :=
  answered_map (keysOf_answered x t t.members) fun _ _ => trivial

/-- So is keeping or dropping members. -/
theorem filterMembers_answered (x : String) (keep : Bool) (t ks : Ty) :
    Answered Ty.Structural (filterMembers x keep t ks) := by
  unfold filterMembers
  split
  · have h := keys_answered x ks
    cases hk : keys x ks with
    | error err =>
        rw [hk] at h
        exact h
    | ok names => exact Ty.structural_object _
  · rfl

theorem record_answered (ks value : Ty) : Answered Ty.Structural (record ks value) := by
  unfold record
  split
  · exact Ty.structural_object _
  · exact Ty.structural_object _
  · exact Ty.structural_object _
  · have h := keys_answered "Record" ks
    cases hk : keys "Record" ks with
    | error err =>
        rw [hk] at h
        exact h
    | ok names => exact Ty.structural_object _

theorem parameters_answered (t : Ty) : Answered Ty.Structural (parameters t) := by
  cases t with
  | func f => exact .head rfl rfl rfl
  | _ => rfl

/-- What a quiet utility makes of types without names at the head has none. -/
theorem structural?_answered {x : String} (hx : Quiet x) {args : List Ty}
    (hargs : ∀ a ∈ args, a.Structural) {r : Except TypeError Ty} (hr : structural? x args = some r) :
    Answered Ty.Structural r := by
  unfold structural? at hr
  split at hr
  · cases hr
    exact mapMembers_answered _ _ (hargs _ (.head _))
  · cases hr
    exact mapMembers_answered _ _ (hargs _ (.head _))
  · cases hr
    exact mapMembers_answered _ _ (hargs _ (.head _))
  · cases hr
    exact filterMembers_answered _ _ _ _
  · cases hr
    exact filterMembers_answered _ _ _ _
  · cases hr
    exact record_answered _ _
  · cases hr
    exact (hargs _ (.head _)).filter _
  · cases hr
    exact (hargs _ (.head _)).nullable
  · exact absurd (by decide) hx
  · cases hr
    exact parameters_answered _
  · exact absurd (by decide) hx
  · cases hr

end Utility

namespace Env

open Utility (Quiet)

variable {e : Env}

/-- A quiet utility has one answer on structural arguments. -/
theorem applyUtility_answers {x : String} (hx : Quiet x) {args : List Ty}
    (hargs : ∀ a ∈ args, a.Structural) (r : Nat → Resolver) :
    Answers Ty.Structural fun n => applyUtility (r n) x args := by
  unfold applyUtility
  split
  · exact absurd (by decide) hx
  · exact absurd (by decide) hx
  · cases hr : Utility.structural? x args with
    | none => exact answers_throw rfl
    | some o => exact ⟨0, o, fun _ _ => rfl, Utility.structural?_answered hx hargs hr⟩

/-- The arguments of a utility, if each has an answer. -/
theorem utilityArgs_answers {q : Nat → Ty → Lookup Ty} {args : List Ty}
    (h : ∀ a ∈ args, Answers Ty.Structural fun n => q n a) :
    Answers (fun o => ∀ as, o = some as → ∀ a ∈ as, Ty.Structural a) fun n =>
      utilityArgs (q n) args := by
  induction args with
  | nil => exact answers_pure (by simp)
  | cons a as ih =>
      unfold utilityArgs
      split
      · exact answers_pure (by simp)
      · refine (h a (.head _)).bind fun u hu => ?_
        refine (ih fun b hb => h b (.tail _ hb)).bind fun o ho => answers_pure ?_
        rintro us hus
        obtain ⟨vs, hvs, rfl⟩ := Option.map_eq_some_iff.1 hus
        simpa using ⟨hu, ho vs hvs⟩

/-- A utility gives its result, or waits as it is. -/
theorem utilityWith_answers {x : String} (hx : Quiet x) {resolve : Nat → String → List Ty → Lookup Ty}
    {q : Nat → Ty → Lookup Ty} {args : List Ty}
    (h : ∀ a ∈ args, Answers Ty.Structural fun n => q n a) :
    Answers (fun t => t.Structural ∨ t = .ref x args) fun n => e.utilityWith (resolve n) (q n) x args := by
  simp only [utilityWith]
  by_cases hwant : args.length = (utilities.get? x).getD 0
  · simp only [hwant, ne_eq, not_true_eq_false, if_false]
    refine (utilityArgs_answers h).bind fun o ho => ?_
    cases o with
    | none => exact answers_pure (Or.inr rfl)
    | some as => exact (applyUtility_answers hx (ho as rfl) _).mono fun _ => Or.inl
  · simp only [ne_eq, hwant, not_false_eq_true, if_true]
    exact answers_throw rfl

/-! ### Expanding what validation has walked through -/

/-- A type without names at the head is expanded at once. -/
theorem structuralUpTo_answers {t : Ty} (h : t.Structural) (act : List String) (left : Nat) :
    Answers Ty.Structural fun n => e.structuralUpTo n act left t := by
  induction h generalizing left with
  | @head t hnamed hunion hparts =>
      refine Answers.of_succ ?_
      cases left with
      | zero => exact answers_pure (Ty.structural_prim _)
      | succ left =>
          cases t with
          | ref y args | classRef y => cases hnamed
          | union ts => cases hunion
          | inter ts =>
              have hsize : Ty.sizeList ts = Ty.sizeList [.inter ts] := congrArg Ty.sizeList hparts
              simp only [Ty.sizeList, Ty.size] at hsize
              omega
          | _ => exact answers_pure (.head hnamed hunion hparts)
  | @union ts h ih =>
      refine Answers.of_succ ?_
      cases left with
      | zero => exact answers_pure (Ty.structural_prim _)
      | succ left =>
          exact (answers_mapM fun t ht => ih t ht _).bind fun us hus =>
            answers_pure (Ty.structural_unionOf hus)
  | @inter ts h ih =>
      refine Answers.of_succ ?_
      cases left with
      | zero => exact answers_pure (Ty.structural_prim _)
      | succ left =>
          exact (answers_mapM fun t ht => ih t ht _).bind fun us hus =>
            answers_pure (Ty.structural_interOf hus)

/-- What expansion makes of the type has an answer, whichever of the names are marked. -/
def Opens (e : Env) (active : List String) (t : Ty) : Prop :=
  ∀ act ⊆ active, ∀ left, Answers Ty.Structural fun n => e.structuralUpTo n act left t

theorem Opens.mono {active active' : List String} {t : Ty} (h : e.Opens active t)
    (hsub : active' ⊆ active) : e.Opens active' t :=
  fun act hact => h act fun _ hx => hsub (hact hx)

/-- A reference can be expanded if what it resolves to can. -/
theorem opens_of_resolve {active : List String} {x : String} {args : List Ty}
    (h : ∀ act ⊆ active, Answers (e.Opens active) fun n => e.resolveUpTo n act x args) :
    e.Opens active (.ref x args) := by
  intro act hact left
  refine Answers.of_succ ?_
  cases left with
  | zero => exact answers_pure (Ty.structural_prim _)
  | succ left => exact (h act hact).bind fun u hu => hu act hact left

/-- A utility that waits is asked again as long as references may be followed. -/
theorem opens_of_utility {active : List String} {x : String} {args : List Ty}
    (h : ∀ act ⊆ active,
      Answers (fun t => t.Structural ∨ t = .ref x args) fun n => e.resolveUpTo n act x args) :
    e.Opens active (.ref x args) := by
  intro act hact left
  induction left with
  | zero => exact Answers.of_succ (answers_pure (Ty.structural_prim _))
  | succ left ih =>
      refine Answers.of_succ ((h act hact).bind fun u hu => ?_)
      rcases hu with hu | rfl
      · exact structuralUpTo_answers hu act left
      · exact ih

/-- Definitions that validation and expansion walk through alike: only quiet utilities, and no alias
all of whose parameters have defaults; without parameters, the body is in normal form. -/
structure Orderly (e : Env) : Prop where
  quiet : ∀ x a, e.alias? x = some a → a.body.AllUnguarded fun y _ => Quiet y
  defaults : ∀ x a, e.alias? x = some a → ∀ p ∈ a.params, ∀ d, p.default = some d →
    d.AllUnguarded fun y _ => Quiet y
  plain : ∀ x a, e.alias? x = some a →
    a.params = [] ∧ a.body.apply [] = a.body ∨ requiredTypeParams a.params ≠ 0

/-- The aliases are the only definitions. -/
def OnlyAliases (e : Env) : Prop := e.interfaces = [] ∧ e.classes = []

/-- Binding arguments reports no recursive alias. -/
theorem isRecursive_of_bindNamed {x : String} {ps : List TypeParam} {args : List Ty} {err : TypeError}
    (h : (bindNamed x ps args).run = .ok (.error err)) : err.isRecursive = false := by
  unfold bindNamed at h
  split at h
  · cases hb : bindParams ps args [] with
    | error fault =>
        rw [hb] at h
        cases h
    | ok s =>
        rw [hb] at h
        cases h
  · cases h
    rfl

/-- Putting arguments in brings no other utilities in. -/
theorem quiet_apply (h : e.Orderly) {x : String} {a : Alias} (ha : e.alias? x = some a) {args : List Ty}
    (hargs : ∀ t ∈ args, t.AllUnguarded fun y _ => Quiet y) {s : Subst}
    (hs : (bindNamed x a.params args).run = .ok (.ok s)) :
    (a.body.apply s).AllUnguarded fun y _ => Quiet y := by
  have hvalues : ∀ b ∈ s, b.2.AllUnguarded fun y _ => Quiet y :=
    allUnguarded_of_bindParams (fun p hp d hd y us hy _ => h.defaults x a ha p hp d hd y us hy) hargs
      (by simp) (bindParams_of_bindNamed hs)
  exact Ty.allUnguarded_applyWith _ (fun v t hv => hvalues _ (Assoc.mem_of_get? hv))
    fun y us hy => h.quiet x a ha y us hy

/-- A name that is built in resolves to its type. -/
theorem resolve_builtin_answers {active act : List String} {x : String} {b : Ty}
    (hb : builtin? x = some b) (args : List Ty) :
    Answers (e.Opens active) fun n => e.resolveUpTo n act x args := by
  refine Answers.of_succ ?_
  simp only [resolveUpTo, hb]
  cases args with
  | nil =>
      obtain ⟨p, -, rfl⟩ := prim_of_builtin? hb
      exact answers_pure fun act _ left => structuralUpTo_answers (Ty.structural_prim p) act left
  | cons t ts => exact answers_throw rfl

/-- A name that stands for no alias has an answer at once. -/
theorem resolve_other_answers (hdefs : e.OnlyAliases) {active act : List String} {x : String}
    (hact : x ∉ act) (hbuiltin : builtin? x = none) (hutility : isUtility x = false)
    (ha : e.alias? x = none) (args : List Ty) :
    Answers (e.Opens active) fun n => e.resolveUpTo n act x args := by
  refine Answers.of_succ ?_
  have hact : act.contains x = false := by simpa using hact
  have hinterface : e.interface? x = none := by
    rw [interface?, hdefs.1]
    rfl
  have hclass : e.class? x = none := by
    rw [class?, hdefs.2]
    rfl
  simp only [resolveUpTo, hbuiltin, hutility, hact, ha, hinterface, hclass, Bool.false_eq_true, if_false]
  exact answers_throw rfl

/-- An alias resolves to its body, with the arguments put in, and to what that resolves to. -/
theorem resolve_alias_answers {active act : List String} (hact : act ⊆ active) {x : String}
    (hbuiltin : builtin? x = none) (hutility : isUtility x = false) (hx : x ∉ active) {a : Alias}
    (ha : e.alias? x = some a) {args : List Ty} {s : Subst}
    (hs : (bindNamed x a.params args).run = .ok (.ok s))
    (hopens : e.Opens (x :: active) (a.body.apply s))
    (hresolve : ∀ y us, a.body.apply s = .ref y us → ∀ act ⊆ x :: active,
      Answers (e.Opens (x :: active)) fun n => e.resolveUpTo n act y us) :
    Answers (e.Opens active) fun n => e.resolveUpTo n act x args := by
  have hact' : act.contains x = false := by simpa using fun h => hx (hact h)
  refine Answers.of_succ ?_
  simp only [resolveUpTo, hbuiltin, hutility, hact', ha, Bool.false_eq_true, if_false]
  have hbind : bindNamed x a.params args = (pure s : Lookup Subst) := hs
  simp only [hbind, pure_bind]
  have hsub : active ⊆ x :: active := fun y hy => .tail _ hy
  cases hbody : a.body.apply s with
  | ref y us =>
      have hinner := hresolve y us hbody (x :: act) (List.cons_subset_cons x hact)
      exact hinner.mono fun u hu => hu.mono hsub
  | _ => exact answers_pure (hbody ▸ hopens.mono hsub)

/-- An alias that validation has walked through resolves, if its definition opens wherever validation
walks through it. -/
theorem resolve_answers_of_walk (h : e.Orderly) {n : Nat} {path active act : List String}
    (hact : act ⊆ active) {x : String} {args : List Ty} (hbuiltin : builtin? x = none)
    (hutility : isUtility x = false) {a : Alias} (ha : e.alias? x = some a)
    (hquiet : ∀ t ∈ args, t.AllUnguarded fun y _ => Quiet y)
    (hwalk : (e.walkAliasUpTo (n + 1) path active (.ref x args)).run = .ok (.ok ()))
    (hbody : ∀ body path, body.AllUnguarded (fun y _ => Quiet y) →
      (e.walkAliasUpTo n path (x :: active) body).run = .ok (.ok ()) →
      e.Opens (x :: active) body ∧ ∀ y us, body = .ref y us → ∀ act ⊆ x :: active,
        Answers (e.Opens (x :: active)) fun n => e.resolveUpTo n act y us) :
    Answers (e.Opens active) fun n => e.resolveUpTo n act x args := by
  have hx : x ∉ active := by
    intro hx
    simp only [walkAliasUpTo, hutility, ha, List.contains_iff_mem.2 hx, Bool.false_eq_true, if_false,
      if_true] at hwalk
    cases hwalk
  have herror : ∀ err, (bindNamed x a.params args).run = .ok (.error err) →
      Answers (e.Opens active) fun n => e.resolveUpTo n act x args := by
    intro err herr
    refine Answers.of_succ ?_
    have hact : act.contains x = false := by simpa using fun h => hx (hact h)
    simp only [resolveUpTo, hbuiltin, hutility, hact, ha, Bool.false_eq_true, if_false]
    have hbind : bindNamed x a.params args = (throw err : Lookup Subst) := herr
    simp only [hbind]
    exact answers_throw (isRecursive_of_bindNamed herr)
  obtain ⟨body, hwalk, hargs⟩ := walk_alias hutility ha hx hwalk
  rcases hargs with ⟨rfl, rfl⟩ | ⟨-, ⟨⟨err, herr⟩, -⟩ | ⟨s, hs, rfl⟩⟩
  · rcases h.plain x a ha with ⟨hps, hstable⟩ | hrequired
    · have hs : (bindNamed x a.params []).run = .ok (.ok []) := by
        rw [hps]
        rfl
      have hopens := hbody a.body _ (h.quiet x a ha) hwalk
      rw [← hstable] at hopens
      exact resolve_alias_answers hact hbuiltin hutility hx ha hs hopens.1 hopens.2
    · refine herror (.arity x (requiredTypeParams a.params) a.params.length 0) ?_
      have hfits : argumentCountFits a.params [] = false := by
        simpa [argumentCountFits] using hrequired
      simp only [bindNamed, hfits, Bool.false_eq_true, if_false]
      rfl
  · exact herror err herr
  · have hopens := hbody _ _ (quiet_apply h ha hquiet hs) hwalk
    exact resolve_alias_answers hact hbuiltin hutility hx ha hs hopens.1 hopens.2

/-- **What validation has walked through can be expanded**, with the marks of the walk or fewer. -/
theorem answers_of_walk (hdefs : e.OnlyAliases) (h : e.Orderly) {n : Nat} {path active : List String}
    (hactive : ∀ x ∈ active, (e.alias? x).isSome = true) {t : Ty}
    (hquiet : t.AllUnguarded fun y _ => Quiet y)
    (hwalk : (e.walkAliasUpTo n path active t).run = .ok (.ok ())) :
    e.Opens active t ∧ ∀ x args, t = .ref x args → ∀ act ⊆ active,
      Answers (e.Opens active) fun n => e.resolveUpTo n act x args := by
  induction n generalizing path active t with
  | zero => cases hwalk
  | succ n ih =>
      cases t with
      | prim p | lit l | array u | tuple ts | object o | func f | pred y u | tvar v =>
          exact ⟨fun act _ left => structuralUpTo_answers (.head rfl rfl rfl) act left, nofun⟩
      | classRef y =>
          refine ⟨fun act _ left => Answers.of_succ ?_, nofun⟩
          cases left with
          | zero => exact answers_pure (Ty.structural_prim _)
          | succ left =>
              cases ho : e.staticType y with
              | ok o =>
                  simp only [structuralUpTo, ho]
                  exact answers_pure (Ty.structural_object o)
              | error err =>
                  simp only [structuralUpTo, ho]
                  refine answers_throw ?_
                  unfold staticType at ho
                  split at ho
                  · cases ho
                  · split at ho <;> cases ho
                    rfl
      | union ts =>
          refine ⟨fun act hact left => Answers.of_succ ?_, nofun⟩
          have hmem := forall_of_forM_ok hwalk
          cases left with
          | zero => exact answers_pure (Ty.structural_prim _)
          | succ left =>
              refine (answers_mapM fun u hu => ?_).bind fun us hus =>
                answers_pure (Ty.structural_unionOf hus)
              exact (ih hactive (hquiet.part rfl (.union hu)) (hmem u hu)).1 act hact maxReferences
      | inter ts =>
          refine ⟨fun act hact left => Answers.of_succ ?_, nofun⟩
          have hmem := forall_of_forM_ok hwalk
          cases left with
          | zero => exact answers_pure (Ty.structural_prim _)
          | succ left =>
              refine (answers_mapM fun u hu => ?_).bind fun us hus =>
                answers_pure (Ty.structural_interOf hus)
              exact (ih hactive (hquiet.part rfl (.inter hu)) (hmem u hu)).1 act hact maxReferences
      | ref y args =>
          have hquiet' : ∀ a ∈ args, a.AllUnguarded fun z _ => Quiet z :=
            fun a ha => hquiet.part rfl (.arg ha)
          -- it is enough that the reference resolves, and that it opens if it resolves to itself
          suffices hmain : e.Opens active (.ref y args) ∧ ∀ act ⊆ active,
              Answers (e.Opens active) fun n => e.resolveUpTo n act y args by
            refine ⟨hmain.1, fun x as hx => ?_⟩
            cases hx
            exact hmain.2
          cases hbuiltin : builtin? y with
          | some b =>
              have hresolve : ∀ act ⊆ active, Answers (e.Opens active) fun n => e.resolveUpTo n act y args :=
                fun act _ => resolve_builtin_answers hbuiltin args
              exact ⟨opens_of_resolve hresolve, hresolve⟩
          | none =>
              cases hutility : isUtility y with
              | true =>
                  simp only [walkAliasUpTo, hutility, if_true] at hwalk
                  have hmem := forall_of_forM_ok hwalk
                  have hresolve : ∀ act ⊆ active, Answers (fun t => t.Structural ∨ t = .ref y args)
                      fun n => e.resolveUpTo n act y args := by
                    intro act hact
                    refine Answers.of_succ ?_
                    simp only [resolveUpTo, hbuiltin, hutility, if_true]
                    exact utilityWith_answers (hquiet y args .ref) fun a ha =>
                      (ih hactive (hquiet' a ha) (hmem a ha)).1 act hact maxReferences
                  have hopens := opens_of_utility hresolve
                  refine ⟨hopens, fun act hact => (hresolve act hact).mono fun u hu => ?_⟩
                  rcases hu with hu | rfl
                  · exact fun act _ left => structuralUpTo_answers hu act left
                  · exact hopens
              | false =>
                  have hresolve : ∀ act ⊆ active,
                      Answers (e.Opens active) fun n => e.resolveUpTo n act y args := by
                    intro act hact
                    cases ha : e.alias? y with
                    | none =>
                        have hy : y ∉ act := fun hy => by simpa [ha] using hactive y (hact hy)
                        exact resolve_other_answers hdefs hy hbuiltin hutility ha args
                    | some a =>
                        refine resolve_answers_of_walk h hact hbuiltin hutility ha hquiet' hwalk
                          fun body path hbody hwalk => ih ?_ hbody hwalk
                        exact List.forall_mem_cons.2 ⟨by rw [ha]; rfl, hactive⟩
                  exact ⟨opens_of_resolve hresolve, hresolve⟩

/-- Validation accepts the type as it accepts the definition of an alias. -/
def Passes (e : Env) (t : Ty) : Prop := ∃ n, (e.walkAliasUpTo n [] [] t).run = .ok (.ok ())

/-- A name passes if its definition is valid. -/
theorem passes_of_validates {x : String}
    (h : ∀ a, e.alias? x = some a → (e.validateAlias x).run = .ok (.ok ())) : e.Passes (.ref x []) := by
  cases hutility : isUtility x with
  | true => exact ⟨1, by simp [walkAliasUpTo, hutility]; rfl⟩
  | false =>
      cases ha : e.alias? x with
      | none => exact ⟨1, by simp [walkAliasUpTo, hutility, ha]; rfl⟩
      | some a =>
          have hvalidate := h a ha
          simp only [validateAlias, ha] at hvalidate
          refine ⟨e.depthFor a.body + 1, ?_⟩
          simpa [walkAliasUpTo, hutility, ha] using hvalidate

/-- **What validation promises.**  If every alias is valid, every reference without arguments can be
expanded, and so can one with arguments that would be valid as a definition. -/
theorem structural_answers_of_validates (hdefs : e.OnlyAliases) (h : e.Orderly)
    (hvalid : ∀ x a, e.alias? x = some a → (e.validateAlias x).run = .ok (.ok ())) {x : String}
    {args : List Ty} (hquiet : Ty.AllUnguarded (fun y _ => Quiet y) (.ref x args))
    (hargs : args = [] ∨ e.Passes (.ref x args)) :
    ∃ N r, (∀ n, N ≤ n → (e.structuralUpTo n [] maxReferences (.ref x args)).run = .ok r) ∧
      ∀ y path, r ≠ .error (.recursiveAlias y path) := by
  obtain ⟨n, hwalk⟩ : e.Passes (.ref x args) := by
    rcases hargs with rfl | hpasses
    · exact passes_of_validates (hvalid x)
    · exact hpasses
  have hopens := (answers_of_walk hdefs h (by simp) hquiet hwalk).1
  obtain ⟨N, r, hr, hanswered⟩ := hopens [] (List.Subset.refl _) maxReferences
  refine ⟨N, r, hr, fun y path hrec => ?_⟩
  rw [hrec] at hanswered
  cases hanswered

end Env

/-- A shelf holds boxes with names, or leads to the next shelf. -/
def shelfAlias : Alias where
  name := "Shelf"
  body := .union
    [.ref "Box" [.ref "Name" []], .object { members := [{ name := "next", type := .ref "Shelf" [] }] }]

def shelfEnv : Env where
  aliases := [("Name", { name := "Name", body := .string }), ("Box", boxAlias), ("Shelf", shelfAlias)]

theorem orderly_shelfEnv : shelfEnv.Orderly := by
  have hname : Ty.AllUnguarded (fun y _ => Utility.Quiet y) (.ref "Name" []) :=
    Ty.allUnguarded_ref (by decide) (by simp)
  have halias : ∀ x a, shelfEnv.alias? x = some a →
      a = { name := "Name", body := .string } ∨ a = boxAlias ∨ a = shelfAlias := by
    intro x a ha
    have hmem := Assoc.mem_of_get? (show shelfEnv.aliases.get? x = some a from ha)
    simp only [shelfEnv, List.mem_cons, Prod.mk.injEq, List.not_mem_nil, or_false] at hmem
    tauto
  refine ⟨fun x a ha => ?_, fun x a ha p hp d hd => ?_, fun x a ha => ?_⟩
  · rcases halias x a ha with rfl | rfl | rfl
    · exact Ty.allUnguarded_prim _
    · exact allUnguarded_boxAlias
    · refine Ty.allUnguarded_union fun t ht => ?_
      simp only [List.mem_cons, List.not_mem_nil, or_false] at ht
      rcases ht with rfl | rfl
      · exact Ty.allUnguarded_ref (by decide) (by simpa using hname)
      · exact Ty.allUnguarded_object _
  · rcases halias x a ha with rfl | rfl | rfl
    · cases hp
    · rw [List.mem_singleton.1 hp] at hd
      cases hd
    · cases hp
  · rcases halias x a ha with rfl | rfl | rfl
    · exact Or.inl ⟨rfl, rfl⟩
    · exact Or.inr (by decide)
    · exact Or.inl ⟨rfl, rfl⟩

theorem structural_answers_of_validates_shelves :
    (∀ x a, shelfEnv.alias? x = some a → (shelfEnv.validateAlias x).run = .ok (.ok ())) ∧
      shelfEnv.Passes (.ref "Box" [.ref "Name" []]) ∧
      ∃ N r, (∀ n, N ≤ n → (shelfEnv.structuralUpTo n [] Env.maxReferences
          (.ref "Box" [.ref "Name" []])).run = .ok r) ∧
        ∀ y path, r ≠ .error (.recursiveAlias y path) := by
  have hvalid : ∀ x a, shelfEnv.alias? x = some a → (shelfEnv.validateAlias x).run = .ok (.ok ()) := by
    intro x a ha
    have hmem := Assoc.mem_of_get? (show shelfEnv.aliases.get? x = some a from ha)
    simp only [shelfEnv, List.mem_cons, Prod.mk.injEq, List.not_mem_nil, or_false] at hmem
    rcases hmem with ⟨rfl, -⟩ | ⟨rfl, -⟩ | ⟨rfl, -⟩ <;> rfl
  have hname : Ty.AllUnguarded (fun y _ => Utility.Quiet y) (.ref "Name" []) :=
    Ty.allUnguarded_ref (by decide) (by simp)
  have hpasses : shelfEnv.Passes (.ref "Box" [.ref "Name" []]) := ⟨4, rfl⟩
  exact ⟨hvalid, hpasses, Env.structural_answers_of_validates ⟨rfl, rfl⟩ orderly_shelfEnv hvalid
    (Ty.allUnguarded_ref (by decide) (by simpa using hname)) (Or.inr hpasses)⟩

/-! ### A reference that is no definition -/

/-- An alias that stands for its argument. -/
def sameEnv : Env where
  aliases := [("Same", { name := "Same", params := [{ name := "T" }], body := .tvar "T" })]

/-- **Valid aliases may be found recursive**: the argument meets the mark of the alias that it is given
to, at every depth at which there is an answer. -/
theorem structural_same :
    (∀ x a, sameEnv.alias? x = some a → (sameEnv.validateAlias x).run = .ok (.ok ())) ∧
      (sameEnv.structural (.ref "Same" [.ref "Same" [.number]])).run =
        .ok (.error (.recursiveAlias "Same" ["Same", "Same"])) ∧
      ∀ n, (sameEnv.structuralUpTo (n + 3) [] Env.maxReferences
          (.ref "Same" [.ref "Same" [.number]])).run =
        .ok (.error (.recursiveAlias "Same" ["Same", "Same"])) := by
  have hdeep : ∀ n, (sameEnv.structuralUpTo (n + 3) [] Env.maxReferences
      (.ref "Same" [.ref "Same" [.number]])).run =
        .ok (.error (.recursiveAlias "Same" ["Same", "Same"])) := fun n => rfl
  refine ⟨fun x a ha => ?_, hdeep 4010, hdeep⟩
  have hmem := Assoc.mem_of_get? (show sameEnv.aliases.get? x = some a from ha)
  simp only [sameEnv, List.mem_cons, Prod.mk.injEq, List.not_mem_nil, or_false] at hmem
  rw [hmem.1]
  rfl

end TreeCheck
