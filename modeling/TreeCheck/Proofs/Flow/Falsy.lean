import TreeCheck.Flow.Guard
import TreeCheck.Proofs.Assign.Ground
import TreeCheck.Proofs.Assign.Nil
import TreeCheck.Proofs.Flow.Chains
import TreeCheck.Proofs.Flow.Spread

/-!
# What a failed test leaves

Where a reference is tested and the test fails, its type is spread, and of the members only those that show
`nil` or `false` are kept.  Names of unions are expanded for that.  A name of anything else stays and is
dropped, though `boolean` or `nil` may be behind it, and so are intersections and predicates: a value may be
of the type and not of what is left.  Nothing is lost where each type that is reached through unions either
shows the value or refuses it.

* `Ty.Shows`, `Resolver.Refuses` — the head of a type shows the value, or the value is not of the type;
* `Resolver.Overt` — through the unions behind names a type is made up of types that show or refuse the value;
* `not_compatible_of_refuses`, `exists_leaf_of_compatible` — what the comparison says of such types;
* `accepts_falsy_unionOf` — a member that shows the value is kept;
* `met_of_lists`, `eq_of_text` — what spreading expands is met when the value is compared;
* `Guard.get?_narrow` — what a condition that is a reference leaves;
* `KeepsFalsy`, `keepsFalsy_of_overt` — nothing is lost;
* `not_keepsFalsy_name`, `not_keepsFalsy_flag` — behind a name of anything but a union the value is lost.
-/

namespace TreeCheck

open Ty Rules

/-- The values that count as false. -/
def IsFalsy (v : Ty) : Prop := v = .nil ∨ v = .bool false

/-- The head of the type shows that the value is of it. -/
def Ty.Shows (t v : Ty) : Prop := t = .unknown ∨ t = v ∨ ∃ p, t = .prim p ∧ assignToPrim v p = true

/-- The value is not of the type: the head says so, or a part of an intersection, each member of a union, or
what a name stands for. -/
inductive Resolver.Refuses (r : Resolver) (v : Ty) : Ty → Prop
  | prim {p : Prim} : p ≠ .unknown → assignToPrim v p = false → r.Refuses v (.prim p)
  | lit {l : Lit} : v ≠ .lit l → r.Refuses v (.lit l)
  | pred {x : String} {t : Ty} : assignToPrim v .boolean = false → r.Refuses v (.pred x t)
  | array (t : Ty) : r.Refuses v (.array t)
  | tuple (ts : List Ty) : r.Refuses v (.tuple ts)
  | object (o : Object) : r.Refuses v (.object o)
  | func (f : Func) : r.Refuses v (.func f)
  | tvar (x : String) : r.Refuses v (.tvar x)
  | part {ts : List Ty} {u : Ty} : u ∈ ts → r.Refuses v u → r.Refuses v (.inter ts)
  | union {ts : List Ty} : (∀ u ∈ ts, r.Refuses v u) → r.Refuses v (.union ts)
  | name {t u : Ty} : t.isNamed = true → r.expand t = .ok (some u) → r.Refuses v u → r.Refuses v t

/-- Through at most `n` unions behind names, each type either shows the value, itself or in a union inside, or
refuses it. -/
inductive Resolver.Overt (r : Resolver) (v : Ty) : Nat → Ty → Prop
  | shown {n : Nat} {t x : Ty} : x ∈ t.flat → x.Shows v → r.Overt v n t
  | refused {n : Nat} {t : Ty} : t.isNamed = false → r.Refuses v t → r.Overt v n t
  | name {n : Nat} {t u : Ty} : t.isNamed = true → r.expand t = .ok (some u) → u.isUnion = false →
      r.Refuses v u → r.Overt v n t
  | union {n : Nat} {t : Ty} {ts : List Ty} : r.Lists t ts → (∀ u ∈ ts, r.Overt v n u) →
      r.Overt v (n + 1) t

section Falsy

variable {r : Resolver} {v t : Ty} (hv : IsFalsy v)

/-! ### Comparing with a value -/

/-- A type that shows a falsy value is no reference. -/
theorem Ty.Shows.ne_ref (hv : IsFalsy v) {x : Ty} (h : x.Shows v) (hx : x ∈ t.flat) (y : String)
    (args : List Ty) : t ≠ .ref y args := by
  rintro rfl
  obtain rfl : x = .ref y args := List.mem_singleton.1 hx
  rcases h with h | h | ⟨p, h, -⟩
  · cases h
  · rcases hv with rfl | rfl <;> cases h
  · cases h

include hv

theorem IsFalsy.predToBoolean : v.predToBoolean = v := by rcases hv with rfl | rfl <;> rfl

theorem IsFalsy.opensNames (hnamed : t.isNamed = true) : opensNames v t = true := by
  rcases hv with rfl | rfl <;> cases t <;> first | rfl | cases hnamed

theorem IsFalsy.open : r.open v = .ok (some v) := by rcases hv with rfl | rfl <;> rfl

/-- A type that takes the value is `unknown` or the value, or takes it in one step. -/
theorem cases_of_compatible (h : ({} : Rules).Compatible r [] v t) :
    t = .unknown ∨ t.predToBoolean = v ∨
      ({} : Rules).Step r (({} : Rules).Compatible r []) v t.predToBoolean := by
  rcases h.kept with hearly | ⟨-, hpending | hstep⟩
  · rcases cases_of_early hearly with h | h | h | heq
    · exact Or.inl h
    · rcases hv with rfl | rfl <;> cases h
    · rcases hv with rfl | rfl <;> cases h
    · refine Or.inr (Or.inl ?_)
      rw [hv.predToBoolean] at heq
      rcases hv with rfl | rfl
      · exact equal_prim_iff.1 heq
      · obtain ⟨k, hk, hsame⟩ := equal_lit_iff.1 heq
        cases k with
        | bool b =>
            obtain rfl : false = b := by simpa [Lit.same] using hsame
            exact hk
        | _ => cases hsame
  · cases hpending
  · rw [hv.predToBoolean] at hstep
    exact Or.inr (Or.inr hstep)

/-- A union takes the value by one of its members. -/
theorem compatible_union {ts : List Ty} (h : ({} : Rules).Compatible r [] v (.union ts)) :
    ∃ u ∈ ts, ({} : Rules).Compatible r [] v u := by
  rcases cases_of_compatible hv h with h | h | hstep
  · cases h
  · rcases hv with rfl | rfl <;> cases h
  · have hgoal : (unionGoal v ts).Holds (({} : Rules).Compatible r []) := by
      rcases hv with rfl | rfl <;> exact hstep
    rcases hgoal with hany | hboolean
    · obtain ⟨g, hg, hu⟩ := (Goal.holds_any _).1 hany
      obtain ⟨u, hmem, rfl⟩ := List.mem_map.1 hg
      exact ⟨u, hmem, hu⟩
    · rcases hv with rfl | rfl <;> cases hboolean

/-- An intersection takes the value by all of its parts. -/
theorem compatible_inter {ts : List Ty} (h : ({} : Rules).Compatible r [] v (.inter ts)) :
    ∀ u ∈ ts, ({} : Rules).Compatible r [] v u := by
  rcases cases_of_compatible hv h with h | h | hstep
  · cases h
  · rcases hv with rfl | rfl <;> cases h
  · have hgoal : (Goal.all (ts.map (.ask v))).Holds (({} : Rules).Compatible r []) := by
      rcases hv with rfl | rfl <;> exact hstep
    exact fun u hu => (Goal.holds_all _).1 hgoal _ (List.mem_map_of_mem hu)

/-- A name takes the value by what it stands for. -/
theorem compatible_name {u : Ty} (hnamed : t.isNamed = true) (hopen : r.expand t = .ok (some u))
    (h : ({} : Rules).Compatible r [] v t) : ({} : Rules).Compatible r [] v u := by
  have hstep : ({} : Rules).Step r (({} : Rules).Compatible r []) v t := by
    rcases cases_of_compatible hv h with rfl | heq | hstep
    · cases hnamed
    · rcases hv with rfl | rfl <;> cases t <;> first | exact absurd hnamed Bool.false_ne_true | cases heq
    · cases t <;> first | exact hstep | cases hnamed
  have hby : r.byName? v t = none := by rcases hv with rfl | rfl <;> rfl
  rw [Step, if_pos (hv.opensNames hnamed), Resolver.NamedHolds, hby] at hstep
  exact hstep v u hv.open (by rw [Resolver.open, if_pos hnamed, hopen])

/-- **What refuses the value does not take it.** -/
theorem not_compatible_of_refuses (h : r.Refuses v t) : ¬ ({} : Rules).Compatible r [] v t := by
  induction h with
  | @prim p hunknown hassign =>
      intro h
      rcases cases_of_compatible hv h with h | h | hstep
      · injection h with h
        exact hunknown h
      · rcases hv with rfl | rfl
        · injection h with h
          subst h
          cases hassign
        · cases h
      · have hanswer : assignToPrim v p = true := by rcases hv with rfl | rfl <;> exact hstep
        rw [hassign] at hanswer
        cases hanswer
  | lit hne =>
      intro h
      rcases cases_of_compatible hv h with h | h | hstep
      · cases h
      · exact hne h.symm
      · rcases hv with rfl | rfl <;> cases hstep
  | pred hassign =>
      intro h
      rcases cases_of_compatible hv h with h | h | hstep
      · cases h
      · rcases hv with rfl | rfl <;> cases h
      · rcases hv with rfl | rfl
        · cases hstep
        · cases hassign
  | array | tuple | object | func | tvar =>
      intro h
      rcases cases_of_compatible hv h with h | h | hstep
      · cases h
      · rcases hv with rfl | rfl <;> cases h
      · rcases hv with rfl | rfl <;> cases hstep
  | part hu _ ih => exact fun h => ih (compatible_inter hv h _ hu)
  | union _ ih =>
      intro h
      obtain ⟨u, hu, hcompatible⟩ := compatible_union hv h
      exact ih u hu hcompatible
  | name hnamed hopen _ ih => exact fun h => ih (compatible_name hv hnamed hopen h)

theorem Resolver.Overt.ends {n : Nat} (h : r.Overt v n t) : r.Ends n t := by
  induction h with
  | shown hx hshows => exact .other (hshows.ne_ref hv hx)
  | refused hnamed _ =>
      refine .other fun x args heq => ?_
      rw [heq] at hnamed
      cases hnamed
  | @name n t u hnamed hopen hunion _ =>
      by_cases href : ∃ x args, t = .ref x args
      · obtain ⟨x, args, rfl⟩ := href
        refine .name hopen fun ts heq => ?_
        cases heq
        cases hunion
      · exact .other fun x args heq => href ⟨x, args, heq⟩
  | union hlists _ ih => exact .union hlists ih

/-- **A type that takes the value reaches one that shows it.** -/
theorem exists_leaf_of_compatible {n : Nat} (hovert : r.Overt v n t)
    (h : ({} : Rules).Compatible r [] v t) : ∃ x, r.Leaf t x ∧ ∃ y ∈ x.flat, y.Shows v := by
  induction hovert with
  | @shown n t x hx hshows =>
      exact ⟨t, .self (Resolver.not_lists_of_ne_ref (hshows.ne_ref hv hx)), x, hx, hshows⟩
  | refused _ hrefuses => exact absurd h (not_compatible_of_refuses hv hrefuses)
  | name hnamed hopen _ hrefuses =>
      exact absurd h (not_compatible_of_refuses hv (.name hnamed hopen hrefuses))
  | @union n t ts hlists _ ih =>
      have hnamed : t.isNamed = true := by
        obtain ⟨⟨x, args, rfl⟩, -⟩ := hlists
        rfl
      obtain ⟨u, hu, hcompatible⟩ := compatible_union hv (compatible_name hv hnamed hlists.2 h)
      obtain ⟨x, hleaf, hshows⟩ := ih u hu hcompatible
      exact ⟨x, .through hlists hu hleaf, hshows⟩

/-! ### What is kept -/

omit hv in
/-- The value fits a union of falsy values that it is among. -/
theorem accepts_unionOf {ts : List Ty} (hts : ∀ t ∈ ts, IsFalsy t) (h : v ∈ ts) :
    isAssignable (some r) v (unionOf ts) = .ok true := by
  have hground : ∀ t ∈ ts, t.Ground := fun t ht => by
    rcases hts t ht with rfl | rfl
    · exact ground_prim _
    · exact ground_bool _
  have hunknown : .unknown ∉ ts := fun hmem => by rcases hts _ hmem with h | h <;> cases h
  have hunion := ground_unionOf hground
  rw [isAssignable_ground_iff (some r) (hground v h) hunion]
  exact (fits_unionOf_iff (fun t ht => (hground t ht).unnamed) hunion.unnamed hunknown).1
    (fits_refl hunion.normal) v h

omit hv in
theorem isFalsy_of_mem_falsyPart {m : Ty} (h : v ∈ falsyPart m) : IsFalsy v := by
  cases m with
  | prim p => cases p <;> simp_all [falsyPart, IsFalsy]
  | lit l => cases l with
    | bool b => cases b <;> simp_all [falsyPart, IsFalsy]
    | _ => cases h
  | _ => cases h

theorem mem_falsyPart_of_shows {m : Ty} (h : m.Shows v) (hunknown : m ≠ .unknown) : v ∈ falsyPart m := by
  rcases h with h | rfl | ⟨p, rfl, hassign⟩
  · exact absurd h hunknown
  · rcases hv with rfl | rfl <;> exact .head _
  · rcases hv with rfl | rfl <;> cases p <;> first | exact .head _ | cases hassign

/-- **A member that shows the value is kept.** -/
theorem accepts_falsy_of_shows {u m : Ty} (hm : m ∈ u.members) (hshows : m.Shows v)
    (hunknown : m = .unknown → u = .unknown) : isAssignable (some r) v u.falsy = .ok true := by
  rw [falsy]
  cases h : u.isUnknown with
  | true =>
      refine accepts_unionOf (fun t ht => ?_) ?_
      · simpa [IsFalsy] using ht
      · simpa [IsFalsy] using hv
  | false =>
      have hne : m ≠ .unknown := fun heq => by
        rw [hunknown heq] at h
        cases h
      refine accepts_unionOf (fun t ht => ?_) ?_
      · obtain ⟨m, -, ht⟩ := List.mem_flatMap.1 ht
        exact isFalsy_of_mem_falsyPart ht
      · exact List.mem_flatMap.2 ⟨m, hm, mem_falsyPart_of_shows hv hshows hne⟩

/-- A value stays visible in the type that takes the other one in. -/
theorem Ty.Shows.of_takenIn {x y : Ty} (h : x.Shows v) (htaken : TakenIn x y) : y.Shows v := by
  rcases htaken with rfl | heq | hwider
  · exact h
  · rcases h with rfl | rfl | ⟨p, rfl, hassign⟩
    · exact Or.inl (equal_prim_right_iff.1 heq)
    · rcases hv with rfl | rfl
      · exact Or.inr (Or.inl (equal_prim_right_iff.1 heq))
      · cases y with
        | lit l =>
            obtain ⟨k, hk, hsame⟩ := equal_lit_iff.1 heq
            cases hk
            cases l with
            | bool b =>
                obtain rfl : b = false := by simpa [Lit.same] using hsame
                exact Or.inr (Or.inl rfl)
            | _ => cases hsame
        | _ => cases heq
    · exact Or.inr (Or.inr ⟨p, equal_prim_right_iff.1 heq, hassign⟩)
  · cases hwider with
    | lit l =>
        rcases h with h | h | ⟨p, h, -⟩
        · cases h
        · rcases hv with rfl | rfl
          · cases h
          · cases h
            exact Or.inr (Or.inr ⟨.boolean, rfl, rfl⟩)
        · cases h
    | whole hl =>
        rcases h with h | h | ⟨p, h, -⟩
        · cases h
        · rcases hv with rfl | rfl
          · cases h
          · cases h
            cases hl
        · cases h
    | integer =>
        rcases h with h | h | ⟨p, h, hassign⟩
        · cases h
        · rcases hv with rfl | rfl <;> cases h
        · cases h
          rcases hv with rfl | rfl <;> cases hassign

/-- Building a union keeps a member that shows the value. -/
theorem accepts_falsy_unionOf {out : List Ty} {x : Ty} (hmem : x ∈ flatList out) (hshows : x.Shows v) :
    isAssignable (some r) v (unionOf out).falsy = .ok true := by
  have hnever : x.isNever = false := by
    rcases hshows with rfl | rfl | ⟨p, rfl, hassign⟩
    · rfl
    · rcases hv with rfl | rfl <;> rfl
    · rcases hv with rfl | rfl <;> cases p <;> first | rfl | cases hassign
  rcases unionOf_cases out with ⟨-, heq⟩ | ⟨hlist, heq⟩ <;> rw [heq]
  · exact accepts_falsy_of_shows hv (.head _) (Or.inl rfl) fun _ => rfl
  · obtain ⟨y, hy, htaken⟩ := exists_takenIn hmem hnever
    refine accepts_falsy_of_shows hv ((mem_members_ofMembers hlist.isUnion).2 (Or.inl hy))
      (hshows.of_takenIn hv htaken) ?_
    rintro rfl
    cases hlist.isUnknown _ hy

/-! ### The comparisons that are met -/

/-- The names that spreading expands are met when the value is compared with the type. -/
theorem met_of_lists {m : Ty} {ts : List Ty} (hmet : ({} : Rules).Met r v t v m.predToBoolean)
    (hlists : r.Lists m ts) : ∀ u ∈ ts, ({} : Rules).Met r v t v u.predToBoolean := by
  obtain ⟨⟨x, args, rfl⟩, hexpand⟩ := hlists
  have hunion := Met.opened hmet (hv.opensNames rfl) hv.open hexpand
  rw [hv.predToBoolean] at hunion
  intro u hu
  have hmember := Met.leads hunion (.unionDst hu)
  rwa [hv.predToBoolean] at hmember

/-- A member meets its own falsy part. -/
theorem met_of_mem_members {m : Ty} (hm : m ∈ t.members) :
    ({} : Rules).Met r v t v m.predToBoolean := by
  have hstart : ({} : Rules).Met r v t v.predToBoolean t.predToBoolean := .start
  rw [hv.predToBoolean] at hstart
  cases t with
  | union ts =>
      have hmember := Met.leads hstart (.unionDst hm)
      rwa [hv.predToBoolean] at hmember
  | _ =>
      rw [List.mem_singleton.1 hm]
      exact hstart

/-- Texts tell the names that spreading expands apart where they tell the comparisons apart. -/
theorem eq_of_text (hkeys : ({} : Rules).TellsApart r v t) {a b : Ty} {ts us : List Ty}
    (ha : ({} : Rules).Met r v t v a.predToBoolean) (hb : ({} : Rules).Met r v t v b.predToBoolean)
    (hats : r.Lists a ts) (hbus : r.Lists b us) (htext : a.text = b.text) : a = b := by
  obtain ⟨⟨x, args, rfl⟩, -⟩ := hats
  obtain ⟨⟨y, args', rfl⟩, -⟩ := hbus
  have hkey : comparisonKey v (.ref x args) = comparisonKey v (.ref y args') := by
    rw [comparisonKey, comparisonKey, htext]
  exact (hkeys _ _ _ _ ha hb (hv.opensNames rfl) (hv.opensNames rfl) hkey).2

end Falsy

/-! ### Conditions -/

theorem Expr.key?_unparen (e : Expr) : e.unparen.key? = e.key? := by
  fun_induction Expr.unparen e with
  | case1 _ e ih => rw [ih, Expr.key?]
  | case2 => rfl

/-- A condition that is a reference is tested itself, in parentheses too. -/
theorem Guard.narrow_reference (g : Guard) {e : Expr} {key : String} (h : e.key? = some key)
    (c : Context) : g.narrow e c = g.truth e.unparen c (c.child, c.child) := by
  fun_induction Expr.key? e with
  | case1 loc => cases h
  | case2 loc n => rfl
  | case3 loc => rfl
  | case4 loc e ih => exact ih h
  | case5 loc o n optional ih => rfl
  | case6 => cases h

/-- Where the test of a reference fails, the reference has what spreading leaves of its type, as far as it
counts as false. -/
theorem Guard.get?_narrow (g : Guard) {e : Expr} {key : String} (h : e.key? = some key) (c : Context)
    {u : Ty} (hspread : spread g.resolver (g.current e.unparen c) = .ok u) :
    ∃ cs, g.narrow e c = .ok cs ∧ cs.2.get? key = some u.falsy := by
  refine ⟨refineBoth (c.child, c.child) key u.truthy u.falsy, ?_, ?_⟩
  · rw [g.narrow_reference h, truth, Expr.key?_unparen, h]
    simp only [hspread]
    rfl
  · exact (Context.replaced_refine c.child key (some u.falsy)).self

/-! ### Values that are kept -/

/-- If the value is of the type, it is of what is left of the type where a test fails. -/
def KeepsFalsy (r : Resolver) (v t : Ty) : Prop :=
  isAssignable (some r) v t = .ok true →
    ∃ u, spread r t = .ok u ∧ isAssignable (some r) v u.falsy = .ok true ∧
      ∀ (g : Guard) (e : Expr) (c : Context) (key : String), g.resolver = r → e.key? = some key →
        g.current e.unparen c = t → ∃ cs, g.narrow e c = .ok cs ∧ cs.2.get? key = some u.falsy

/-- **Nothing is lost where a test fails**: if each type that is reached through unions shows the value or
refuses it, and texts tell the names on the way apart, then a value of the type that counts as false is of
what is left. -/
theorem keepsFalsy_of_overt {r : Resolver} {v t : Ty} {n : Nat} (hv : IsFalsy v)
    (hkeys : ({} : Rules).TellsApart r v t) (hovert : ∀ m ∈ t.members, r.Overt v n m)
    (hn : n < queryDepth) : KeepsFalsy r v t := by
  intro h
  have hcompatible : ({} : Rules).Compatible r [] v t :=
    compatible_of_assignUpTo hkeys (by simp) .start h
  obtain ⟨m, hm, hmember⟩ : ∃ m ∈ t.members, ({} : Rules).Compatible r [] v m := by
    cases t with
    | union ts => exact compatible_union hv hcompatible
    | _ => exact ⟨_, .head _, hcompatible⟩
  obtain ⟨x, hleaf, y, hy, hshows⟩ := exists_leaf_of_compatible hv (hovert m hm) hmember
  obtain ⟨out, seen, hout, hspreads⟩ := Resolver.spreads_of_ends (fun m hm => (hovert m hm).ends hv)
    (show n < r.depth from hn.trans_le (Nat.le_add_left _ _)) []
  have hspread : spread r t = .ok (unionOf out) := by
    rw [spread, hout]
    rfl
  have hx : x ∈ out := hspreads.mem_of_leaf (Q := fun m => ({} : Rules).Met r v t v m.predToBoolean)
    (fun m ts hmet hlists => met_of_lists hv hmet hlists)
    (fun a b ts us ha hb hats hbus => eq_of_text hv hkeys ha hb hats hbus)
    (fun m hm => met_of_mem_members hv hm) hm hleaf
  have hmem : y ∈ flatList out := by
    rw [flatList_eq_flatMap]
    exact List.mem_flatMap.2 ⟨x, hx, hy⟩
  refine ⟨unionOf out, hspread, accepts_falsy_unionOf hv hmem hshows, ?_⟩
  intro g e c key hr hkey hcurrent
  exact g.get?_narrow hkey c (by rw [hcurrent, hr, hspread])

/-- The members of a choice that may be switched off, and the record that is there otherwise. -/
def choiceMembers : List Ty := [.ref "Off" [], .ref "Settings" [], .nil]

def offMembers : List Ty := [.bool false, .str "off"]

def settingsRecord : Object := { members := [{ name := "theme", type := .string }] }

def choiceEnv : Env :=
  ((({} : Env).setAlias { name := "Off", body := .union offMembers }).setAlias
    { name := "Settings", body := .object settingsRecord }).setAlias
    { name := "Choice", body := .union choiceMembers }

/-- `false` is kept through two names of unions. -/
theorem keepsFalsy_choice :
    isAssignable (some choiceEnv.resolver) (.bool false) (.ref "Choice" []) = .ok true ∧
      KeepsFalsy choiceEnv.resolver (.bool false) (.ref "Choice" []) := by
  have hchoice : choiceEnv.resolver.Lists (.ref "Choice" []) choiceMembers := ⟨⟨_, _, rfl⟩, rfl⟩
  have hoff : choiceEnv.resolver.Lists (.ref "Off" []) offMembers := ⟨⟨_, _, rfl⟩, rfl⟩
  have hsettings : choiceEnv.resolver.expand (.ref "Settings" []) =
      .ok (some (.object settingsRecord)) := rfl
  have hnamed : ∀ {d : Ty}, d ∈ [.ref "Choice" [], .union choiceMembers, .union offMembers,
      .object settingsRecord] ++ choiceMembers ++ offMembers → opensNames (.bool false) d = true →
      d = .ref "Choice" [] ∨ d = .ref "Off" [] ∨ d = .ref "Settings" [] := by
    intro d hd hnames
    simp only [choiceMembers, offMembers, List.cons_append, List.nil_append, List.mem_cons,
      List.not_mem_nil, or_false] at hd
    rcases hd with rfl | rfl | rfl | rfl | rfl | rfl | rfl | rfl | rfl <;>
      first | exact absurd hnames Bool.false_ne_true | simp
  have hmet : ∀ {s d : Ty},
      ({} : Rules).Met choiceEnv.resolver (.bool false) (.ref "Choice" []) s d → s = .bool false ∧
        d ∈ [.ref "Choice" [], .union choiceMembers, .union offMembers, .object settingsRecord] ++
          choiceMembers ++ offMembers := by
    intro s d h
    induction h with
    | start => exact ⟨rfl, .head _⟩
    | leads _ hleads ih =>
        obtain ⟨rfl, hd⟩ := ih
        cases hleads with
        | @unionDst ds _ d hmem =>
            refine ⟨rfl, ?_⟩
            obtain rfl | rfl : ds = choiceMembers ∨ ds = offMembers := by
              simpa [choiceMembers, offMembers] using hd
            · simp only [choiceMembers, List.mem_cons, List.not_mem_nil, or_false] at hmem
              rcases hmem with rfl | rfl | rfl <;> simp [choiceMembers, predToBoolean]
            · simp only [offMembers, List.mem_cons, List.not_mem_nil, or_false] at hmem
              rcases hmem with rfl | rfl <;> simp [offMembers, predToBoolean]
        | interDst hmem => simp [choiceMembers, offMembers] at hd
    | @opened s d s' d' _ hnames hs hd ih =>
        obtain ⟨rfl, hmem⟩ := ih
        cases hs
        refine ⟨rfl, ?_⟩
        rcases hnamed hmem hnames with rfl | rfl | rfl
        · cases hchoice.2.symm.trans hd
          simp [predToBoolean]
        · cases hoff.2.symm.trans hd
          simp [predToBoolean]
        · cases hsettings.symm.trans hd
          simp [predToBoolean]
  refine ⟨rfl, keepsFalsy_of_overt (Or.inr rfl) ?_ ?_ (show 2 < queryDepth by decide)⟩
  · intro s d s' d' h h' hnames hnames' hkey
    obtain ⟨rfl, hd⟩ := hmet h
    obtain ⟨rfl, hd'⟩ := hmet h'
    refine ⟨rfl, ?_⟩
    rcases hnamed hd hnames with rfl | rfl | rfl <;> rcases hnamed hd' hnames' with rfl | rfl | rfl <;>
      first | rfl | exact absurd hkey (by decide)
  · have hoffOvert : choiceEnv.resolver.Overt (.bool false) 1 (.ref "Off" []) :=
      .union hoff fun u hu => by
        simp only [offMembers, List.mem_cons, List.not_mem_nil, or_false] at hu
        rcases hu with rfl | rfl
        · exact .shown (.head _) (Or.inr (Or.inl rfl))
        · exact .refused rfl (.lit (by simp [Ty.bool]))
    refine List.forall_mem_singleton.2 (.union hchoice fun u hu => ?_)
    simp only [choiceMembers, List.mem_cons, List.not_mem_nil, or_false] at hu
    rcases hu with rfl | rfl | rfl
    · exact hoffOvert
    · exact .name rfl hsettings rfl (.object _)
    · exact .refused rfl (.prim (by simp) rfl)

/-- **A name of anything but a union is lost.** -/
theorem not_keepsFalsy_name {r : Resolver} {v u : Ty} {x : String} {args : List Ty} (hv : IsFalsy v)
    (hopen : r.expand (.ref x args) = .ok (some u)) (hunion : u.isUnion = false)
    (h : isAssignable (some r) v (.ref x args) = .ok true) : ¬ KeepsFalsy r v (.ref x args) := by
  intro hkeeps
  have hspread : spread r (.ref x args) = .ok (.ref x args) := by
    have hname : r.Ends 0 (.ref x args) := .name hopen fun ts heq => by
      cases heq
      cases hunion
    obtain ⟨out, seen, hout, hspreads⟩ :=
      Resolver.spreads_of_ends (List.forall_mem_singleton.2 hname) r.depth_pos []
    rw [spread, show members (.ref x args) = [.ref x args] from rfl, hout]
    cases hspreads with
    | keep _ hrest =>
        cases hrest
        exact congrArg Except.ok (unionOf_singleton_of_not_isUnion rfl)
    | expand hlists =>
        cases hlists.2.symm.trans hopen
        cases hunion
  obtain ⟨w, hw, haccepts, -⟩ := hkeeps h
  cases hspread.symm.trans hw
  have hnever : isAssignable (some r) v (falsy (.ref x args)) = .ok false := by
    rcases hv with rfl | rfl <;> rfl
  cases hnever.symm.trans haccepts

/-- `boolean` behind a name. -/
def flagEnv : Env := ({} : Env).setAlias { name := "Flag", body := .boolean }

/-- The flag may be `false`, and nothing is left of it where its test fails. -/
theorem not_keepsFalsy_flag : ¬ KeepsFalsy flagEnv.resolver (.bool false) (.ref "Flag" []) :=
  not_keepsFalsy_name (Or.inr rfl) rfl rfl rfl

end TreeCheck
