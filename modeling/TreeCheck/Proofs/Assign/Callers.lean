import TreeCheck.Check.Calls
import TreeCheck.Proofs.Assign.Nil
import TreeCheck.Proofs.Assign.Representation

/-!
# Callers of a function that is used as another one

A function may be used as another one if it takes what callers of that one pass.  Such callers may leave
arguments out, or pass `nil`.  A comparison of two signatures sees to `nil` in the declared types, and to
optional parameters of the function itself.  It does not see that a parameter of the other signature is
optional, so what callers may leave out has to be left out by both signatures (`LeavesOut`).  And two rest
parameters are not compared where the function has more parameters than the other signature.

* `FuncOf.Takes`, `FuncOf.Omits` — the numbers of arguments and the positions that a call may leave out;
* `Check.takes_iff_checkArity` — the numbers of arguments that a call is not refused for;
* `FuncOf.exists_of_lt_required`, `FuncOf.paramAt?_cases` — the parameters at a position;
* `ParamsFit`, `paramsFit_of_bareFuncGoal`, `paramsFit_of_equal` — the parameters that are compared;
* `SafeForCallers`, `safeForCallers_of_isAssignable` — what a positive answer means for callers;
* `not_safeForCallers_ofNumber` — two signatures that do not leave out the same.
-/

namespace TreeCheck

open Ty

namespace FuncOf

/-! ### Positions -/

section Positions

variable {τ : Type} {f : FuncOf τ} {i n : ℕ}

/-- A call may pass that many arguments. -/
def Takes (f : FuncOf τ) (n : ℕ) : Prop := f.required ≤ n ∧ (n ≤ f.params.length ∨ f.rest?.isSome = true)

/-- A call may leave out the argument at a position that the signature has. -/
def Omits (f : FuncOf τ) (i : ℕ) : Prop := f.required ≤ i ∧ (i < f.params.length ∨ f.rest?.isSome = true)

/-- A rest parameter, if any, stands last. -/
def RestLast (f : FuncOf τ) : Prop := ∀ i p, f.params[i]? = some p → p.rest = true → i + 1 = f.params.length

theorem required_le_length (f : FuncOf τ) : f.required ≤ f.params.length :=
  (List.takeWhile_sublist _).length_le

/-- What a caller must supply is neither optional nor a rest. -/
theorem exists_of_lt_required (hi : i < f.required) :
    ∃ p, f.params[i]? = some p ∧ p.optional = false ∧ p.rest = false := by
  have hlt := lt_of_lt_of_le hi f.required_le_length
  refine ⟨f.params[i], List.getElem?_eq_getElem hlt, ?_⟩
  have hnot : (fun p : ParamOf τ => !!(p.optional || p.rest)) = fun p => p.optional || p.rest := by simp
  rw [required, List.takeWhile_eq_take_findIdx_not, hnot, List.length_take,
    min_eq_left List.findIdx_le_length] at hi
  exact Bool.or_eq_false_iff.1 (List.not_of_lt_findIdx hi)

/-- It ends where a parameter may be left out. -/
theorem required_le_of_getElem? {p : ParamOf τ} (hp : f.params[i]? = some p)
    (homit : p.optional = true ∨ p.rest = true) : f.required ≤ i := by
  by_contra hlt
  obtain ⟨q, hq, hoptional, hrest⟩ := exists_of_lt_required (not_le.1 hlt)
  rw [hp] at hq
  cases hq
  rcases homit with homit | homit
  · rw [hoptional] at homit
    cases homit
  · rw [hrest] at homit
    cases homit

/-- A rest parameter that stands last is the last parameter. -/
theorem rest?_of_getElem? {p : ParamOf τ} (hlast : f.RestLast) (hp : f.params[i]? = some p)
    (hrest : p.rest = true) : f.rest? = some p ∧ i + 1 = f.params.length := by
  have hi := hlast i p hp hrest
  refine ⟨?_, hi⟩
  rw [rest?, List.getLast?_eq_getElem?, show f.params.length - 1 = i by omega, hp]
  simp [hrest]

/-- Past the other parameters the declared type is that of the rest parameter. -/
theorem paramAt?_of_rest? {p : ParamOf τ} (hrest : f.rest? = some p) (hi : f.params.length ≤ i + 1) :
    f.paramAt? i = some p.type := by
  unfold paramAt?
  rw [hrest]
  have hlast : f.params.getLast? = some p ∧ p.rest = true := by
    simpa [rest?, Option.filter_eq_some_iff] using hrest
  cases hp : f.params[i]? with
  | none => rfl
  | some q =>
      have hlt := (List.getElem?_eq_some_iff.1 hp).1
      rw [List.getLast?_eq_getElem?, show f.params.length - 1 = i by omega, hp] at hlast
      cases hlast.1
      simp [hlast.2]

theorem paramAt?_of_getElem? {p : ParamOf τ} (hp : f.params[i]? = some p) (hrest : p.rest = false) :
    f.paramAt? i = some p.type := by
  simp [paramAt?, hp, hrest]

/-- The declared type at a position is that of the parameter there, or of the rest parameter. -/
theorem paramAt?_cases {t : τ} (hlast : f.RestLast) (h : f.paramAt? i = some t) :
    (∃ p, f.params[i]? = some p ∧ p.rest = false ∧ p.type = t) ∨
      ∃ p, f.rest? = some p ∧ f.params.length ≤ i + 1 ∧ p.type = t := by
  cases hp : f.params[i]? with
  | none =>
      rw [paramAt?, hp] at h
      obtain ⟨p, hrest, rfl⟩ := Option.map_eq_some_iff.1 h
      exact Or.inr ⟨p, hrest, (List.getElem?_eq_none_iff.1 hp).trans (Nat.le_succ i), rfl⟩
  | some p =>
      cases hrest : p.rest with
      | false =>
          rw [paramAt?_of_getElem? hp hrest] at h
          cases h
          exact Or.inl ⟨p, rfl, hrest, rfl⟩
      | true =>
          obtain ⟨hlast, hend⟩ := rest?_of_getElem? hlast hp hrest
          rw [paramAt?_of_rest? hlast hend.ge] at h
          cases h
          exact Or.inr ⟨p, hlast, hend.ge, rfl⟩

end Positions

end FuncOf

namespace Check

theorem report_ne_pure (code : Code) (span : Span) (words : List String) : report code span words ≠ pure () := by
  intro h
  have hitems := congrArg (fun c : Check Unit => (c.runFrom {} {}).2.diagnostics.items) h
  cases hitems

/-- The numbers of arguments that a signature takes are those that a call is not refused for. -/
theorem takes_iff_checkArity {f : Func} {n : ℕ} (span : Span) :
    f.Takes n ↔ checkArity f n false span = pure () := by
  have hrefused : (decide (n < f.required) && !false || decide (f.params.length < n) && f.rest?.isNone) = true ↔
      ¬ f.Takes n := by
    simp only [FuncOf.Takes, Bool.or_eq_true, Bool.and_eq_true, decide_eq_true_eq, Bool.not_false, and_true,
      Option.isNone_iff_eq_none, Option.isSome_iff_ne_none, not_and_or, not_or, not_le, not_not]
  unfold checkArity
  dsimp only
  split
  · rename_i hmany
    exact iff_of_false (hrefused.1 hmany) (report_ne_pure _ _ _)
  · rename_i hfine
    exact iff_of_true (not_not.1 (mt hrefused.2 hfine)) rfl

end Check

/-! ### Parameters that are compared -/

section Params

variable {C : Ty → Ty → Prop} {S D : Func}

/-- What a comparison asks of the parameters that a caller must supply and of the rest parameter. -/
structure ParamsFit (C : Ty → Ty → Prop) (S D : Func) : Prop where
  count : D.rest?.isSome = true ∨ S.required ≤ D.params.length
  param : ∀ i p, S.params[i]? = some p → p.optional = false → p.rest = false →
    ∃ d, D.paramAt? i = some d ∧ C d p.type
  rest : ∀ i p d, S.rest? = some p → S.params.length ≤ i + 1 → i < D.params.length →
    D.paramAt? i = some d → C d p.type

theorem holds_paramGoal_strict {d s : Ty} (h : (paramGoal false d s).Holds C) : C d s := by
  rcases h with h | h
  · exact h
  · cases h

/-- Each parameter that must be given is matched with one of the target. -/
theorem exists_of_paramsGoal {i j : ℕ} {ps : List Param} {p : Param} (h : (paramsGoal false D i ps).Holds C)
    (hp : ps[j]? = some p) (hoptional : p.optional = false)
    (hbefore : ∀ k q, k ≤ j → ps[k]? = some q → q.rest = false) :
    ∃ d, D.paramAt? (i + j) = some d ∧ C d p.type := by
  induction ps generalizing i j with
  | nil => cases hp
  | cons q ps ih =>
      rw [paramsGoal, if_neg (by simp [hbefore 0 q (Nat.zero_le _) rfl])] at h
      cases j with
      | zero =>
          cases hp
          rw [if_neg (by simp [hoptional]), if_neg (by simp [hoptional])] at h
          cases hd : D.paramAt? i with
          | none =>
              rw [hd] at h
              cases h
          | some d =>
              rw [hd] at h
              exact ⟨d, rfl, holds_paramGoal_strict h.1⟩
      | succ j =>
          have hrest : (paramsGoal false D (i + 1) ps).Holds C := by
            cases hd : D.paramAt? i with
            | none =>
                rw [hd] at h
                simp only at h
                split at h
                · exact h
                · cases h
            | some d =>
                rw [hd] at h
                exact h.2
          obtain ⟨d, hd, hC⟩ := ih hrest hp fun k q hk hq => hbefore (k + 1) q (by omega) hq
          exact ⟨d, by rwa [show i + (j + 1) = i + 1 + j by omega], hC⟩

/-- **What the formula of two signatures says of their parameters.** -/
theorem paramsFit_of_bareFuncGoal (hlast : S.RestLast) (h : (bareFuncGoal false S D).Holds C) :
    ParamsFit C S D := by
  unfold bareFuncGoal at h
  split at h
  · cases h
  · rename_i hcount
    refine ⟨?_, fun i p hp hoptional hrest => ?_, fun i p d hp hi hlt hd => ?_⟩
    · rw [Bool.and_eq_true, decide_eq_true_eq, not_and_or, not_lt] at hcount
      exact hcount.imp_left fun hrest => by simpa [Option.isSome_iff_ne_none] using hrest
    · have hbefore : ∀ k q, k ≤ i → S.params[k]? = some q → q.rest = false := by
        intro k q hk hq
        by_contra hqrest
        -- a rest parameter stands last, so it is the parameter itself
        have hend := hlast k q hq (by simpa using hqrest)
        have hlt := (List.getElem?_eq_some_iff.1 hp).1
        obtain rfl : k = i := by omega
        rw [hp] at hq
        cases hq
        exact hqrest hrest
      simpa using exists_of_paramsGoal h.1 hp hoptional hbefore
    · have hrest := h.2.1
      unfold restGoal at hrest
      rw [hp] at hrest
      have hmem : i ∈ List.range' (S.params.length - 1) (D.params.length - (S.params.length - 1)) := by
        rw [List.mem_range'_1]
        omega
      have hgoal := (Goal.holds_all _).1 hrest _ (List.mem_map_of_mem hmem)
      rw [hd] at hgoal
      exact holds_paramGoal_strict hgoal

/-- Equal signatures have equal parameters. -/
theorem paramsFit_of_equal (hS : Canonical (.func S)) (hD : Canonical (.func D)) (hSt : S.tparams = [])
    (hDt : D.tparams = []) (h : (Ty.func D).equal (.func S) = true) :
    ParamsFit (fun d s => d.equal s = true) S D := by
  rw [equal_eq_sameNode_of_canonical hD hS] at h
  obtain ⟨_, hfunc, hsame⟩ := sameNode_func_iff.1 h
  cases hfunc
  have hparams := ((sameFunc_iff hDt hSt).1 hsame).1
  have hat : ∀ i u, S.paramAt? i = some u → ∃ d, D.paramAt? i = some d ∧ d.equal u = true := by
    intro i u hu
    have hrel := rel_paramAt? hparams i
    rw [hu] at hrel
    exact rel_some_right (R := fun a b : Ty => a.equal b = true) hrel
  refine ⟨Or.inr (required_eq hparams ▸ D.required_le_length), fun i p hp _ hrest => ?_,
    fun i p d hp hi _ hd => ?_⟩
  · exact hat i p.type (FuncOf.paramAt?_of_getElem? hp hrest)
  · obtain ⟨d', hd', heq⟩ := hat i p.type (FuncOf.paramAt?_of_rest? hp hi)
    rw [hd] at hd'
    cases hd'
    exact heq

end Params

/-! ### Callers -/

/-- **Callers of `D` may call `S`.**  They pass enough arguments, and where they may leave one out or pass
`nil`, `S` accepts `nil`, or takes the rest of the arguments where none is passed. -/
structure SafeForCallers (r : Option Resolver) (S D : Func) : Prop where
  count : ∀ n, D.Takes n → S.required ≤ n
  omitted : ∀ i t, D.Omits i → Check.argumentType? S i = some t →
    AcceptsNil r t ∨ S.rest?.isSome = true ∧ S.params.length ≤ i + 1
  passed : ∀ i t u, Check.argumentType? D i = some t → t.ListsNil r → Check.argumentType? S i = some u →
    AcceptsNil r u

/-- What callers may leave out is left to them by both signatures: the comparison does not look at that. -/
structure LeavesOut (r : Option Resolver) (S D : Func) : Prop where
  /-- What callers of `D` may leave out, `S` does not require. -/
  omitted : ∀ i p, D.Omits i → S.params[i]? = some p → p.optional = true ∨ p.rest = true
  /-- An optional argument does not go to a rest parameter that takes no `nil`. -/
  optional : ∀ i q p, D.params[i]? = some q → q.optional = true → S.rest? = some p →
    S.params.length ≤ i + 1 → p.type.ListsNil r
  /-- The rest parameter of `S` meets that of `D`. -/
  rest : D.rest?.isSome = true → S.rest?.isSome = true → S.params.length ≤ D.params.length

/-- Signatures in normal form without type parameters, a rest parameter standing last. -/
structure FuncOf.Plain (f : Func) : Prop where
  canonical : Canonical (.func f)
  tparams : f.tparams = []
  restLast : f.RestLast

section Callers

variable {r : Option Resolver} {S D : Func}

/-- The target asks for as many arguments as the source at least. -/
theorem required_le_of_leavesOut {C : Ty → Ty → Prop} (hfit : ParamsFit C S D) (hleaves : LeavesOut r S D) :
    S.required ≤ D.required := by
  by_contra hlt
  obtain ⟨p, hp, hoptional, hrest⟩ := FuncOf.exists_of_lt_required (not_le.1 hlt)
  have homits : D.Omits D.required := by
    refine ⟨le_refl _, ?_⟩
    rcases hfit.count with hrest | hcount
    · exact Or.inr hrest
    · exact Or.inl (by omega)
  rcases hleaves.omitted _ p homits hp with h | h
  · rw [hoptional] at h
    cases h
  · rw [hrest] at h
    cases h

/-- The argument at a position has the declared type, or that type with `nil` added. -/
theorem argumentType?_cases {f : Func} {i : ℕ} {t : Ty} (ht : Check.argumentType? f i = some t) :
    ∃ u, f.paramAt? i = some u ∧
      (t = u.nullable ∧ (∃ p, f.params[i]? = some p ∧ p.optional = true) ∨
        t = u ∧ ∀ p, f.params[i]? = some p → p.optional = false) := by
  obtain ⟨u, hu, rfl⟩ := Option.map_eq_some_iff.1 ht
  refine ⟨u, hu, ?_⟩
  cases hp : f.params[i]? with
  | none => exact Or.inr ⟨rfl, fun _ h => nomatch h⟩
  | some p =>
      cases hoptional : p.optional with
      | true => exact Or.inl ⟨by simp [hoptional], p, rfl, hoptional⟩
      | false => exact Or.inr ⟨by simp [hoptional], fun q hq => by cases hq; exact hoptional⟩

theorem canonical_of_paramAt? {f : Func} {i : ℕ} {u : Ty} (hf : Canonical (.func f)) (hu : f.paramAt? i = some u) :
    u.Canonical := by
  obtain ⟨p, hp, rfl⟩ := FuncOf.mem_of_paramAt? hu
  exact hf.part (.param hp rfl)

/-- Where the declared type accepts `nil`, the argument may be `nil`. -/
theorem acceptsNil_of_paramAt? {f : Func} {i : ℕ} {t u : Ty} (hf : Canonical (.func f))
    (ht : Check.argumentType? f i = some t) (hu : f.paramAt? i = some u) (haccepts : AcceptsNil r u) :
    AcceptsNil r t := by
  obtain ⟨v, hv, ⟨rfl, -⟩ | ⟨rfl, -⟩⟩ := argumentType?_cases ht
  · exact acceptsNil_nullable (canonical_of_paramAt? hf hv).low
  · rw [hu] at hv
    cases hv
    exact haccepts

/-- An optional argument may be `nil`. -/
theorem acceptsNil_of_optional {f : Func} {i : ℕ} {t : Ty} {p : Param} (hf : Canonical (.func f))
    (ht : Check.argumentType? f i = some t) (hp : f.params[i]? = some p) (hoptional : p.optional = true) :
    AcceptsNil r t := by
  obtain ⟨v, hv, ⟨rfl, -⟩ | ⟨-, hfirm⟩⟩ := argumentType?_cases ht
  · exact acceptsNil_nullable (canonical_of_paramAt? hf hv).low
  · rw [hfirm p hp] at hoptional
    cases hoptional

/-- What a comparison asks of parameters makes the source safe for callers of the target. -/
theorem safeForCallers_of_paramsFit {C : Ty → Ty → Prop} (hC : ({} : Rules).Closed r C)
    (hS : Canonical (.func S)) (hD : Canonical (.func D)) (hlast : S.RestLast) (hfit : ParamsFit C S D) (hleaves : LeavesOut r S D) :
    SafeForCallers r S D := by
  refine ⟨fun n hn => (required_le_of_leavesOut hfit hleaves).trans hn.1, fun i t homits ht => ?_,
    fun i t u ht hlists hu => ?_⟩
  · obtain ⟨v, hv, -⟩ := argumentType?_cases ht
    rcases FuncOf.paramAt?_cases hlast hv with ⟨p, hp, hfirm, -⟩ | ⟨p, hrest, hend, -⟩
    · refine Or.inl (acceptsNil_of_optional hS ht hp ?_)
      exact (hleaves.omitted i p homits hp).resolve_right (by simp [hfirm])
    · exact Or.inr ⟨by rw [hrest]; rfl, hend⟩
  · obtain ⟨v, hv, -⟩ := argumentType?_cases hu
    obtain ⟨w, hw, ⟨-, q, hq, hqopt⟩ | ⟨rfl, -⟩⟩ := argumentType?_cases ht
    · -- an optional parameter of `D`: the comparison does not look at it
      have homits : D.Omits i :=
        ⟨FuncOf.required_le_of_getElem? hq (Or.inl hqopt), Or.inl (List.getElem?_eq_some_iff.1 hq).1⟩
      rcases FuncOf.paramAt?_cases hlast hv with ⟨p, hp, hfirm, -⟩ | ⟨p, hrest, hend, rfl⟩
      · refine acceptsNil_of_optional hS hu hp ?_
        exact (hleaves.omitted i p homits hp).resolve_right (by simp [hfirm])
      · exact acceptsNil_of_paramAt? hS hu hv
          (acceptsNil_of_listsNil (canonical_of_paramAt? hS hv) (hleaves.optional i q p hq hqopt hrest hend))
    · -- any other parameter is compared, and from a type that lists `nil`
      have haccepts : C t v → AcceptsNil r u := fun hC' =>
        acceptsNil_of_paramAt? hS hu hv
          (acceptsNil_of_closed (canonical_of_paramAt? hS hv).low (closed_nilTo hC)
            ⟨rfl, t, hlists, fun _ => ⟨canonical_of_paramAt? hD hw, canonical_of_paramAt? hS hv⟩, Or.inr hC'⟩)
      rcases FuncOf.paramAt?_cases hlast hv with ⟨p, hp, hfirm, rfl⟩ | ⟨p, hrest, hend, rfl⟩
      · cases hoptional : p.optional with
        | true => exact acceptsNil_of_optional hS hu hp hoptional
        | false =>
            obtain ⟨d, hd, hC'⟩ := hfit.param i p hp hoptional hfirm
            rw [hw] at hd
            cases hd
            exact haccepts hC'
      · rcases Nat.lt_or_ge i D.params.length with hlt | hge
        · exact haccepts (hfit.rest i p t hrest hend hlt hw)
        · -- past the parameters of `D` its rest parameter is meant, which stands last
          rw [FuncOf.paramAt?, List.getElem?_eq_none_iff.2 hge] at hw
          obtain ⟨q, hq, rfl⟩ := Option.map_eq_some_iff.1 hw
          have hlen := hleaves.rest (by rw [hq]; rfl) (by rw [hrest]; rfl)
          have hpos := List.length_pos_of_mem (FuncOf.mem_of_rest? hq).1
          exact haccepts (hfit.rest (D.params.length - 1) p _ hrest (by omega) (by omega)
            (FuncOf.paramAt?_of_rest? hq (by omega)))

/-- **A function that may be used as another one is safe for the callers of that one**, where both leave the
same arguments to the callers. -/
theorem safeForCallers_of_isAssignable (hS : S.Plain) (hD : D.Plain)
    (hsymm : (Ty.func S).equal (.func D) = true → (Ty.func D).equal (.func S) = true)
    (htells : ∀ r', r = some r' → ({} : Rules).TellsApart r' (.func S) (.func D))
    (hleaves : LeavesOut r S D) (h : isAssignable r (.func S) (.func D) = .ok true) :
    SafeForCallers r S D := by
  obtain ⟨C, hC, hSD⟩ := Rules.exists_closed hS.canonical hD.canonical htells h
  rcases hC _ _ hSD with hearly | ⟨-, hstep⟩
  · rcases cases_of_early hearly with hhead | hhead | hhead | heq
    · cases hhead
    · cases hhead
    · cases hhead
    · exact safeForCallers_of_paramsFit Rules.closed_equal hS.canonical hD.canonical hS.restLast
        (paramsFit_of_equal hS.canonical hD.canonical hS.tparams hD.tparams (hsymm heq)) hleaves
  · have hgoal : (funcGoal false S D).Holds C := hstep
    rw [funcGoal, FuncOf.erased_eq hS.tparams, FuncOf.erased_eq hD.tparams] at hgoal
    exact safeForCallers_of_paramsFit hC hS.canonical hD.canonical hS.restLast
      (paramsFit_of_bareFuncGoal hS.restLast hgoal) hleaves

end Callers

/-! ### An optional number by name -/

/-- An alias of an optional number. -/
def maybeEnv : Env := ({} : Env).setAlias { name := "Maybe", body := .union [.number, .nil] }

/-- A signature of an optional number and a text that may be left out. -/
def labelled (number : Ty) : Func :=
  { params := [{ name := "a", type := number }, { name := "b", type := .string, optional := true }] }

theorem expand_maybe {args : List Ty} {v : Ty}
    (h : maybeEnv.resolver.expand (.ref "Maybe" args) = .ok (some v)) : v = .union [.number, .nil] := by
  cases args with
  | nil =>
      cases (show Except.ok (some (Ty.union [.number, .nil])) = Except.ok (some v) from h)
      rfl
  | cons a args => cases (show Except.ok none = Except.ok (some v) from h)

theorem listsNil_maybe : Ty.ListsNil (some maybeEnv.resolver) (.ref "Maybe" []) :=
  .name (u := .union [.number, .nil]) rfl rfl rfl fun args v _ hv => by
    rw [expand_maybe hv]
    exact .member (by simp) rfl .nil

/-- An alias of a type or `nil`. -/
def optionEnv : Env :=
  ({} : Env).setAlias { name := "Option", params := [{ name := "X" }], body := .union [.tvar "X", .nil] }

/-- It lists `nil` for every built-in argument but `unknown`. -/
theorem listsNil_option {p : Prim} (hp : p ≠ .unknown) :
    Ty.ListsNil (some optionEnv.resolver) (.ref "Option" [.prim p]) := by
  have hargs : ∀ {args : List Ty}, Alike (.ref "Option" [.prim p]) (.ref "Option" args) → args = [.prim p] := by
    rintro args (heq | ⟨-, n, h⟩)
    · cases heq
      rfl
    · match n with
      | 0 => rcases h with h | h <;> cases h
      | n + 1 =>
          rw [equalUpTo_succ, equalUpTo_succ] at h
          rcases h with h | h
          · obtain ⟨_, heq, hsame⟩ := sameNode_ref_iff.1 h
            cases heq
            obtain ⟨a, as, ha, has, rfl⟩ := List.forall₂_cons_left_iff.1 (sameList_iff.1 hsame)
            rw [List.forall₂_nil_left_iff.1 has, Alike.eq_prim (Or.inr ⟨rfl, n, Or.inl ha⟩)]
          · obtain ⟨_, heq, hsame⟩ := sameNode_ref_iff.1 h
            cases heq
            obtain ⟨a, as, ha, has, rfl⟩ := List.forall₂_cons_right_iff.1 (sameList_iff.1 hsame)
            rw [List.forall₂_nil_right_iff.1 has, Alike.eq_prim (Or.inr ⟨rfl, n, Or.inr ha⟩)]
  have hnullable : Ty.ListsNil (some optionEnv.resolver) (Ty.nullable (.prim p)) := by
    rcases Ty.nullable_cases (.prim p) with hcase | hcase | ⟨ts, hnil, hcase⟩
    · cases p <;> first | exact absurd rfl hp | cases hcase
    · exact hcase ▸ .nil
    · exact hcase ▸ .member hnil rfl .nil
  have hopen : optionEnv.resolver.expand (.ref "Option" [.prim p]) = .ok (some (Ty.nullable (.prim p))) := by
    cases p <;> rfl
  refine .name rfl rfl hopen fun args v halike hv => ?_
  rw [hargs halike, hopen] at hv
  cases hv
  exact hnullable

theorem plain_labelled {number : Ty} (h : number.Canonical) : (labelled number).Plain where
  canonical := canonical_func (by simp [labelled, h, (normal_prim _).canonical]) (by simp [labelled])
    (by simp [labelled])
  tparams := rfl
  restLast i p hp hrest := by
    rcases List.mem_pair.1 (List.mem_of_getElem? hp) with rfl | rfl <;> cases hrest

/-- The types that stand left and right in the comparisons that are met. -/
def metLeft : List Ty := [.ref "Maybe" [], .union [.number, .nil], .number, .nil, .string]

def metRight : List Ty := [.union [.number, .nil], .union [.string, .nil], .number, .nil, .string]

/-- The comparisons that are met from the two signatures of the example. -/
theorem mem_of_met {s d : Ty} (h : ({} : Rules).Met maybeEnv.resolver
      (.func (labelled (.union [.number, .nil]))) (.func (labelled (.ref "Maybe" []))) s d) :
    (s = .func (labelled (.union [.number, .nil])) ∧ d = .func (labelled (.ref "Maybe" []))) ∨
      s ∈ metLeft ∧ d ∈ metRight := by
  have hleft : ∀ t ∈ metLeft, t.predToBoolean ∈ metLeft := by simp [metLeft, Ty.predToBoolean]
  have hright : ∀ t ∈ metRight, t.predToBoolean ∈ metRight := by simp [metRight, Ty.predToBoolean]
  induction h with
  | start => exact Or.inl ⟨rfl, rfl⟩
  | @leads s d s' d' _ hleads ih =>
      suffices s' ∈ metLeft ∧ d' ∈ metRight from Or.inr ⟨hleft _ this.1, hright _ this.2⟩
      rcases ih with ⟨rfl, rfl⟩ | ⟨hs, hd⟩
      · cases hleads with
        | param hp hq =>
            have hnullable : Ty.nullable .string = .union [.string, .nil] := rfl
            rcases List.mem_pair.1 hp with rfl | rfl <;> rcases List.mem_pair.1 hq with rfl | rfl <;>
              simp [metLeft, metRight, ParamOf.accepts, hnullable]
        | paramBack h => cases h
        | result h => cases h
      · cases hleads with
        | unionSrc hmem =>
            simp only [metLeft, List.mem_cons, reduceCtorEq, Ty.union.injEq, List.not_mem_nil, or_false,
              false_or] at hs
            subst hs
            rcases List.mem_pair.1 hmem with rfl | rfl <;> exact ⟨by simp [metLeft], hd⟩
        | unionDst hmem =>
            simp only [metRight, List.mem_cons, reduceCtorEq, Ty.union.injEq, List.not_mem_nil, or_false] at hd
            rcases hd with rfl | rfl <;> rcases List.mem_pair.1 hmem with rfl | rfl <;>
              exact ⟨hs, by simp [metRight]⟩
        | interDst _ => simp [metRight] at hd
        | _ => simp [metLeft] at hs
  | @opened s d s' d' _ hnames hs hd ih =>
      rcases ih with ⟨rfl, rfl⟩ | ⟨hsl, hdr⟩
      · cases hnames
      · have hd' : d' = d := by
          simp only [metRight, List.mem_cons, List.not_mem_nil, or_false] at hdr
          rcases hdr with rfl | rfl | rfl | rfl | rfl <;> cases hd <;> rfl
        have hs' : s' ∈ metLeft := by
          simp only [metLeft, List.mem_cons, List.not_mem_nil, or_false] at hsl
          rcases hsl with rfl | hsl
          · rw [expand_maybe hs]
            simp [metLeft]
          · rcases hsl with rfl | rfl | rfl | rfl <;> cases hs <;> simp [metLeft]
        exact Or.inr ⟨hleft _ hs', hright _ (hd' ▸ hdr)⟩

theorem tellsApart_maybe : ({} : Rules).TellsApart maybeEnv.resolver
    (.func (labelled (.union [.number, .nil]))) (.func (labelled (.ref "Maybe" []))) := by
  have hnamed : ∀ {s d : Ty}, ({} : Rules).Met maybeEnv.resolver
      (.func (labelled (.union [.number, .nil]))) (.func (labelled (.ref "Maybe" []))) s d →
      Rules.opensNames s d = true → s = .ref "Maybe" [] ∧ d ∈ metRight := by
    intro s d hmet hnames
    rcases mem_of_met hmet with ⟨rfl, rfl⟩ | ⟨hs, hd⟩
    · cases hnames
    · refine ⟨?_, hd⟩
      simp only [metLeft, metRight, List.mem_cons, List.not_mem_nil, or_false] at hs hd
      rcases hs with rfl | rfl | rfl | rfl | rfl
      · rfl
      · cases hnames
      all_goals rcases hd with rfl | rfl | rfl | rfl | rfl <;> cases hnames
  have htexts : (metRight.map (comparisonKey (.ref "Maybe" []))).Nodup := by decide
  intro s d s' d' hmet hmet' hnames hnames' hkey
  obtain ⟨rfl, hd⟩ := hnamed hmet hnames
  obtain ⟨rfl, hd'⟩ := hnamed hmet' hnames'
  exact ⟨rfl, List.inj_on_of_nodup_map htexts hd hd' hkey⟩

theorem safeForCallers_maybe :
    isAssignable (some maybeEnv.resolver) (.func (labelled (.union [.number, .nil])))
        (.func (labelled (.ref "Maybe" []))) = .ok true ∧
      Ty.ListsNil (some maybeEnv.resolver) (.ref "Maybe" []) ∧
      SafeForCallers (some maybeEnv.resolver) (labelled (.union [.number, .nil]))
        (labelled (.ref "Maybe" [])) := by
  have hunion : Canonical (.union [.number, .nil]) := .intro rfl fun u hu => by
    rcases hu with ⟨hu⟩
    cases hu with
    | union hu => rcases List.mem_pair.1 hu with rfl | rfl <;> exact (normal_prim _).canonical
  have hname : Canonical (.ref "Maybe" []) := .intro trivial fun u hu => by
    rcases hu with ⟨hu⟩
    cases hu with
    | arg hu => cases hu
  refine ⟨rfl, listsNil_maybe, safeForCallers_of_isAssignable (plain_labelled hunion)
    (plain_labelled hname) (fun h => nomatch h) ?_ ?_ rfl⟩
  · rintro _ ⟨⟩
    exact tellsApart_maybe
  · refine ⟨fun i p homits hp => ?_, fun i q p _ _ hrest => (nomatch hrest), fun hrest => nomatch hrest⟩
    -- the one parameter that may be left out is optional on both sides
    have hi : 1 ≤ i := homits.1
    rcases i with _ | _ | i
    · omega
    · cases hp
      exact Or.inl rfl
    · cases hp

def ofNumber (optional : Bool) : Func := { params := [{ name := "a", type := .number, optional := optional }] }

/-- The comparison does not see that a caller may leave out what the function requires. -/
theorem not_safeForCallers_ofNumber :
    isAssignable none (.func (ofNumber false)) (.func (ofNumber true)) = .ok true ∧
      ¬ SafeForCallers none (ofNumber false) (ofNumber true) := by
  refine ⟨rfl, fun hsafe => ?_⟩
  have hcount : (1 : ℕ) ≤ 0 := hsafe.count 0 ⟨le_refl _, Or.inl (Nat.zero_le _)⟩
  omega

/-- Nor does it compare two rest parameters, where the function has another parameter before its own. -/
example : isAssignable none
    (.func { params := [{ name := "a", type := .union [.number, .nil] },
      { name := "xs", type := .number, rest := true }] })
    (.func { params := [{ name := "xs", type := .union [.number, .nil], rest := true }] }) = .ok true := rfl

end TreeCheck
