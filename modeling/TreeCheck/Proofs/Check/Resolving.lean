import Mathlib
import TreeCheck.Proofs.Check.Naming

/-!
# Headers of aliases are resolved in any order

While headers are resolved, the definitions of other aliases are half built.  What a header asks of them is how many
type arguments they take; this is known since they were named.  Two things are judged by the definitions themselves:
the arguments of utility types, and arguments for type parameters with constraints.  Without these the order in which
headers are resolved does not matter.

* `Check.appliedType_outline` — applying a type without constraints depends on the number of its type arguments;
* `Gap.resolved`, `Check.uniform_namedType` — naming a type does not tell apart whether an alias was resolved;
* `Header`, `Check.uniform_resolveAlias` — nor does resolving the header of another alias;
* `Settling`, `Check.level_of_settling` — resolving an alias changes its definition and the reports;
* `Check.level_swap_resolvePass` — two aliases are resolved in either order.
-/

namespace TreeCheck

/-! ### The number of type arguments -/

def Unbounded (ps : List TypeParam) : Prop := ∀ p ∈ ps, p.constraint = none

/-- Without constraints nothing is checked. -/
theorem checkConstraints_unbounded {ps : List TypeParam} (h : Unbounded ps) (r : Option Resolver) (s : Subst) :
    checkConstraints r s ps = pure (.ok ()) := by
  induction ps with
  | nil => rfl
  | cons p ps ih =>
      rw [Unbounded, List.forall_mem_cons] at h
      rw [checkConstraints, h.1]
      exact ih h.2

section Outlines

variable {ps qs : List TypeParam} {args : List Ty}

/-- Binding arguments succeeds or fails by the outline of the parameters alone. -/
theorem bindParams_outline (h : ps.map TypeParam.outline = qs.map TypeParam.outline) (s s' : Subst) :
    (bindParams ps args s).map (fun _ => ()) = (bindParams qs args s').map fun _ => () := by
  induction ps generalizing qs args s s' with
  | nil =>
      obtain rfl : qs = [] := by simpa using h.symm
      cases args <;> rfl
  | cons p ps ih =>
      cases qs with
      | nil => simp at h
      | cons q qs =>
          simp only [List.map_cons, List.cons.injEq] at h
          cases args with
          | cons a as =>
              rw [bindParams, bindParams]
              exact ih h.2 _ _
          | nil =>
              have hdefault : p.default.isSome = q.default.isSome := congrArg Prod.snd h.1
              rw [bindParams, bindParams]
              cases hp : p.default with
              | none =>
                  cases hq : q.default with
                  | none => rfl
                  | some d => simp [hp, hq] at hdefault
              | some d =>
                  cases hq : q.default with
                  | none => simp [hp, hq] at hdefault
                  | some d' => exact ih h.2 _ _

variable (h : ps.map TypeParam.outline = qs.map TypeParam.outline)

include h

theorem length_outline : ps.length = qs.length := by simpa using congrArg List.length h

theorem requiredTypeParams_outline : requiredTypeParams ps = requiredTypeParams qs := by
  have hcount : ∀ rs : List TypeParam, requiredTypeParams rs = (rs.map TypeParam.outline).countP fun o => !o.2 := by
    intro rs
    rw [List.countP_map, requiredTypeParams]
    congr 1
    funext p
    simp [TypeParam.outline]
  rw [hcount, hcount, h]

theorem typeParamRefs_outline : typeParamRefs ps = typeParamRefs qs := by
  have hrefs : ∀ rs : List TypeParam, typeParamRefs rs = (rs.map TypeParam.outline).map fun o => .tvar o.1 := by
    intro rs
    rw [List.map_map]
    rfl
  rw [hrefs, hrefs, h]

/-- So does binding with the number checked. -/
theorem bindArgs_outline : (bindArgs ps args).map (Except.map fun _ => ()) =
    (bindArgs qs args).map (Except.map fun _ => ()) := by
  have hfits : argumentCountFits ps args = argumentCountFits qs args := by
    rw [argumentCountFits, requiredTypeParams_outline h, length_outline h, argumentCountFits]
  have hbind : (bindParams ps args []).map (fun _ => ()) = (bindParams qs args []).map fun _ => () :=
    bindParams_outline h [] []
  rw [bindArgs, bindArgs, hfits, requiredTypeParams_outline h, length_outline h]
  split
  · generalize bindParams ps args [] = r at hbind
    generalize bindParams qs args [] = r' at hbind
    cases r with
    | error e =>
        cases r' with
        | error e' =>
            cases hbind
            rfl
        | ok u => cases hbind
    | ok u =>
        cases r' with
        | error e' => cases hbind
        | ok u' => rfl
  · rfl

end Outlines

namespace Check

variable {g : Gap} {ps qs : List TypeParam}

/-- Without constraints checking arguments means counting them. -/
theorem runFrom_checkTypeArguments (h : Unbounded ps) (args : List Ty) (s : Setting) (st : State) :
    (checkTypeArguments ps args).runFrom s st = ((bindArgs ps args).map (Except.map fun _ => ()), st) := by
  rw [checkTypeArguments, runFrom_bind, runFrom_query]
  rcases bindArgs ps args with e | e | r
  · rfl
  · rfl
  · simp only [checkConstraints_unbounded h]
    rfl

/-- So it depends on the outline of the parameters. -/
theorem checkTypeArguments_outline (h : ps.map TypeParam.outline = qs.map TypeParam.outline) (hps : Unbounded ps)
    (hqs : Unbounded qs) (args : List Ty) : checkTypeArguments ps args = checkTypeArguments qs args := by
  funext s st
  have hrun := runFrom_checkTypeArguments hps args s st
  rw [bindArgs_outline h] at hrun
  exact hrun.trans (runFrom_checkTypeArguments hqs args s st).symm

/-- Applying a type without constraints depends on the number of its type arguments. -/
theorem appliedType_outline (h : ps.map TypeParam.outline = qs.map TypeParam.outline) (hps : Unbounded ps)
    (hqs : Unbounded qs) (span : Span) (name : String) (args : List Ty) :
    appliedType span name ps args = appliedType span name qs args := by
  have hempty : ps.isEmpty = qs.isEmpty := by
    have hlength := length_outline h
    cases ps <;> cases qs <;> simp_all
  unfold appliedType
  simp only [requiredTypeParams_outline h, length_outline h, typeParamRefs_outline h, hempty,
    checkTypeArguments_outline h hps hqs]

theorem uniform_appliedType (hps : Unbounded ps) (span : Span) (name : String) (args : List Ty) :
    Uniform g (appliedType span name ps args) := by
  have hcheck : Uniform g (checkTypeArguments ps args) := by
    intro s st st' h
    rw [runFrom_checkTypeArguments hps, runFrom_checkTypeArguments hps]
    exact ⟨rfl, h⟩
  exact respects_appliedType_of (fun _ _ h => by rw [h.frame]) span name hcheck

end Check

/-! ### Types without constraints -/

namespace Env

/-- The type parameters of the names have no constraints. -/
def Lax (used : String → Prop) (e : Env) : Prop :=
  ∀ n, used n → ∀ ps, e.typeParams? n = some ps → Unbounded ps

variable {e e' : Env} {used : String → Prop} {a b : Alias}

/-- An alias without constraints may be set. -/
theorem Lax.setAlias (h : e.Lax used) (ha : used a.name → Unbounded a.params) : (e.setAlias a).Lax used := by
  intro n hn ps hps
  rw [typeParams?_setAlias] at hps
  split at hps
  · next heq =>
    cases hps
    exact ha (heq ▸ hn)
  · exact h n hn ps hps

theorem Agrees.lax (h : e.Agrees e') (he : e.Lax used) : e'.Lax used := fun n hn ps hps =>
  he n hn ps ((h.typeParams? n).symm.trans hps)

end Env

def Gap.resolved (used : String → Prop) (a : Alias) (reports : String → Prop) : Gap :=
  via (fun h => ⟨h.env.setAlias a, h.owners⟩)
    (fun h => h.env.AliasKeyed ∧ h.env.Lax used ∧
      ∃ b, h.env.alias? a.name = some b ∧ b.params.map TypeParam.outline = a.params.map TypeParam.outline)
    reports

namespace Gap

theorem scoped_resolved (used : String → Prop) (a : Alias) (reports : String → Prop) :
    (Gap.resolved used a reports).Scoped :=
  scoped_via (fun _ _ => rfl) (fun _ _ h => h) fun _ => rfl

end Gap

namespace Check

variable {used : String → Prop} {a : Alias} {reports : String → Prop}

/-- Naming a type without constraints does not tell apart whether an alias was resolved. -/
theorem uniform_namedType (ha : used a.name → Unbounded a.params) {span : Span} {name : String} (count : Nat)
    {build : Check (List Ty)} (hname : used name) (hutility : isUtility name = false)
    (hbuild : Uniform (.resolved used a reports) build) :
    Uniform (.resolved used a reports) (namedType span name count build) := by
  refine respects_of_get_alike (fun st st' h => ?_) fun st st' h => ?_
  · obtain ⟨-, hlax, b, hb, houtline⟩ := h.hidden.1
    have hagree : (st.env.setAlias a).Agrees st'.env := h.hidden.2.env
    have hparam : st'.env.isTypeParam name = st.env.isTypeParam name := hagree.isTypeParam name
    have hdefined : st'.env.isDefined name = st.env.isDefined name :=
      (hagree.isDefined name).trans (Env.isDefined_setAlias hb name)
    have hfar := (hagree.typeParams? name).trans (Env.typeParams?_setAlias st.env a name)
    dsimp only
    rw [hparam, hdefined]
    by_cases heq : a.name = name
    -- the alias itself has as many type parameters as before, and no constraints either
    · have hnear : st.env.typeParams? name = some b.params := heq ▸ Env.typeParams?_of_alias? hb
      have happlied : appliedType span name a.params = appliedType span name b.params := funext fun args =>
        appliedType_outline houtline.symm (ha (heq ▸ hname)) (hlax name hname _ hnear) span name args
      rw [if_pos heq] at hfar
      rw [hfar, hnear]
      dsimp only
      rw [happlied]
    · rw [if_neg heq] at hfar
      rw [hfar]
  · obtain ⟨-, hlax, -⟩ := h.hidden.1
    have happlied : ∀ args ps, st.env.typeParams? name = some ps →
        Uniform (.resolved used a reports) (appliedType span name ps args) := fun args ps hps =>
      uniform_appliedType (hlax name hname ps hps) span name args
    dsimp only
    rw [hutility]
    split
    · exact (respects_report _ _ _).bind_if fun _ => respects_pure _
    · split
      · exact (respects_report _ _ _).bind_if fun _ => respects_pure _
      · split
        · exact (respects_report _ _ _).bind fun _ => respects_pure _
        · refine hbuild.bind fun args => ?_
          split
          · contradiction
          · split
            · exact respects_pure _
            · next ps hps => exact happlied args ps hps

/-- Annotations that use lax names are read alike before and after an alias is resolved. -/
theorem reading_resolved (ha : used a.name → Unbounded a.params) (hused : ∀ n, used n → isUtility n = false) :
    Reading (fun _ => Uniform (.resolved used a reports)) used fun p => p.constraint = none ∨ p.default = none where
  pure := respects_pure
  bind := Respects.bind
  report := respects_report
  withParams ps _ := uniform_withParams (Gap.scoped_resolved used a reports) ps
  named _ name count _ hname hbuild := uniform_namedType ha count hname (hused name hname) hbuild
  param _ h := h.imp_right .inl

end Check

def UnboundedDecls (ps : List TypeParamDecl) : Prop := ∀ p ∈ ps, p.constraint = none

namespace Check

variable {α β : Type}

/-! ### Declared type parameters -/

theorem yields_buildOption (t : Option TypeExpr) (s : Setting) :
    Yields s (buildOption t) fun o => o.isSome = t.isSome := by
  cases t with
  | none =>
      rw [buildOption]
      exact .pure rfl
  | some t =>
      rw [buildOption]
      exact Yields.last fun _ => .pure rfl

theorem yields_withParams {act : Check α} {Q : α → Prop} {s : Setting} (ps : List TypeParam) (h : Yields s act Q) :
    Yields s (withParams ps act) Q := by
  rw [withParams]
  split
  · exact h
  · exact Yields.last fun _ => h.bind fun a ha => Yields.last fun _ => .pure ha

theorem yields_buildParamDecls (ps : List TypeParamDecl) (s : Setting) : Yields s (buildParamDecls ps) fun qs =>
    qs.map TypeParam.outline = ps.map TypeParamDecl.outline ∧ (UnboundedDecls ps → Unbounded qs) := by
  induction ps with
  | nil =>
      rw [buildParamDecls]
      exact .pure ⟨rfl, fun _ q hq => by cases hq⟩
  | cons p ps ih =>
      obtain ⟨span, name, c, d⟩ := p
      rw [buildParamDecls]
      refine (yields_buildOption c s).bind fun constraint hconstraint =>
        (yields_buildOption d s).bind fun default hdefault => Yields.last fun _ =>
          ih.bind fun qs hqs => .pure ⟨?_, fun hps => ?_⟩
      · simp only [List.map_cons, hqs.1, TypeParam.outline, TypeParamDecl.outline, hdefault]
      · rw [UnboundedDecls, List.forall_mem_cons] at hps
        rw [Unbounded, List.forall_mem_cons]
        refine ⟨?_, hqs.2 hps.2⟩
        rw [show c = none from hps.1] at hconstraint
        exact Option.isSome_eq_false_iff.1 hconstraint |> Option.isNone_iff_eq_none.1

theorem yields_buildTypeParams (ps : List TypeParamDecl) (s : Setting) : Yields s (buildTypeParams ps) fun qs =>
    qs.map TypeParam.outline = ps.map TypeParamDecl.outline ∧ (UnboundedDecls ps → Unbounded qs) :=
  yields_withParams _ (yields_buildParamDecls ps s)

/-! ### Resolving the definition of an alias -/

variable {used : String → Prop} {a : Alias} {reports : String → Prop}

theorem uniform_modifyAlias {name : String} (hname : a.name ≠ name) {f : Alias → Alias}
    (hf : ∀ b, (f b).name = b.name) (hparams : used name → ∀ b, Unbounded b.params → Unbounded (f b).params) :
    Uniform (.resolved used a reports) (modifyAlias name f) := by
  refine respects_modify fun st st' h => { h with hidden := ?_ }
  obtain ⟨⟨hkeyed, hlax, b, hb, houtline⟩, hagree⟩ := h.hidden
  have hsame : st'.env.alias? name = st.env.alias? name :=
    (hagree.env.alias? name).trans ((st.env.alias?_setAlias a name).trans (if_neg hname))
  cases hc : st.env.alias? name with
  | none =>
      simp only [State.hidden, hsame, hc, Option.map_none, Option.getD_none]
      exact h.hidden
  | some c =>
      have hcname : (f c).name = name := (hf c).trans (hkeyed name c hc)
      have hne : a.name ≠ (f c).name := hcname ▸ hname
      simp only [State.hidden, hsame, hc, Option.map_some, Option.getD_some]
      refine ⟨⟨hkeyed.setAlias _, hlax.setAlias fun hu => ?_, b, ?_, houtline⟩, ?_⟩
      · rw [hcname] at hu
        exact hparams hu c (hlax name hu _ (Env.typeParams?_of_alias? hc))
      · exact (Env.alias?_setAlias _ _ _).trans ((if_neg hne.symm).trans hb)
      · exact { hagree with env := (Env.setAlias_comm _ hne.symm).trans (hagree.env.setAlias (f c)) }

/-- The header of an alias, as far as other headers matter to it. -/
structure Header (used : String → Prop) (name : String) (tparams : List TypeParamDecl) (type : Option TypeExpr) :
    Prop where
  bounds : used name → UnboundedDecls tparams
  halves : ∀ p ∈ tparams, p.constraint = none ∨ p.default = none
  tparams : Item.Use used (fun p => p.constraint = none ∨ p.default = none) (Walk.typeParams tparams)
  type : Item.Use used (fun p => p.constraint = none ∨ p.default = none) (Walk.typeOption type)

theorem uniform_resolveAlias (ha : used a.name → Unbounded a.params) (hused : ∀ n, used n → isUtility n = false)
    {name : String} {tparams : List TypeParamDecl} {type : Option TypeExpr} (h : Header used name tparams type)
    (hname : a.name ≠ name) : Uniform (.resolved used a reports) (resolveAlias name tparams type) := by
  have hreading : Reading (fun _ => Uniform (.resolved used a reports)) used _ := reading_resolved ha hused
  refine respects_of_get (fun st st' hst => ?_) fun st => ?_
  · have hsame : st'.env.alias? name = st.env.alias? name :=
      (hst.hidden.2.env.alias? name).trans ((st.env.alias?_setAlias a name).trans (if_neg hname))
    rw [hsame]
  · split
    · exact respects_pure _
    · refine (reads_buildTypeParams hreading h.halves h.tparams).bind_yields (yields_buildTypeParams tparams)
        fun params hparams => ?_
      have hbounds : used name → ∀ b : Alias, Unbounded b.params → Unbounded params := fun hu _ _ =>
        hparams.2 (h.bounds hu)
      refine (uniform_modifyAlias (f := ({ · with params })) hname (fun _ => rfl) hbounds).bind fun _ => ?_
      refine uniform_withParams (Gap.scoped_resolved _ _ _) params ?_
      exact (reads_buildOrUnknown hreading h.type).bind fun body =>
        uniform_modifyAlias (f := ({ · with body })) hname (fun _ => rfl) fun _ _ hb => hb

end Check

/-! ### What resolving an alias changes -/

/-- The state after a step that changed the definition of an alias, reports and the type parameters in scope. -/
structure State.Beside (st : State) (a : Alias) (st' : State) : Prop extends State.Matches st st' where
  owners : st'.owners = st.owners
  env : Env.Agrees { st.env.setAlias a with bounds := st'.env.bounds } st'.env

/-- A definition that an alias may have while its header is resolved. -/
structure Alias.Redefines (used : String → Prop) (b a : Alias) : Prop where
  name : a.name = b.name
  outline : a.params.map TypeParam.outline = b.params.map TypeParam.outline
  bounds : used b.name → Unbounded a.params

namespace Check

variable {α β : Type} {used : String → Prop} {b : Alias} {st : State}

/-- The second step matters for the values with which the first one can end. -/
theorem Keeps.bind_yields {P : State → Prop} {c : Check α} {f : α → Check β} {Q : α → Prop} (hc : Keeps P c)
    (hQ : ∀ s, Yields s c Q) (hf : ∀ a, Q a → Keeps P (f a)) : Keeps P (c >>= f) := by
  intro s st h
  have hrun := hc s st h
  have hyields := hQ s st
  rw [runFrom_bind]
  generalize c.runFrom s st = r at hrun hyields
  obtain ⟨r, st'⟩ := r
  cases r with
  | ok a => exact hf a (hyields a st' rfl) s st' hrun
  | error e => exact hrun

/-- Only the definition of the alias was changed, besides reports and type parameters in scope. -/
def Settling (used : String → Prop) (b : Alias) (st st' : State) : Prop :=
  ∃ a, b.Redefines used a ∧ st.Beside a st'

theorem inert_settling : Inert (Settling used b st) where
  reports _ _ h := h.imp fun _ h => ⟨h.1, { h.2 with env := h.2.env }⟩
  scopes _ _ h := h.imp fun _ h => ⟨h.1, { h.2 with env := { h.2.env with bounds := rfl } }⟩

/-- Changing the definition of the alias changes nothing else. -/
theorem settling_modifyAlias {f : Alias → Alias} (hf : ∀ a, b.Redefines used a → b.Redefines used (f a)) :
    Keeps (Settling used b st) (modifyAlias b.name f) := by
  refine keeps_modify fun st' ⟨a, ha, h⟩ => ⟨f a, hf a ha, { h with env := ?_ }⟩
  have hold : st'.env.alias? b.name = some a :=
    (h.env.alias? b.name).trans ((Env.alias?_setAlias _ _ _).trans (if_pos ha.name))
  simp only [hold, Option.map_some, Option.getD_some]
  have hname : a.name = (f a).name := ha.name.trans (hf a ha).name.symm
  exact ((st.env.setAlias_setAlias hname).rescope st'.env.bounds).trans (h.env.setAlias (f a))

/-- Nor does resolving it. -/
theorem settling_resolveAlias {tparams : List TypeParamDecl} {type : Option TypeExpr}
    (houtline : b.params.map TypeParam.outline = tparams.map TypeParamDecl.outline)
    (hbounds : used b.name → UnboundedDecls tparams) :
    Keeps (Settling used b st) (resolveAlias b.name tparams type) := by
  refine keeps_get.bind fun _ => ?_
  split
  · exact keeps_pure _
  · refine (reads_buildTypeParams (reading_keeps inert_settling) (fun _ _ => trivial) (Item.use_all _)).bind_yields
      (yields_buildTypeParams tparams) fun params hparams => ?_
    refine (settling_modifyAlias (f := ({ · with params })) fun a ha => ?_).bind fun _ => ?_
    · exact ⟨ha.name, hparams.1.trans houtline.symm, fun hu => hparams.2 (hbounds hu)⟩
    · refine keeps_withParams inert_settling params ?_
      refine (reads_buildOrUnknown (reading_keeps inert_settling) (Item.use_all _)).bind fun body => ?_
      exact settling_modifyAlias (f := ({ · with body })) fun a ha => ⟨ha.name, ha.outline, ha.bounds⟩

theorem exitTo_depth (t : SymbolTable) : t.exitTo t.depth = t := by
  rw [SymbolTable.exitTo, SymbolTable.depth, Nat.sub_self, List.drop_zero]

/-- A guarded step that changes the definition of an alias at most, seen between statements. -/
theorem level_of_settling {act : Check Unit} (hact : ∀ o : Origin, [o.Jumps] → [∀ n, o.Heads n] → Traced o act)
    (h : ∀ st, Keeps (Settling used b st) act) (hkeyed : st.env.AliasKeyed) (hlax : st.env.Lax used)
    (hb : st.env.alias? b.name = some b) {span : Span} {s : Setting} {st' : State}
    (hdone : (guarded span act).done? s st = some st') :
    ∃ a, b.Redefines used a ∧ st.Level (.resolved used a fun key => st'.diagnostics.Reports key) st' := by
  have hbegin : Settling used b { st with trail := { current := st.trail.current } }
      { st with trail := { current := st.trail.current } } :=
    ⟨b, ⟨rfl, rfl, fun hu => hlax b.name hu _ (Env.typeParams?_of_alias? hb)⟩,
      ⟨.refl _, rfl, Env.setAlias_self hb⟩⟩
  have hguarded := done?_eq_some_iff.1 hdone
  have hfollows : st.Follows .jump st' := (completes_guarded span hact).follows hguarded
  obtain ⟨a, ha, hend⟩ : Settling used b { st with trail := { current := st.trail.current } } st' := by
    have hrun := h _ s _ hbegin
    rw [runFrom_guarded] at hguarded
    generalize act.runFrom s { st with trail := { current := st.trail.current } } = r at hrun hguarded
    obtain ⟨r, st₁⟩ := r
    cases r with
    | ok _ =>
        cases hguarded
        exact hrun
    | error e =>
        dsimp only at hguarded
        split at hguarded
        · cases hguarded
        · cases hguarded
          obtain ⟨a, ha, hend⟩ := inert_settling.reports st₁
            ((report .internal span ["internal checker error: " ++ e.message]).runFrom s st₁).2.diagnostics hrun
          refine ⟨a, ha, { hend with symbols := ?_, trail := ?_, frame := rfl, env := { hend.env with bounds := rfl } }⟩
          · exact (congrArg (·.exitTo st.symbols.depth) hend.symbols).trans (exitTo_depth st.symbols)
          · have hroot := congrArg Trail.root hend.trail
            exact congrArg (fun c : Context => ({ current := c } : Trail)) hroot
  refine ⟨a, ha, { hend.toMatches with trail := ?_ }, ?_,
    ⟨hkeyed, hlax, b, by rw [show a.name = b.name from ha.name]; exact hb, ha.outline.symm⟩, ?_, ?_⟩
  · have htrail := hend.trail
    simp only [State.rested, htrail]
  · intro key
    refine ⟨.inl, Or.rec id ?_⟩
    rintro ⟨d, hd, hkey⟩
    exact ⟨d, hfollows.reports.subset hd, hkey⟩
  · have hparams : st'.env.bounds = st.env.bounds := hfollows.params
    have henv := hend.env
    rw [hparams] at henv
    exact henv
  · intro n
    exact congrArg (·.get? n) hend.owners

end Check

/-! ### Aliases in either order -/

/-- What is asked of the header of an alias that a statement of the top level declares. -/
def Stmt.Headed (used : String → Prop) (t : Stmt) : Prop :=
  ∀ name tparams type, t.unwrapped.form = .typeAlias name tparams type → Check.Header used name tparams type

namespace State

variable {used : String → Prop} {ts : List Stmt} {st st' st₁ : State}

/-- The aliases are entered, and the names that their headers use have no constraints. -/
structure Ready (used : String → Prop) (ts : List Stmt) (st : State) : Prop extends State.Entered ts st where
  lax : st.env.Lax used

/-- Aliases that are entered are so in every state that agrees. -/
theorem Entered.agree (h : st.Entered ts) (hst : st.hidden.Agree st'.hidden) : st'.Entered ts where
  keyed := hst.env.aliasKeyed h.keyed
  named t ht name tparams type hform howner := by
    rw [show st'.owners.get? name = st.owners.get? name from hst.owners name] at howner
    obtain ⟨b, hb, houtline⟩ := h.named t ht name tparams type hform howner
    exact ⟨b, (hst.env.alias? name).trans hb, houtline⟩

theorem Ready.agree (h : st.Ready used ts) (hst : st.hidden.Agree st'.hidden) : st'.Ready used ts where
  toEntered := h.toEntered.agree hst
  lax := hst.env.lax h.lax

/-- Resolving one alias leaves the others ready. -/
theorem Ready.resolved (h : st.Ready used ts) {b a : Alias} (hb : st.env.alias? b.name = some b)
    (ha : b.Redefines used a) (hst : Hidden.Agree ⟨st.env.setAlias a, st.owners⟩ st'.hidden) : st'.Ready used ts := by
  have hready : Ready used ts { st with env := st.env.setAlias a } := by
    refine ⟨⟨h.keyed.setAlias a, ?_⟩, h.lax.setAlias (ha.name ▸ ha.bounds)⟩
    intro t ht name tparams type hform howner
    obtain ⟨c, hc, houtline⟩ := h.named t ht name tparams type hform howner
    by_cases hname : a.name = name
    · refine ⟨a, (Env.alias?_setAlias _ _ _).trans (if_pos hname), ?_⟩
      obtain rfl : b = c := by
        rw [← ha.name.symm.trans hname, hb] at hc
        exact Option.some.inj hc
      exact ha.outline.trans houtline
    · exact ⟨c, (Env.alias?_setAlias _ _ _).trans ((if_neg hname).trans hc), houtline⟩
  exact hready.agree hst

/-- Two aliases are resolved in either order. -/
theorem Level.cross {a a' : Alias} {reports reports' : String → Prop} (hne : a.name ≠ a'.name)
    {stx sty stxy styx : State} (hx : st.Level (.resolved used a reports) stx)
    (hy : st.Level (.resolved used a' reports') sty) (hxy : sty.Level (.resolved used a reports) stxy) (hyx : stx.Level (.resolved used a' reports') styx) :
    stxy.Level .order styx where
  toMatches := (hy.toMatches.trans hxy.toMatches).symm.trans (hx.toMatches.trans hyx.toMatches)
  reports key := by
    have h₁ := hx.reports key
    have h₂ := hy.reports key
    have h₃ := hxy.reports key
    have h₄ := hyx.reports key
    simp only [Gap.order, Gap.resolved, Gap.via, false_or] at h₁ h₂ h₃ h₄ ⊢
    rw [h₃, h₄, h₁, h₂, or_left_comm]
  hidden := by
    have h₁ : Hidden.Agree _ _ := hx.hidden.2
    have h₂ : Hidden.Agree _ _ := hy.hidden.2
    have h₃ : Hidden.Agree _ _ := hxy.hidden.2
    have h₄ : Hidden.Agree _ _ := hyx.hidden.2
    refine h₃.symm.trans (.trans ?_ h₄)
    refine ⟨?_, fun n => (h₁.owners n).trans (h₂.owners n).symm⟩
    exact (h₂.env.setAlias a).symm.trans ((Env.setAlias_comm _ hne.symm).trans (h₁.env.setAlias a'))

end State

namespace Check

variable {g : Gap} {used : String → Prop} {ts : List Stmt} {s : Setting} {st : State}

/-- The step of a pass over headers. -/
def heading (pass : Stmt → Check Unit) (t : Stmt) : Check Unit := guarded t.unwrapped.span (pass t.unwrapped)

/-- The pass that resolves the aliases of the top level. -/
def resolvePass (t : Stmt) : Check Unit :=
  match t.form with
  | .typeAlias name tparams type => headerPasses.ifOwner name t.loc (resolveAlias name tparams type)
  | _ => pure ()

/-- A statement resolves an alias of its own. -/
def Resolves (t : Stmt) (st : State) : Prop :=
  ∃ name tparams type, t.unwrapped.form = .typeAlias name tparams type ∧
    st.owners.get? name = some t.unwrapped.loc.id

/-- A step for the owner of a name is made by the owner only. -/
theorem runFrom_ifOwner (name : String) (l : Loc) (act : Check Unit) (s : Setting) (st : State) :
    (headerPasses.ifOwner name l act).runFrom s st =
      if st.owners.get? name = some l.id then act.runFrom s st else (.ok (), st) := by
  rw [headerPasses.ifOwner, runFrom_bind, show (isOwner name l).runFrom s st =
    (.ok (st.owners.get? name == some l.id), st) from rfl]
  by_cases h : st.owners.get? name = some l.id
  · simp only [h, beq_self_eq_true, if_true]
  · have hbeq : (st.owners.get? name == some l.id) = false := by simpa using h
    simp only [hbeq, h]
    rfl

/-- A statement that resolves no alias of its own makes no difference. -/
theorem passive_resolvePass {t : Stmt} (h : ¬ Resolves t st) : Passive (heading resolvePass t) s st := by
  refine passive_guarded fun st' howners _ => ?_
  unfold resolvePass
  split
  · next name tparams type hform =>
    rw [runFrom_ifOwner, howners, if_neg]
    exact fun howner => h ⟨name, tparams, type, hform, howner⟩
  · rfl

theorem uniform_isOwner (hg : ∀ h h', g.hidden h h' → ∀ n, h'.owners.get? n = h.owners.get? n) (name : String)
    (l : Loc) : Uniform g (isOwner name l) :=
  respects_of_get (fun st st' h => by
    have howner : st'.owners.get? name = st.owners.get? name := hg _ _ h.hidden name
    simp only [howner]) fun _ => respects_pure _

theorem uniform_ifOwner (hg : ∀ h h', g.hidden h h' → ∀ n, h'.owners.get? n = h.owners.get? n) (name : String)
    (l : Loc) {act : Check Unit} (h : Uniform g act) : Uniform g (headerPasses.ifOwner name l act) := by
  refine (uniform_isOwner hg name l).bind fun b => ?_
  split
  · exact h
  · exact respects_pure _

/-- Resolving an alias does not tell apart whether another one was resolved. -/
theorem uniform_resolvePass {a : Alias} {reports : String → Prop} (ha : used a.name → Unbounded a.params)
    (hused : ∀ n, used n → isUtility n = false) {t : Stmt} (ht : t.Headed used) (hname : a.name ∉ t.typeNames) :
    Uniform (.resolved used a reports) (resolvePass t.unwrapped) := by
  unfold resolvePass
  split
  · next name tparams type hform =>
    have hne : a.name ≠ name := by
      rintro rfl
      exact hname (by rw [Stmt.typeNames, hform]; exact List.mem_singleton_self _)
    exact uniform_ifOwner (g := .resolved used a reports) (fun _ _ h => h.2.owners) _ _
      (uniform_resolveAlias ha hused (ht _ _ _ hform) hne)
  · exact respects_pure _

theorem impartial_resolvePass (t : Stmt) : Impartial (resolvePass t) := by
  unfold resolvePass
  split
  · exact uniform_ifOwner (g := .order) (fun _ _ h => h.owners) _ _ (respects_resolveAlias _ _ _)
  · exact respects_pure _

/-- What a statement that resolves an alias does. -/
theorem level_resolvePass (hst : st.Ready used ts) {t : Stmt} (ht : t ∈ ts) (hheaded : t.Headed used)
    (h : Resolves t st) {st' : State} (hdone : (heading resolvePass t).done? s st = some st') :
    ∃ b a reports, st.env.alias? b.name = some b ∧ b.Redefines used a ∧
      t.typeNames = [a.name] ∧ st.Level (.resolved used a reports) st' := by
  obtain ⟨name, tparams, type, hform, howner⟩ := h
  obtain ⟨b, hb, houtline⟩ := hst.named t ht name tparams type hform (by rw [howner]; rfl)
  obtain rfl : b.name = name := hst.keyed name b hb
  have hpass : resolvePass t.unwrapped =
      headerPasses.ifOwner b.name t.unwrapped.loc (resolveAlias b.name tparams type) := by
    rw [resolvePass, hform]
  have hkeeps : ∀ st, Keeps (Settling used b st) (resolvePass t.unwrapped) := by
    intro st s st' h
    rw [hpass, runFrom_ifOwner]
    split
    · exact settling_resolveAlias houtline (hheaded _ _ _ hform).bounds s st' h
    · exact h
  have hmem : resolvePass ∈ headerPasses := List.mem_cons_self
  have htraced : ∀ o : Origin, [o.Jumps] → [∀ n, o.Heads n] → Traced o (resolvePass t.unwrapped) := fun o _ _ =>
    traced_headerPass hmem _ inferInstance
  obtain ⟨a, ha, hlevel⟩ := level_of_settling htraced hkeeps hst.keyed hst.lax hb hdone
  refine ⟨b, a, _, hb, ha, ?_, hlevel⟩
  rw [Stmt.typeNames, hform, ha.name]

section Resolved

variable {t t' : Stmt} {st' : State}

/-- So the state behind it is the same between statements. -/
theorem level_of_not_resolves (h : ¬ Resolves t st) (hdone : (heading resolvePass t).done? s st = some st') :
    st.Level .order st' := by
  obtain ⟨st₁, hrun, hlevel⟩ : Passive _ s st := passive_resolvePass h
  obtain rfl : st₁ = st' := Option.some.inj (hrun.symm.trans hdone)
  exact hlevel

/-- Which statements resolve an alias is not changed by resolving one. -/
theorem resolves_resolvePass (hst : st.Ready used ts) (ht : t ∈ ts) (hheaded : t.Headed used)
    (hdone : (heading resolvePass t).done? s st = some st') : Resolves t' st' ↔ Resolves t' st := by
  have howners : ∀ n, st'.owners.get? n = st.owners.get? n := by
    by_cases h : Resolves t st
    · obtain ⟨b, a, reports, -, -, -, hlevel⟩ := level_resolvePass hst ht hheaded h hdone
      exact hlevel.hidden.2.owners
    · exact (level_of_not_resolves h hdone).hidden.owners
  simp only [Resolves, howners]

/-- Resolving an alias leaves the aliases ready. -/
theorem ready_resolvePass (hst : st.Ready used ts) (ht : t ∈ ts) (hheaded : t.Headed used)
    (hdone : (heading resolvePass t).done? s st = some st') : st'.Ready used ts := by
  by_cases h : Resolves t st
  · obtain ⟨b, a, reports, hb, ha, -, hlevel⟩ := level_resolvePass hst ht hheaded h hdone
    exact hst.resolved hb ha hlevel.hidden.2
  · exact hst.agree (level_of_not_resolves h hdone).hidden

/-- What a statement resolves is the same before and after another alias is resolved. -/
theorem level_across {a : Alias} {reports : String → Prop} (ha : used a.name → Unbounded a.params)
    (hused : ∀ n, used n → isUtility n = false) (ht : t.Headed used) (hname : a.name ∉ t.typeNames)
    (h : st.Level (.resolved used a reports) st') :
    Option.Rel (State.Level (.resolved used a reports)) ((heading resolvePass t).done? s st)
      ((heading resolvePass t).done? s st') :=
  level_guarded (Gap.scoped_resolved _ _ _) _ (uniform_resolvePass ha hused ht hname) s h

/-- Two aliases of different names are resolved in either order. -/
theorem level_swap_resolves (hused : ∀ n, used n → isUtility n = false) (hst : st.Ready used ts)
    (ht : t ∈ ts) (ht' : t' ∈ ts) (hheaded : t.Headed used) (hheaded' : t'.Headed used)
    (hapart : List.Disjoint t.typeNames t'.typeNames) (h : Resolves t st) (h' : Resolves t' st) :
    Option.Rel (State.Level .order)
      (((heading resolvePass t).done? s st).bind ((heading resolvePass t').done? s))
      (((heading resolvePass t').done? s st).bind ((heading resolvePass t).done? s)) := by
  -- where one of the two is resolved, the other one meets a fault in both orders or in neither
  have hfar : ∀ {t t' : Stmt} {stx : State}, t ∈ ts → t.Headed used → t'.Headed used →
      List.Disjoint t.typeNames t'.typeNames → Resolves t st → (heading resolvePass t).done? s st = some stx →
      ∃ a reports, t.typeNames = [a.name] ∧ st.Level (.resolved used a reports) stx ∧
        Option.Rel (State.Level (.resolved used a reports)) ((heading resolvePass t').done? s st)
          ((heading resolvePass t').done? s stx) := by
    intro t t' stx ht hheaded hheaded' hapart h hdone
    obtain ⟨b, a, reports, -, ha, hname, hlevel⟩ := level_resolvePass hst ht hheaded h hdone
    have hnot : a.name ∉ t'.typeNames := fun h => hapart (by rw [hname]; exact List.mem_singleton_self _) h
    exact ⟨a, reports, hname, hlevel, level_across (ha.name ▸ ha.bounds) hused hheaded' hnot hlevel⟩
  cases hx : (heading resolvePass t).done? s st with
  | none =>
      cases hy : (heading resolvePass t').done? s st with
      | none => exact .none
      | some sty =>
          obtain ⟨a, reports, -, -, hxy⟩ := hfar ht' hheaded' hheaded hapart.symm h' hy
          rw [hx] at hxy
          rw [Option.bind_none, Option.bind_some]
          revert hxy
          generalize (heading resolvePass t).done? s sty = o
          rintro ⟨⟩
          exact .none
  | some stx =>
      obtain ⟨a, reports, hname, hlevel, hyx⟩ := hfar ht hheaded hheaded' hapart h hx
      cases hy : (heading resolvePass t').done? s st with
      | none =>
          rw [hy] at hyx
          rw [Option.bind_none, Option.bind_some]
          revert hyx
          generalize (heading resolvePass t').done? s stx = o
          rintro ⟨⟩
          exact .none
      | some sty =>
          obtain ⟨a', reports', hname', hlevel', hxy⟩ := hfar ht' hheaded' hheaded hapart.symm h' hy
          have hne : a.name ≠ a'.name := fun heq =>
            hapart (a := a.name) (by rw [hname]; exact List.mem_singleton_self _)
              (by rw [hname', heq]; exact List.mem_singleton_self _)
          rw [hx] at hxy
          rw [hy] at hyx
          rw [Option.bind_some, Option.bind_some]
          revert hxy hyx
          generalize (heading resolvePass t').done? s stx = o, (heading resolvePass t).done? s sty = o'
          intro hxy hyx
          cases hxy with
          | some hstyx =>
              cases hyx with
              | some hstxy => exact .some (State.Level.cross hne hlevel hlevel' hstyx hstxy)

/-- **Aliases are resolved in either order.** -/
theorem level_swap_resolvePass (hused : ∀ n, used n → isUtility n = false) (hst : st.Ready used ts)
    (ht : t ∈ ts) (ht' : t' ∈ ts) (hheaded : t.Headed used) (hheaded' : t'.Headed used)
    (hapart : List.Disjoint t.typeNames t'.typeNames) :
    Option.Rel (State.Level .order)
      (((heading resolvePass t).done? s st).bind ((heading resolvePass t').done? s))
      (((heading resolvePass t').done? s st).bind ((heading resolvePass t).done? s)) := by
  have hcongr : ∀ (t : Stmt) st', st.Level .order st' → Option.Rel (State.Level .order)
      ((heading resolvePass t).done? s st) ((heading resolvePass t).done? s st') := fun t _ h =>
    level_impartial t.unwrapped.span (impartial_resolvePass t.unwrapped) s h
  by_cases h : Resolves t st
  · by_cases h' : Resolves t' st
    · exact level_swap_resolves hused hst ht ht' hheaded hheaded' hapart h h'
    · refine rel_symm (level_swap_passive (hcongr t) (passive_resolvePass h') fun st' hdone => ?_)
      exact passive_resolvePass (mt (resolves_resolvePass hst ht hheaded hdone).1 h')
  · refine level_swap_passive (hcongr t') (passive_resolvePass h) fun st' hdone => ?_
    exact passive_resolvePass (mt (resolves_resolvePass hst ht' hheaded' hdone).1 h)

end Resolved

end Check

end TreeCheck
