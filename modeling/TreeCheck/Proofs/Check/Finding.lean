import Mathlib
import TreeCheck.Proofs.Check.Clean
import TreeCheck.Proofs.Check.Imported
import TreeCheck.Proofs.Check.Judged

/-!
# What the rules find

Unless something is reported, each rule of the checker notes types for what is judged in its part of the
tree.  A class needs to be known before its bodies are checked, with the signatures of its methods; that
holds for a class at the top level when its header has been resolved, and a nested one is resolved with its
statement.

* `ClassDecl.Resolved`, `Stmt.Ready` — what a rule needs to be known about classes;
* `FindingChecker` — a checker whose steps find what is judged;
* `Check.finds_infer`, `Check.finds_checkClassBodies`, … — one rule for each kind of expression, and for each
  kind of statement.
-/

open Std.Do

set_option mvcgen.warning false

namespace TreeCheck

open State

variable {P : State → Prop}

/-- The signature of the function of a class member is remembered. -/
def ClassMember.Signed (m : ClassMember) (st : State) : Prop := ∀ f, m.function = some f → st.Signed f.loc.id

instance (m : ClassMember) : Enduring m.Signed := ⟨fun h hm f hf => h.signed _ (hm f hf)⟩

/-- What is needed of a class before its bodies are checked: it is known, and the signatures of its methods
are remembered. -/
structure ClassDecl.Resolved (d : ClassDecl) (st : State) : Prop where
  known : st.env.isClass d.name = true
  signed : ∀ m ∈ d.members, m.kind ≠ .property → m.Signed st

instance (d : ClassDecl) : Enduring d.Resolved :=
  ⟨fun h hd => ⟨h.known _ hd.known, fun m hm hkind => Enduring.endures h (hd.signed m hm hkind)⟩⟩

/-- The statement owns the name of the class. -/
def ClassDecl.OwnedBy (d : ClassDecl) (l : Loc) (st : State) : Prop :=
  st.owners.get? d.name = some l.id ∧ st.env.isClass d.name = true

instance (d : ClassDecl) (l : Loc) : Enduring (d.OwnedBy l) :=
  ⟨fun h hd => ⟨(h.held _ (Env.isRegistered_of_isClass hd.2)).trans hd.1, h.known _ hd.2⟩⟩

/-- At the top level the header of a class has been resolved before its statement is checked. -/
def Stmt.Ready (t : Stmt) (st : State) : Prop :=
  st.symbols.isModuleScope = true → ∀ d, t.unwrapped.form = .class d →
    d.OwnedBy t.unwrapped.loc st ∧ d.Resolved st

instance (t : Stmt) : Enduring t.Ready :=
  ⟨fun h ht hscope d hd => Enduring.endures h (P := fun st => d.OwnedBy t.unwrapped.loc st ∧ d.Resolved st)
    (ht (h.isModuleScope.symm.trans hscope) d hd)⟩

theorem Stmt.ready_of_nested (t : Stmt) {st : State} (h : st.Nested) : t.Ready st := fun hscope => by
  rw [Nested, hscope] at h
  cases h

/-- A checker whose steps find what is judged. -/
structure FindingChecker extends SteadyChecker where
  finds_expr : ∀ {P : State → Prop} e expected, Check.Finds P (expr e expected) (Judged.expr e)
  finds_stmt : ∀ t : Stmt, Check.Finds t.Ready (stmt t) (Judged.stmt t)

instance : CoeOut FindingChecker SteadyChecker := ⟨FindingChecker.toSteadyChecker⟩

namespace Check

section

variable (c : FindingChecker) [Enduring P]

/-! ### Calls -/

theorem finds_inferArguments (args : List Expr) : Finds P (inferArguments c args) (Judged.exprs args) := by
  rw [Judged.exprs_eq_flatMap]
  exact .forM fun a _ => (c.finds_expr a none).stop fun _ _ _ _ => by mvcgen

theorem finds_spreadArgument (loc : Loc) (value : Expr) :
    Finds P (spreadArgument c ⟨loc, .spread value⟩ value) (Judged.expr ⟨loc, .spread value⟩) := by
  have hvalue : Finds P (spreadArgument c ⟨loc, .spread value⟩ value)
      (Judged.expr value ++ [⟨loc, .spread value⟩]) :=
    (c.finds_expr value none).both fun t => .skip (fun _ _ _ => traced_spreadElement t loc.span) fun elem =>
      (finds_noteType ⟨loc, .spread value⟩ elem).stop fun _ _ _ _ => by mvcgen
  exact hvalue.subset (List.cons_subset.2 ⟨by simp, List.subset_append_left _ _⟩)

/-- The arguments whose types are not known yet. -/
def unknownArguments (args : List (Expr × Option Ty)) : List Expr :=
  args.flatMap fun a => if a.2.isNone then Judged.expr a.1 else []

theorem unknownArguments_plain (args : List Expr) :
    unknownArguments (args.map fun a => (a, none)) = Judged.exprs args := by
  rw [unknownArguments, List.flatMap_map, Judged.exprs_eq_flatMap]
  rfl

theorem finds_argumentValues (f : Func) (args : List (Expr × Option Ty)) (values : List (Ty × Span))
    (isOpen : Bool) : Finds P (argumentValues c f args values isOpen) (unknownArguments args) := by
  induction args generalizing values isOpen with
  | nil => exact finds_nil fun _ _ _ => by mvcgen [argumentValues]
  | cons a rest ih =>
      obtain ⟨⟨loc, form⟩, known⟩ := a
      rw [argumentValues, unknownArguments, List.flatMap_cons]
      dsimp only
      split
      · next value =>
          rcases known with _ | t
          on_goal 1 => refine (finds_spreadArgument c loc value).both fun elem => ?_
          on_goal 2 => refine Finds.skip (fun _ _ _ => by mvcgen) fun elem => ?_
          all_goals
            split
            · exact .skip (fun _ _ _ => traced_expectAssignable _ _ _) fun _ => ih values true
            · exact ih values true
      · refine Finds.both ?_ fun t => ih _ _
        cases known with
        | some t => exact finds_nil fun _ _ _ => by mvcgen [argumentOrNoted]
        | none => exact c.finds_expr _ _

/-- What the first look at an argument gives: the argument is a function, or it has been judged. -/
def Looked (a : Expr) (p : Pending) (st : State) : Prop :=
  p.expr = a ∧ (p.actual.isSome = true → AllTyped (Judged.expr a) st)

instance (a : Expr) (p : Pending) : Enduring (Looked a p) :=
  ⟨fun h hp => ⟨hp.1, fun hactual => Enduring.endures h (hp.2 hactual)⟩⟩

theorem achieves_firstLook (f : Func) (i : Nat) (a : Expr) : Achieves P (firstLook c f i a) (Looked a) := by
  obtain ⟨loc, form⟩ := a
  rw [firstLook]
  dsimp only
  split
  · exact achieves_pure _ fun _ _ => ⟨rfl, fun h => by cases h⟩
  · next value =>
      exact (finds_spreadArgument c loc value).seq fun t => achieves_pure _ fun _ h => ⟨rfl, fun _ => h⟩
  · exact (c.finds_expr _ _).seq fun t => achieves_pure _ fun _ h => ⟨rfl, fun _ => h⟩

omit [Enduring P] in
theorem finds_secondLook (known : Subst) (p : Pending) :
    Finds P (secondLook c known p) (if p.actual.isSome then [] else Judged.expr p.expr) := by
  rw [secondLook]
  cases p.actual with
  | some t => exact finds_nil fun _ _ _ => by mvcgen
  | none => exact (c.finds_expr _ _).stop fun _ _ _ _ => by mvcgen

/-- After both looks all arguments have been judged. -/
theorem allTyped_of_looked {args : List Expr} {i : Nat} {ps : List Pending} {st : State}
    (h : List.Forall₂ (fun a p => Looked a.1 p st) (args.zipIdx i) ps)
    (hps : ∀ p ∈ ps, p.actual.isSome = false → AllTyped (Judged.expr p.expr) st) :
    AllTyped (Judged.exprs args) st := by
  induction args generalizing i ps with
  | nil => exact fun _ he => by cases he
  | cons a args ih =>
      rw [List.zipIdx_cons] at h
      cases h with
      | @cons _ p _ ps ha hargs =>
          rw [Judged.exprs]
          refine allTyped_append.2 ⟨?_, ih hargs fun q hq => hps q (.tail p hq)⟩
          cases hactual : p.actual.isSome with
          | true => exact ha.2 hactual
          | false =>
              have hp := hps p (.head ps) hactual
              rwa [ha.1] at hp

theorem finds_inferTypeArguments (f : Func) (site : CallSite) (expected : Option Ty) :
    Finds P (inferTypeArguments c f site expected) (Judged.exprs site.args) := by
  delta inferTypeArguments
  extract_lets n leading result infer rest
  have hinfer : ∀ ps, Steady (infer ps) := by
    intro ps o _ _
    unfold infer
    mvcgen
  have hrest : ∀ ps, Steady (rest ps) := by
    intro ps o _ _
    have hps := hinfer ps o
    unfold rest
    mvcgen [hps]
  clear_value infer rest
  have hfirst : Achieves (fun st => P st ∧ P st) (site.args.zipIdx.mapM fun a => firstLook c f (n + a.2) a.1)
      fun ps st => P st ∧ List.Forall₂ (fun (a : Expr × Nat) p => Looked a.1 p st) site.args.zipIdx ps :=
    (Achieves.mapM fun a _ => achieves_firstLook c f (n + a.2) a.1).keep
  refine (hfirst.mono (fun _ hst => ⟨hst, hst⟩) fun _ _ => id).seq fun first => ?_
  have : Enduring fun st => List.Forall₂ (fun (a : Expr × Nat) p => Looked a.1 p st) site.args.zipIdx first :=
    ⟨fun h hlooked => hlooked.imp fun (a : Expr × Nat) p => Enduring.endures (P := Looked a.1 p) h⟩
  split
  · -- the functions among the arguments are looked at once more
    refine (achieves_of_steady (hinfer first)).seq fun known => ?_
    refine Achieves.seq (Q := fun _ => AllTyped (Judged.exprs site.args)) ?_ fun all => achieves_of_steady (hrest all)
    have hsecond := (Finds.mapM (l := first) fun p _ => finds_secondLook c (P := P) known.1 p).keep
      (S := fun st => List.Forall₂ (fun (a : Expr × Nat) p => Looked a.1 p st) site.args.zipIdx first)
    refine hsecond.mono (fun _ => And.symm) fun _ st hst => allTyped_of_looked hst.1 fun p hp hactual => ?_
    exact fun e he => hst.2 e (List.mem_flatMap.2 ⟨p, hp, by rwa [hactual]⟩)
  · next hall =>
      refine (achieves_pure (Q := fun _ => AllTyped (Judged.exprs site.args)) first fun st hst => ?_).seq
        fun all => achieves_of_steady (hrest all)
      refine allTyped_of_looked hst.2 fun p hp hactual => ?_
      simp only [List.any_eq_true, not_exists, not_and, Option.isNone_iff_eq_none] at hall
      have := hall p hp
      cases hp' : p.actual <;> simp_all

theorem finds_checkArguments (f : Func) (site : CallSite) (args : List (Expr × Option Ty)) :
    Finds P (checkArguments c f site args) (unknownArguments args) :=
  (finds_argumentValues c f args _ false).stop fun _ _ _ _ => by mvcgen [checkArity]

theorem finds_applyCall (f : Func) (site : CallSite) (expected : Option Ty) :
    Finds P (applyCall c f site expected) (Judged.exprs site.args) := by
  have hplain : ∀ g, Finds P (checkArguments c g site (site.args.map fun a => (a, none)))
      (Judged.exprs site.args) := fun g =>
    unknownArguments_plain site.args ▸ finds_checkArguments c g site _
  unfold applyCall
  dsimp only
  split
  · refine .skip (fun _ _ _ => traced_buildTypes _ _) fun args => .skip (fun _ _ _ => by mvcgen) fun r => ?_
    split
    · exact .skip (fun _ _ _ => traced_report _ _ _) fun _ =>
        (finds_inferArguments c site.args).stop fun _ _ _ _ => by mvcgen
    · refine .skip (fun _ _ _ => traced_resolver) fun r => .skip (fun _ _ _ => by mvcgen) fun verdict => ?_
      split
      · exact .skip (fun _ _ _ => traced_report _ _ _) fun _ => (hplain _).stop fun _ _ _ _ => by mvcgen
      · exact (hplain _).stop fun _ _ _ _ => by mvcgen
  · split
    · exact (finds_inferTypeArguments c f site expected).stop fun _ _ _ _ => by mvcgen
    · split
      · exact .skip (fun _ _ _ => traced_report _ _ _) fun _ => (hplain f).stop fun _ _ _ _ => by mvcgen
      · exact (hplain f).stop fun _ _ _ _ => by mvcgen

theorem finds_inferSuperCall (e callee : Expr) (args : List Expr) (h : isSuper callee = true) :
    Finds P (inferSuperCall c e callee args) (Judged.expr callee ++ Judged.exprs args) := by
  have hcallee : Judged.expr callee = [callee] := by
    obtain ⟨loc, form⟩ := callee
    cases form <;> first | rfl | cases h
  rw [hcallee]
  refine .skip (fun _ _ _ => by mvcgen) fun st => .skip (fun _ _ _ => traced_parentClass?) fun parent => ?_
  split
  · refine (finds_noteType callee _).both fun _ => .skip (fun _ _ _ => traced_noteReceiver _ _) fun _ =>
      .skip (fun _ _ _ => by mvcgen [constructorAt]) fun ctor => ?_
    exact (finds_applyCall c ctor { span := e.span, args } none).stop fun _ _ _ _ => by mvcgen
  · exact finds_reported _ _ _ fun _ _ _ _ => by mvcgen

theorem finds_inferCall (e callee : Expr) (targs : List TypeExpr) (args : List Expr) (optional : Bool)
    (expected : Option Ty) :
    Finds P (inferCall c e callee targs args optional expected) (Judged.expr callee ++ Judged.exprs args) := by
  unfold inferCall
  split
  · next hsuper => exact finds_inferSuperCall c e callee args hsuper
  · refine (c.finds_expr callee none).both fun t => ?_
    split
    · exact (finds_inferArguments c args).stop fun _ _ _ _ => by mvcgen
    · refine .skip (fun _ _ _ => by mvcgen) fun setting => achieves_reportIf fun _ =>
        Finds.skip (fun _ _ _ => traced_callable _ _) fun signature => ?_
      split
      · exact (finds_inferArguments c args).stop fun _ _ _ _ => by mvcgen
      · exact (finds_applyCall c _ { span := e.span, targs, args } expected).stop fun _ _ _ _ => by mvcgen

theorem finds_inferMethodCall (e receiver : Expr) (method : String) (targs : List TypeExpr)
    (args : List Expr) (expected : Option Ty) :
    Finds P (inferMethodCall c e receiver method targs args expected)
      (Judged.expr receiver ++ Judged.exprs args) := by
  unfold inferMethodCall
  refine (c.finds_expr receiver none).both fun t => ?_
  dsimp only
  split
  on_goal 1 => refine Finds.skip (fun _ _ _ => by mvcgen) fun signature => ?_
  on_goal 2 => refine Finds.skip (fun _ _ _ => traced_methodSignature _ _ _ _) fun signature => ?_
  all_goals
    split
    · exact (finds_inferArguments c args).stop fun _ _ _ _ => by mvcgen
    · exact (finds_applyCall c _ { span := e.span, targs, args } expected).stop fun _ _ _ _ => by mvcgen

theorem finds_inferNew (e : Expr) (written : String) (targs : List TypeExpr) (args : List Expr)
    (expected : Option Ty) : Finds P (inferNew c e written targs args expected) (Judged.exprs args) := by
  unfold inferNew
  refine .skip (fun _ _ _ => by mvcgen [classNamed]) fun name => .skip (fun _ _ _ => by mvcgen) fun st => ?_
  split
  · exact .skip (fun _ _ _ => traced_report _ _ _) fun _ =>
      (finds_inferArguments c args).stop fun _ _ _ _ => by mvcgen
  · dsimp only
    refine achieves_reportIf fun _ => Finds.skip (fun _ _ _ => by mvcgen) fun st =>
      .skip (fun _ _ _ => traced_currentClass) fun current => ?_
    split
    on_goal 2 => refine .skip (fun _ _ _ => traced_reportAccess _ _) fun _ => ?_
    all_goals
      refine .skip (fun _ _ _ => traced_noteReceiver _ _) fun _ => .skip (fun _ _ _ => by mvcgen) fun st => ?_
      refine achieves_ite (fun _ => ?_) fun _ => ?_
      · exact (finds_applyCall c _ { span := e.span, targs, args } none).stop fun _ _ _ _ => by mvcgen
      · exact (finds_applyCall c _ { span := e.span, targs, args } expected).stop fun _ _ _ _ => by mvcgen

/-! ### Operators and members -/

theorem finds_inferBinary (op : BinOp) (span : Span) (left right : Expr) (expected : Option Ty) :
    Finds P (inferBinary c op span left right expected) (Judged.expr left ++ Judged.expr right) := by
  have hlogical : ∀ isAnd, Finds P (inferLogical c isAnd left right expected)
      (Judged.expr left ++ Judged.expr right) := by
    intro isAnd
    refine (c.finds_expr left expected).both fun l => .skip (fun _ _ _ => traced_context) fun ctx =>
      .skip (fun _ _ _ => traced_branches _ _) fun cs => ?_
    exact (finds_under _ (c.finds_expr (P := Anywhere) right expected) fun _ _ => trivial).stop
      fun _ _ _ _ => by mvcgen
  unfold inferBinary
  split
  · exact hlogical true
  · exact hlogical false
  · refine (c.finds_expr left none).both fun arg => (c.finds_expr right none).stop fun callee _ _ _ => ?_
    mvcgen
  · exact (c.finds_expr left none).both fun l => (c.finds_expr right expected).stop fun r _ _ _ => by mvcgen
  · exact (c.finds_expr left none).both fun l => (c.finds_expr right none).stop fun r _ _ _ => by mvcgen

omit [Enduring P] in
theorem finds_inferUnary (op : UnOp) (operand : Expr) :
    Finds P (inferUnary c op operand) (Judged.expr operand) :=
  (c.finds_expr operand none).stop fun _ _ _ _ => by mvcgen [checkLength]

omit [Enduring P] in
theorem finds_memberAccess (loc : Loc) (object : Expr) (name : String) (optional isWrite : Bool) :
    Finds P (memberAccess c loc object name optional isWrite) (Judged.expr object) :=
  (c.finds_expr object none).stop fun _ _ _ _ => by mvcgen

omit [Enduring P] in
theorem finds_inferMember (e object : Expr) (name : String) (optional : Bool) :
    Finds P (inferMember c e object name optional) (Judged.expr object) :=
  (finds_memberAccess c e.loc object name optional false).stop fun _ _ _ _ => by mvcgen

theorem finds_inferIndex (loc : Loc) (object index : Expr) (optional isWrite : Bool) :
    Finds P (inferIndex c loc object index optional isWrite) (Judged.expr object ++ Judged.expr index) :=
  (c.finds_expr object none).both fun _ => (c.finds_expr index none).stop fun _ _ _ _ => by mvcgen

/-! ### Functions -/

theorem finds_declareParam (t : Ty) (p : ParamDeclOf TypeExpr Expr) :
    Finds P (declareParam c t p) (Judged.exprOption p.default) := by
  unfold declareParam
  refine .skip (fun _ _ _ => by mvcgen) fun setting => ?_
  dsimp only
  split
  on_goal 1 => refine .skip (fun _ _ _ => traced_warn _ _ _) fun _ => ?_
  all_goals
    cases p.default with
    | none => exact finds_nil fun _ _ _ => (by mvcgen with infer_instance)
    | some d => exact (c.finds_expr d (some t)).stop fun _ _ _ _ => (by mvcgen with infer_instance)

/-- Statements inside of a function or block. -/
theorem finds_stmts (ts : List Stmt) : Finds Nested (ts.forM c.stmt) (Judged.stmts ts) := by
  rw [Judged.stmts_eq_flatMap]
  exact .forM fun t _ => (c.finds_stmt t).of_imp fun _ => t.ready_of_nested

theorem finds_checkResult (f : FunctionExpr) (declared : Option Ty) :
    Finds Nested (checkResult c f declared) (Judged.body f) := by
  unfold checkResult Judged.body
  cases f.result with
  | some e =>
      rw [if_pos (Option.isSome_some), List.append_nil]
      exact (c.finds_expr e declared).stop fun _ _ _ _ => (by mvcgen with infer_instance)
  | none =>
      cases f.body with
      | none => exact finds_nil fun _ _ _ => by mvcgen
      | some b =>
          rw [if_neg (by simp), Judged.blockOption, Judged.block_eq]
          exact finds_stmts c b.stmts

omit [Enduring P] in
theorem finds_checkFunctionBody (f : FunctionExpr) (sig : Func) (self : Option Ty) (isConstructor infer : Bool) :
    Finds P (checkFunctionBody c f sig self isConstructor infer) (Judged.function f) := by
  have hparams : Finds Nested (f.params.zipIdx.forM fun p =>
      declareParam c (((sig.params[p.2]?).map (·.type)).getD .unknown) p.1) (Judged.params f.params) := by
    rw [Judged.params_eq_flatMap, ← List.zipIdx_map_fst 0 f.params, List.flatMap_map, List.zipIdx_map_fst]
    exact .forM fun p _ => finds_declareParam c _ p.1
  refine achieves_withParams sig.tparams (S := Anywhere) ?_ (fun _ _ => trivial) (fun _ _ => trivial)
    fun _ _ => id
  refine finds_withFunction _ ?_
  rw [Judged.function_eq]
  rcases self with _ | t
  on_goal 2 => refine Finds.skip (fun _ _ _ => traced_declare _) fun _ => ?_
  all_goals
    exact hparams.both fun _ => (finds_checkResult c f _).stop fun _ _ _ _ => by mvcgen [checkEnd]

theorem finds_inferFunction (f : FunctionExpr) (expected : Option Ty) :
    Finds P (inferFunction c f expected) (Judged.function f) := by
  unfold inferFunction
  refine .skip (fun _ _ _ => by mvcgen [expectedSignature?]) fun want =>
    .skip (fun _ _ _ => traced_buildSignature _ _ _ _) fun sig => ?_
  dsimp only
  split
  · exact (finds_checkFunctionBody c f _ none false false).stop fun _ _ _ _ => by mvcgen
  · exact (finds_checkFunctionBody c f sig none false f.ret.isNone).stop fun _ _ _ _ => by mvcgen

/-! ### Records and arrays -/

theorem finds_setNamed (expected : Option Ty) (b : Building) (span : Span) (name : String) (value : Expr) :
    Finds P (setNamed c expected b span name value) (Judged.expr value) := by
  unfold setNamed
  exact achieves_reportIf fun _ => Finds.skip (fun _ _ _ => traced_expectedField _ _) fun want =>
    (c.finds_expr value want).stop fun _ _ _ _ => by mvcgen

theorem finds_inferObject (fields : List ObjectField) (expected : Option Ty) :
    Finds P (inferObject c fields expected) (Judged.objectFields fields) := by
  rw [Judged.objectFields_eq_flatMap]
  refine Finds.stop (.foldlM fun b f _ => ?_) fun _ _ _ _ => by mvcgen
  obtain ⟨span, kind, name, key, value⟩ := f
  cases kind with
  | named => exact finds_setNamed c expected b span name value
  | spread => exact (c.finds_expr value none).stop fun _ _ _ _ => by mvcgen
  | computed =>
      rcases key with _ | key
      on_goal 1 => refine Finds.skip (fun _ _ _ => by mvcgen) fun k => ?_
      on_goal 2 => refine (c.finds_expr key none).both fun k => ?_
      all_goals
        dsimp only
        split
        · exact finds_setNamed c expected b span _ value
        · exact achieves_reportIf fun _ => (c.finds_expr value none).stop fun _ _ _ _ => by mvcgen

theorem finds_inferTuple (want : List Ty) (es : List Expr) (elems : List Ty) :
    Finds P (inferTuple c want es elems) (Judged.elements es) := by
  induction es generalizing want elems with
  | nil => exact finds_nil fun _ _ _ => by mvcgen [inferTuple]
  | cons e es ih =>
      obtain ⟨loc, form⟩ := e
      rw [inferTuple, Judged.elements, Expr.isSpread]
      dsimp only
      split
      · rw [if_pos rfl, List.append_nil]
        exact (c.finds_expr _ none).stop fun _ _ _ _ => by mvcgen
      · refine (c.finds_expr _ _).both fun t => .skip (fun _ _ _ => traced_contextual _ _) fun t => ?_
        refine (ih _ _).subset ?_
        split
        · exact List.nil_subset _
        · exact List.Subset.refl _

theorem elements_subset (es : List Expr) : Judged.elements es ⊆ es.flatMap Judged.expr := by
  induction es with
  | nil => exact List.nil_subset _
  | cons e es ih =>
      rw [Judged.elements, List.flatMap_cons]
      split
      · exact List.append_subset.2 ⟨List.subset_append_left _ _, List.nil_subset _⟩
      · exact List.append_subset.2 ⟨List.subset_append_left _ _, List.subset_append_of_subset_right _ ih⟩

theorem finds_inferArray (elements : List Expr) (expected : Option Ty) :
    Finds P (inferArray c elements expected) (Judged.elements elements) := by
  refine .skip (fun _ _ _ => by mvcgen [expectedSequence?]) fun want => ?_
  split
  · exact finds_inferTuple c _ elements []
  · refine Finds.stop (.subset (.mapM fun e _ => ?_) (elements_subset elements)) fun _ _ _ _ => by mvcgen
    exact (c.finds_expr e _).stop fun _ _ _ _ => by mvcgen
  · refine Finds.stop (.subset (.mapM fun e _ => ?_) (elements_subset elements)) fun _ _ _ _ => by mvcgen
    exact (c.finds_expr e none).stop fun _ _ _ _ => by mvcgen

/-! ### Matches -/

set_option linter.unusedSectionVars false in
mutual

theorem finds_checkPatternValues : ∀ p, Finds P (checkPatternValues c p) (Judged.pattern p)
  | ⟨_, .literal e⟩ => (c.finds_expr e none).stop fun _ _ _ _ => by mvcgen
  | ⟨_, .object fields _⟩ => finds_checkFieldValues fields
  | ⟨_, .array ps _⟩ => finds_checkElementValues ps
  | ⟨_, .ident _⟩ => finds_nil fun _ _ _ => by mvcgen [checkPatternValues]
  | ⟨_, .typed _ _⟩ => finds_nil fun _ _ _ => by mvcgen [checkPatternValues]
  | ⟨_, .wildcard⟩ => finds_nil fun _ _ _ => by mvcgen [checkPatternValues]
  | ⟨_, .bad⟩ => finds_nil fun _ _ _ => by mvcgen [checkPatternValues]

theorem finds_checkFieldValues : ∀ fs, Finds P (checkFieldValues c fs) (Judged.patternFields fs)
  | [] => finds_nil fun _ _ _ => by mvcgen [checkFieldValues]
  | ⟨_, _, value⟩ :: fs => (finds_checkFieldValue value).both fun _ => finds_checkFieldValues fs

theorem finds_checkFieldValue : ∀ p, Finds P (checkFieldValue c p) (Judged.patternOption p)
  | none => finds_nil fun _ _ _ => by mvcgen [checkFieldValue]
  | some p => finds_checkPatternValues p

theorem finds_checkElementValues : ∀ ps, Finds P (checkElementValues c ps) (Judged.patterns ps)
  | [] => finds_nil fun _ _ _ => by mvcgen [checkElementValues]
  | p :: ps => (finds_checkPatternValues p).both fun _ => finds_checkElementValues ps

end

theorem finds_inferArm (key : Option String) (expected : Option Ty) (left : Ty) (arm : MatchArm) :
    Finds P (inferArm c key expected left arm) (Judged.arm arm) := by
  obtain ⟨span, pattern, guard, body⟩ := arm
  refine .skip (fun _ _ _ => traced_narrowedBy _ _) fun t => .skip (fun _ _ _ => traced_context) fun ctx => ?_
  refine finds_under ctx.child (S := Anywhere) (finds_withBlock ?_) fun _ _ => trivial
  rw [Judged.arm]
  rcases key with _ | key
  on_goal 2 => refine Finds.skip (fun _ _ _ => traced_refine _ _) fun _ => ?_
  all_goals
    refine (finds_checkPatternValues c pattern).both fun _ => .skip (fun _ _ _ => traced_bindPattern _ _ _) fun _ => ?_
    cases guard with
    | none => exact c.finds_expr body expected
    | some g =>
        exact (c.finds_expr g none).both fun _ => .skip (fun _ _ _ => traced_context) fun ctx =>
          .skip (fun _ _ _ => traced_branches _ _) fun cs => .skip (fun _ _ _ => traced_setContext _) fun _ =>
            c.finds_expr body expected

theorem finds_inferArms (key : Option String) (expected : Option Ty) (arms : List MatchArm) (left : Ty) :
    Finds P (inferArms c key expected arms left) (Judged.arms arms) := by
  induction arms generalizing left with
  | nil => exact finds_nil fun _ _ _ => by mvcgen [inferArms]
  | cons arm arms ih =>
      refine (finds_inferArm c key expected left arm).both fun t => ?_
      refine achieves_ite (fun _ => ?_) fun _ => ?_
      · exact Finds.skip (fun _ _ _ => traced_leftOverBy _ _) fun left => (ih left).stop fun _ _ _ _ => by mvcgen
      · exact Finds.skip (fun _ _ _ => by mvcgen) fun left => (ih left).stop fun _ _ _ _ => by mvcgen

theorem finds_inferMatch (span : Span) (subject : Expr) (arms : List MatchArm) (expected : Option Ty) :
    Finds P (inferMatch c span subject arms expected) (Judged.expr subject ++ Judged.arms arms) := by
  refine (c.finds_expr subject none).both fun t => ?_
  refine achieves_ite (fun _ => ?_) fun _ => ?_
  · refine Finds.skip (fun _ _ _ => by mvcgen) fun start => ?_
    exact (finds_inferArms c subject.key? expected arms start).stop fun _ _ _ _ => by mvcgen
  · refine Finds.skip (fun _ _ _ => traced_spreadOut _) fun start => ?_
    exact (finds_inferArms c subject.key? expected arms start).stop fun _ _ _ _ => by mvcgen

/-! ### Expressions -/

theorem finds_infer (e : Expr) (expected : Option Ty) :
    Finds P (infer c e expected) (Judged.exprForm e.form) := by
  obtain ⟨loc, form⟩ := e
  cases form with
  | bad => exact finds_nil fun _ _ _ => by mvcgen [infer]
  | ident name => exact finds_nil fun _ _ _ => traced_inferIdent _ _
  | nil => exact finds_nil fun _ _ _ => by mvcgen [infer]
  | bool b => exact finds_nil fun _ _ _ => by mvcgen [infer]
  | number n isInteger => exact finds_nil fun _ _ _ => by mvcgen [infer]
  | string s => exact finds_nil fun _ _ _ => by mvcgen [infer]
  | template parts => exact (finds_inferArguments c parts).stop fun _ _ _ _ => by mvcgen
  | vararg => exact finds_nil fun _ _ _ => by mvcgen [infer, inferVararg]
  | binary op l r => exact finds_inferBinary c op loc.span l r expected
  | unary op operand => exact finds_inferUnary c op operand
  | call callee targs args optional => exact finds_inferCall c _ callee targs args optional expected
  | methodCall receiver method targs args => exact finds_inferMethodCall c _ receiver method targs args expected
  | member object name optional => exact finds_inferMember c _ object name optional
  | index object index optional => exact finds_inferIndex c loc object index optional false
  | object fields => exact finds_inferObject c fields expected
  | array elements => exact finds_inferArray c elements expected
  | spread value => exact (c.finds_expr value none).stop fun _ _ _ _ => traced_spreadElement _ _
  | function f => exact finds_inferFunction c f expected
  | conditional cond a b =>
      refine (c.finds_expr cond none).both fun _ => .skip (fun _ _ _ => traced_context) fun ctx =>
        .skip (fun _ _ _ => traced_branches _ _) fun cs => ?_
      have hunder := fun (ctx : Context) e =>
        finds_under (P := P) ctx (c.finds_expr (P := Anywhere) e expected) fun _ _ => trivial
      exact (hunder _ a).both fun _ => (hunder _ b).stop fun _ _ _ _ => by mvcgen
  | cases subject arms => exact finds_inferMatch c loc.span subject arms expected
  | paren inner => exact c.finds_expr inner expected
  | self => exact finds_nil fun _ _ _ => traced_inferSelf _
  | super => exact finds_nil fun _ _ _ => traced_inferSuper _
  | assertion inner type => exact (c.finds_expr inner none).stop fun _ _ _ _ => by mvcgen
  | new name targs args => exact finds_inferNew c _ name targs args expected
  | attempt value name fallback =>
      refine (c.finds_expr value expected).both fun t => Finds.stop (finds_withBlock ?_) fun _ _ _ _ => by mvcgen
      cases name with
      | none => exact c.finds_expr fallback expected
      | some n => exact .skip (fun _ _ _ => by mvcgen) fun _ => c.finds_expr fallback expected
  | errorChain l r =>
      exact (c.finds_expr l expected).both fun a => (c.finds_expr r expected).stop fun _ _ _ _ => by mvcgen

theorem finds_inferExpr (e : Expr) (expected : Option Ty) :
    Finds P (inferExpr c e expected) (Judged.expr e) := by
  have hexpr : Finds P (inferExpr c e expected) (Judged.exprForm e.form ++ [e]) :=
    (finds_infer c e expected).both fun t => (finds_noteType e t).stop fun _ _ _ _ => by mvcgen
  obtain ⟨loc, form⟩ := e
  exact hexpr.subset (List.cons_subset.2 ⟨by simp, List.subset_append_left _ _⟩)

/-! ### Variables and functions -/

theorem finds_checkBinding (isConst : Bool) (target : Pattern) (type : Option TypeExpr) (value : Expr) :
    Finds P (checkBinding c isConst target type value) (Judged.expr value) :=
  .skip (fun _ _ _ => traced_buildOption _ type) fun declared =>
    (c.finds_expr value declared).stop fun _ _ _ _ => by mvcgen

theorem achieves_undefinedName (name : String) (span : Span) {Q : Unit → State → Prop} :
    Achieves P (undefinedName name span) Q :=
  (achieves_of_steady fun _ _ _ => by mvcgen).seq fun _ => achieves_report _ _ _

theorem finds_assignIdent (loc : Loc) (name : String) :
    Finds P (assignIdent loc name) [⟨loc, .ident name⟩] := by
  refine .skip (fun _ _ _ => traced_lookup? name) fun sym => ?_
  split
  · exact (achieves_undefinedName name loc.span (Q := fun _ _ => False)).seq fun _ =>
      achieves_pure _ fun _ => False.elim
  · exact (finds_noteType ⟨loc, .ident name⟩ _).stop fun _ _ _ _ => by mvcgen

theorem finds_assignTarget (e : Expr) : Finds P (assignTarget c e) (Judged.target e) := by
  fun_induction assignTarget (c : Checker) e with
  | case1 loc name => exact finds_assignIdent loc name
  | case2 loc object name optional =>
      exact (finds_memberAccess c loc object name optional true).stop fun _ _ _ _ => by mvcgen [isInitializing]
  | case3 loc object index optional =>
      exact (finds_inferIndex c loc object index optional true).stop fun _ _ _ _ => by mvcgen
  | case4 loc inner ih => exact ih
  | case5 e hident hmember hindex hparen =>
      exact .skip (fun _ _ _ => c.traced_expr e none) fun _ => finds_reported _ _ _ fun _ _ _ _ => by mvcgen

theorem finds_checkAssignment (span : Span) (target : Expr) (op : Option BinOp) (value : Expr) :
    Finds P (checkAssignment c span target op value) (Judged.target target ++ Judged.expr value) := by
  refine (finds_assignTarget c target).both fun declared => ?_
  cases op with
  | none => exact (c.finds_expr value declared).stop fun _ _ _ _ => by mvcgen
  | some op => exact (c.finds_expr value none).stop fun _ _ _ _ => by mvcgen

theorem finds_checkReturn (span : Span) (values : List Expr) :
    Finds P (checkReturn c span values) (Judged.exprs values) := by
  refine .skip (fun _ _ _ => by mvcgen) fun st => ?_
  split
  · exact (finds_inferArguments c values).stop fun _ _ _ _ => (by mvcgen with infer_instance)
  · next fn _ =>
      refine achieves_ite (fun _ => finds_reported _ _ _ fun _ _ _ _ => (by mvcgen with infer_instance)) fun _ => ?_
      have hvalues : Finds P (checkReturned c span fn values) (Judged.exprs values) := by
        rw [Judged.exprs_eq_flatMap, ← List.zipIdx_map_fst 0 values, List.flatMap_map, List.zipIdx_map_fst]
        exact Finds.stop (.mapM fun v _ => c.finds_expr v.1 _) fun _ _ _ _ => (by mvcgen with infer_instance)
      exact hvalues.stop fun _ _ _ _ => (by mvcgen with infer_instance)

theorem finds_checkFunctionDecl (span : Span) (name : String) (f : FunctionExpr) :
    Finds P (checkFunctionDecl c span name f) (Judged.function f) := by
  refine .skip (fun _ _ _ => by mvcgen) fun st => achieves_ite (fun _ => ?_) fun _ => ?_
  on_goal 1 => refine Finds.skip (fun _ _ _ => by mvcgen [topLevelSignature]) fun sig => ?_
  on_goal 2 =>
    refine Finds.skip (fun _ _ _ => traced_declaredSignature f) fun sig =>
      .skip (fun _ _ _ => traced_invalidate name) fun _ => .skip (fun _ _ _ => traced_declare _) fun _ =>
        .skip (fun _ _ _ => by mvcgen) fun sig => ?_
  all_goals
    refine (finds_checkFunctionBody c f sig none false f.ret.isNone).stop fun got o _ _ => ?_
    mvcgen
    exact State.Follows.update ‹_› ‹_›

/-! ### Control flow -/

omit [Enduring P] in
theorem finds_checkBlock (b : Block) : Finds P (checkBlock c b) (Judged.block b) := by
  rw [Judged.block_eq]
  exact finds_withBlock (finds_stmts c b.stmts)

theorem finds_checkElseIfs (es : List ElseIf) (no : Context) :
    Finds P (checkElseIfs c es no) (Judged.elseIfs es) := by
  induction es generalizing no with
  | nil => exact finds_nil fun _ _ _ => traced_checkElseIfs c [] no
  | cons e es ih =>
      rw [Judged.elseIfs, show Judged.elseIf e = Judged.expr e.cond ++ Judged.block e.body from by cases e; rfl,
        List.append_assoc]
      refine .skip (fun _ _ _ => traced_setContext no) fun _ => (c.finds_expr e.cond none).both fun _ =>
        .skip (fun _ _ _ => traced_context) fun ctx => .skip (fun _ _ _ => traced_branches _ _) fun cs =>
        .skip (fun _ _ _ => traced_setContext _) fun _ => (finds_checkBlock c e.body).both fun _ =>
        .skip (fun _ _ _ => traced_context) fun out => ?_
      exact (ih _).stop fun _ _ _ _ => by mvcgen

theorem finds_checkBranch (cond : Expr) (body : Block) (elseIfs : List ElseIf) (elseBody : Option Block) :
    Finds P (checkBranch c cond body elseIfs elseBody)
      (Judged.expr cond ++ (Judged.block body ++ (Judged.elseIfs elseIfs ++ Judged.blockOption elseBody))) := by
  refine (c.finds_expr cond none).both fun _ => .skip (fun _ _ _ => traced_context) fun ctx =>
    .skip (fun _ _ _ => traced_branches _ _) fun cs => .skip (fun _ _ _ => traced_setContext _) fun _ =>
    (finds_checkBlock c body).both fun _ => .skip (fun _ _ _ => traced_context) fun out =>
    (finds_checkElseIfs c elseIfs _).both fun outs => .skip (fun _ _ _ => traced_setContext _) fun _ => ?_
  cases elseBody with
  | some b => exact (finds_checkBlock c b).stop fun _ _ _ _ => (by mvcgen with infer_instance)
  | none => exact finds_nil fun _ _ _ => (by mvcgen with infer_instance)

omit [Enduring P] in
theorem finds_checkWhile (cond : Expr) (body : Block) :
    Finds P (checkWhile c cond body) (Judged.expr cond ++ Judged.block body) := by
  refine Finds.stop (finds_withLoop body (S := Anywhere) ?_ fun _ _ => trivial)
    fun _ _ _ _ => (by mvcgen with infer_instance)
  exact (c.finds_expr cond none).both fun _ => .skip (fun _ _ _ => traced_context) fun ctx =>
    .skip (fun _ _ _ => traced_branches _ _) fun cs => .skip (fun _ _ _ => traced_setContext _) fun _ =>
    (finds_checkBlock c body).stop fun _ _ _ _ => by mvcgen

omit [Enduring P] in
theorem finds_checkRepeat (body : Block) (cond : Expr) :
    Finds P (checkRepeat c body cond) (Judged.block body ++ Judged.expr cond) := by
  rw [Judged.block_eq]
  refine Finds.stop (finds_withLoop body (S := Anywhere) (finds_withBlock ?_) fun _ _ => trivial)
    fun _ _ _ _ => (by mvcgen with infer_instance)
  exact (finds_stmts c body.stmts).both fun _ => .skip (fun _ _ _ => traced_context) fun ctx =>
    (c.finds_expr cond none).stop fun _ _ _ _ => (by mvcgen with infer_instance)

theorem finds_checkFor {bindVars : Check Unit} (body : Block) (h : Steady bindVars) :
    Finds P (checkFor c body bindVars) (Judged.block body) :=
  .skip (fun _ _ _ => traced_context) fun entry => Finds.stop
    (finds_withLoop body (S := Anywhere) (finds_withBlock (.skip h fun _ => finds_checkBlock c body))
      fun _ _ => trivial)
    fun _ _ _ _ => (by mvcgen with infer_instance)

omit [Enduring P] in
theorem finds_checkBound (e : Expr) : Finds P (checkBound c e) (Judged.expr e) :=
  (c.finds_expr e (some .number)).stop fun _ _ _ _ => by mvcgen

theorem finds_checkNumericFor (span : Span) (var : String) (start limit : Expr) (step : Option Expr)
    (body : Block) : Finds P (checkNumericFor c span var start limit step body)
      (Judged.expr start ++ (Judged.expr limit ++ (Judged.exprOption step ++ Judged.block body))) := by
  refine (finds_checkBound c start).both fun first => (finds_checkBound c limit).both fun _ => Finds.both ?_
    fun others => finds_checkFor c body fun _ _ _ => traced_bindName _ _ _ _
  have hstep : Judged.exprOption step = step.toList.flatMap Judged.expr := by
    cases step <;> simp [Judged.exprOption]
  rw [hstep]
  exact .mapM fun e _ => finds_checkBound c e

theorem finds_checkGenericFor (span : Span) (vars : List String) (iter : Expr) (body : Block) :
    Finds P (checkGenericFor c span vars iter body) (Judged.expr iter ++ Judged.block body) :=
  (c.finds_expr iter none).both fun t => .skip (fun _ _ _ => traced_iterationTypes _ _ _) fun types =>
    finds_checkFor c body fun _ _ _ => by mvcgen

omit [Enduring P] in
theorem finds_checkHandler (h : CatchClause) : Finds P (checkHandler c h) (Judged.handler h) := by
  rw [show Judged.handler h = Judged.block h.body from by cases h; rfl, Judged.block_eq]
  refine finds_withBlock ?_
  cases h.var with
  | none => exact finds_stmts c h.body.stmts
  | some name =>
      exact .skip (fun _ _ _ => by mvcgen [caughtType]) fun t => .skip (fun _ _ _ => traced_declare _) fun _ =>
        finds_stmts c h.body.stmts

theorem finds_checkAttempt (body : Block) (handlers : List CatchClause) (cleanup : Option Block) :
    Finds P (checkAttempt c body handlers cleanup)
      (Judged.block body ++ (Judged.handlers handlers ++ Judged.blockOption cleanup)) := by
  refine .skip (fun _ _ _ => traced_context) fun entry => .skip (fun _ _ _ => traced_setContext _) fun _ =>
    (finds_checkBlock c body).both fun _ => .skip (fun _ _ _ => traced_context) fun out =>
    .skip (fun _ _ _ => by mvcgen) fun st => Finds.both ?_ fun outs =>
    (achieves_modifyFrame _).seq fun _ => Finds.skip (fun _ _ _ => traced_setContext _) fun _ => ?_
  · rw [Judged.handlers_eq_flatMap]
    exact .mapM fun h _ => .skip (fun _ _ _ => traced_setContext _) fun _ => (achieves_modifyFrame _).seq fun _ =>
      (finds_checkHandler c h).stop fun _ _ _ _ => traced_context
  · cases cleanup with
    | some b => exact finds_checkBlock c b
    | none => exact finds_nil fun _ _ _ => by mvcgen

/-! ### Classes -/

theorem finds_checkDecorator (e : Expr) : Finds P (checkDecorator c e) (Judged.expr e) := by
  fun_induction checkDecorator (c : Checker) e with
  | case1 loc name =>
      exact .skip (fun _ _ _ => traced_lookup? name) fun sym => finds_noteType ⟨loc, .ident name⟩ _
  | case2 loc callee targs args optional ih =>
      have hparts : Finds P (do
          checkDecorator c callee
          inferArguments c args
          noteType loc .unknown)
          (Judged.expr callee ++ (Judged.exprs args ++ [⟨loc, .call callee targs args optional⟩])) :=
        ih.both fun _ => (finds_inferArguments c args).both fun _ =>
          finds_noteType ⟨loc, .call callee targs args optional⟩ .unknown
      rw [Judged.expr, Judged.exprForm]
      rw [← List.append_assoc] at hparts
      exact hparts.subset (List.cons_subset.2 ⟨by simp, List.subset_append_left _ _⟩)
  | case3 loc object name optional ih =>
      have hparts : Finds P (do
          checkDecorator c object
          noteType loc .unknown) (Judged.expr object ++ [⟨loc, .member object name optional⟩]) :=
        ih.both fun _ => finds_noteType ⟨loc, .member object name optional⟩ .unknown
      rw [Judged.expr, Judged.exprForm]
      exact hparts.subset (List.cons_subset.2 ⟨by simp, List.subset_append_left _ _⟩)
  | case4 e _ _ _ => exact (c.finds_expr e none).stop fun _ _ _ _ => by mvcgen

theorem finds_checkDecorators (ds : List Expr) : Finds P (checkDecorators c ds) (Judged.exprs ds) := by
  cases ds with
  | nil => exact finds_nil fun _ _ _ => by mvcgen [checkDecorators]
  | cons d ds =>
      refine Finds.skip (P := P) (fun _ _ _ => by mvcgen) fun setting => achieves_ite (fun _ => ?_) fun _ =>
        achieves_report _ _ _
      rw [Judged.exprs_eq_flatMap]
      exact Finds.forM (P := P) fun e _ => finds_checkDecorator c e

theorem endures_setClass (st : State) (k : ClassShape) : st.Endures { st with env := st.env.setClass k } where
  typed _ := id
  signed _ := id
  registered n hn := by rw [Env.isRegistered_setClass, hn, Bool.or_true]
  held _ _ := rfl
  reports := List.prefix_refl _
  known n hn := Env.isClass_setClass k hn
  scopes := rfl

theorem achieves_modifyClass (name : String) (f : ClassShape → ClassShape) :
    Achieves P (modifyClass name f) fun _ => P := by
  refine achieves_change fun st => ?_
  dsimp only
  cases st.env.class? name with
  | none => exact .refl st
  | some k => exact endures_setClass st (f k)

theorem achieves_recordMember (name : String) (m : AccessMember) :
    Achieves P (recordMember name m) fun _ => P := by
  refine achieves_change fun st => ?_
  split
  · exact ⟨⟨fun _ => id, fun _ => id, fun _ => id, fun _ _ => rfl⟩, List.prefix_refl _, fun _ => id, rfl⟩
  · exact .refl st

theorem finds_checkInitial (className : String) (m : ClassMember) (e : Expr) :
    Finds P (checkInitial c className m e) (Judged.expr e) := by
  refine .skip (fun _ _ _ => traced_sideMember? _ _ _) fun declared => (c.finds_expr e _).seq fun t => ?_
  split
  · exact achieves_of_steady fun _ _ _ => traced_expectAssignable _ _ _
  · split
    · exact achieves_modifyClass _ _
    · exact achieves_pure _ fun _ => id
  · exact achieves_pure _ fun _ => id

theorem finds_checkMethod (className : String) (self : Ty) (m : ClassMember) (f : FunctionExpr) :
    Finds (fun st => st.Signed f.loc.id) (checkMethod c className self m f) (Judged.methodOption (some f)) := by
  unfold checkMethod
  rw [Judged.methodOption]
  split
  · exact finds_nil fun _ _ _ => by mvcgen
  · refine achieves_get fun st₀ => ?_
    split
    · next hnone =>
        refine achieves_of_not (fun _ _ _ => by mvcgen) fun st hst => ?_
        rw [hst.2, Signed, hnone] at hst
        cases hst.1
    · next sig hsig =>
        refine (finds_checkFunctionBody c f sig (some self) _ _).seq fun got => ?_
        split
        · refine (achieves_of_steady fun _ _ _ => traced_sideMember? _ _ _).seq fun member => ?_
          split
          · exact achieves_pure _ fun _ => id
          · exact achieves_modifyClass _ _
        · exact achieves_pure _ fun _ => id

theorem finds_checkClassBodies (d : ClassDecl) :
    Finds d.Resolved (checkClassBodies c d) (Judged.classDecl d) := by
  unfold checkClassBodies
  rw [Judged.classDecl_eq, Judged.classMembers_eq_flatMap]
  refine achieves_get fun st₀ => ?_
  split
  · next hnone =>
      refine achieves_of_not (fun _ _ _ => by mvcgen) fun st hst => ?_
      have hknown := hst.1.known
      rw [hst.2, Env.isClass, Assoc.has, show st₀.env.classes.get? d.name = none from hnone] at hknown
      cases hknown
  · next shape _ =>
      refine achieves_withParams shape.params (S := d.Resolved) ?_ (fun _ => And.left)
        (fun st hst => ⟨hst.1.known, hst.1.signed⟩) fun _ _ => id
      refine (finds_checkDecorators c d.decorators).both fun _ => .forM fun m hm => ?_
      refine achieves_withSide _ (S := d.Resolved) ?_ (fun st hst => ⟨hst.known, hst.signed⟩) fun _ _ _ => id
      rw [Judged.classMember_eq]
      refine (finds_checkDecorators c m.decorators).both fun _ => ?_
      have hmethod : (∀ e, m.kind = .property → m.init = some e → False) →
          (m.kind = .property → m.init = none → False) → m.kind ≠ .property := fun hsome hnone hkind => by
        cases hinit : m.init with
        | none => exact hnone hkind hinit
        | some e => exact hsome e hkind hinit
      dsimp only
      split
      · next e hkind hinit =>
          rw [if_pos hkind, hinit]
          exact finds_checkInitial c d.name m e
      · next hkind hinit =>
          rw [if_pos hkind, hinit]
          exact finds_nil fun _ _ _ => by mvcgen
      · next f hf hsome hnone =>
          rw [if_neg (hmethod hsome hnone), hf]
          exact (finds_checkMethod c d.name _ m f).of_imp fun st hst => hst.signed m hm (hmethod hsome hnone) f hf
      · next hf hsome hnone =>
          rw [if_neg (hmethod hsome hnone), hf]
          exact finds_nil fun _ _ _ => by mvcgen

end

end Check

end TreeCheck
