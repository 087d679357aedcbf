import Mathlib
import TreeCheck.Proofs.Check.Respects

/-!
# Expressions do not see in which order names were defined

One lemma for each rule for annotations, patterns, members, calls and expressions.  Where a rule reads the
state, what it asks of the definitions is answered alike; the rest is put together from the lemmas before.

* `Checker.Impartial` — a checker whose steps are impartial;
* `Check.impartial_inferExpr` — with such a checker expressions are checked alike.
-/

namespace TreeCheck

namespace Check

variable {α β : Type} {g : Gap}

/-! ### Patterns -/

mutual

theorem impartial_bindPattern (isMutable : Bool) : ∀ p t, Impartial (bindPattern isMutable p t)
  | ⟨span, .ident name⟩, t => uniform_bindName name t span _
  | ⟨_, .typed none _⟩, _ => respects_pure _
  | ⟨_, .typed (some _) _⟩, _ => by
      unfold bindPattern
      exact (respects_buildOrUnknown _).bind fun _ => (respects_typedBinding _ _ _).bind fun _ =>
        uniform_bindName _ _ _ _
  | ⟨_, .object fields _⟩, t => by
      have hfields := fun s => impartial_bindFields isMutable (respects_fieldType s t) fields
      unfold bindPattern
      refine (respects_structural _).bind fun s => (respects_expectRecord _ _ _).bind fun _ =>
        (hfields _).bind fun _ => ?_
      split
      · exact respects_pure _
      · exact uniform_bindName _ _ _ _
  | ⟨_, .array elements _⟩, t => by
      have helements := fun elemAt => impartial_bindElements isMutable elemAt 0 elements
      unfold bindPattern
      refine (respects_structural _).bind fun s => (respects_expectSequence _ _ _ _).bind fun _ => ?_
      split
      refine (helements _).bind fun _ => ?_
      split
      · exact respects_pure _
      · exact uniform_bindName _ _ _ _
  | ⟨_, .wildcard⟩, _ => respects_pure _
  | ⟨_, .literal _⟩, _ => respects_pure _
  | ⟨_, .bad⟩, _ => respects_pure _

theorem impartial_bindFields (isMutable : Bool) {typeOf : Span → String → Check Ty}
    (htype : ∀ span key, Impartial (typeOf span key)) : ∀ fs, Impartial (bindFields isMutable typeOf fs)
  | [] => respects_pure _
  | ⟨span, key, value⟩ :: fs => (htype span key).bind fun t =>
      (impartial_bindField isMutable span key value t).bind fun _ => impartial_bindFields isMutable htype fs

theorem impartial_bindField (isMutable : Bool) (span : Span) (key : String) :
    ∀ p t, Impartial (bindField isMutable span key p t)
  | none, t => uniform_bindName key t span _
  | some p, t => impartial_bindPattern isMutable p t

theorem impartial_bindElements (isMutable : Bool) (elemAt : Nat → Ty) :
    ∀ i ps, Impartial (bindElements isMutable elemAt i ps)
  | _, [] => respects_pure _
  | i, p :: ps => (impartial_bindPattern isMutable p (elemAt i)).bind fun _ =>
      impartial_bindElements isMutable elemAt (i + 1) ps

end

end Check

/-- A checker whose steps are impartial. -/
structure Checker.Impartial (c : Checker) : Prop where
  expr : ∀ e expected, Check.Impartial (c.expr e expected)
  stmt : ∀ s, Check.Impartial (c.stmt s)

namespace Check

section

variable {c : Checker} (hc : c.Impartial)

include hc

theorem impartial_memberAccess (loc : Loc) (object : Expr) (name : String)
    (optional isWrite : Bool) : Impartial (memberAccess c loc object name optional isWrite) :=
  (hc.expr _ _).bind fun _ => (respects_receiverBase _ _ _).bind fun _ =>
    (respects_findMember _ _ _ _ _).bind fun _ => respects_pure _

theorem impartial_inferIndex (loc : Loc) (object index : Expr) (optional isWrite : Bool) :
    Impartial (inferIndex c loc object index optional isWrite) :=
  (hc.expr _ _).bind fun _ => (hc.expr _ _).bind fun _ => (respects_receiverBase _ _ _).bind fun _ =>
    (respects_indexEntry _ _ _ _ _).bind fun _ => respects_pure _

/-! ### Calls -/

theorem impartial_inferArguments (args : List Expr) : Impartial (inferArguments c args) :=
  respects_forM fun _ => (hc.expr _ _).bind fun _ => respects_pure _

theorem impartial_argumentOrNoted (e : Expr) (expected known : Option Ty) :
    Impartial (argumentOrNoted c e expected known) := by
  cases known with
  | none => exact hc.expr e expected
  | some t => exact respects_pure t

theorem impartial_spreadArgument (e value : Expr) : Impartial (spreadArgument c e value) :=
  (hc.expr _ _).bind fun _ => (respects_spreadElement _ _).bind fun _ =>
    (respects_noteType _ _).bind fun _ => respects_pure _

theorem impartial_argumentValues (f : Func) (args : List (Expr × Option Ty))
    (values : List (Ty × Span)) (isOpen : Bool) : Impartial (argumentValues c f args values isOpen) := by
  induction args generalizing values isOpen with
  | nil => exact respects_pure _
  | cons a rest ih =>
      obtain ⟨a, known⟩ := a
      unfold argumentValues
      dsimp only
      split
      · split
        · refine (respects_pure _).bind fun elem => ?_
          split
          · exact (respects_expectAssignable _ _ _).bind fun _ => ih _ _
          · exact ih _ _
        · refine (impartial_spreadArgument hc _ _).bind fun elem => ?_
          split
          · exact (respects_expectAssignable _ _ _).bind fun _ => ih _ _
          · exact ih _ _
      · exact (impartial_argumentOrNoted hc _ _ _).bind fun _ => ih _ _

theorem impartial_firstLook (f : Func) (i : Nat) (a : Expr) : Impartial (firstLook c f i a) := by
  unfold firstLook
  dsimp only
  split
  · exact respects_pure _
  · exact (impartial_spreadArgument hc _ _).bind fun _ => respects_pure _
  · exact (hc.expr _ _).bind fun _ => respects_pure _

theorem impartial_secondLook (known : Subst) (p : Pending) : Impartial (secondLook c known p) := by
  unfold secondLook
  split
  · exact respects_pure _
  · exact (hc.expr _ _).bind fun _ => respects_pure _

theorem impartial_inferTypeArguments (f : Func) (site : CallSite) (expected : Option Ty) :
    Impartial (inferTypeArguments c f site expected) := by
  delta inferTypeArguments
  -- the two rounds of inference are one local step
  extract_lets n leading result infer rest
  have hinfer : ∀ ps, Impartial (infer ps) := fun _ => respects_resolver.bind fun _ => respects_query _
  clear_value infer
  have hrest : ∀ all, Impartial (rest all) := by
    refine fun all => (hinfer all).bind fun r => ?_
    dsimp only
    split
    · exact (respects_report _ _ _).bind fun _ => respects_pure _
    · exact respects_pure _
  clear_value rest
  refine Respects.bind (respects_mapM fun _ => impartial_firstLook hc _ _ _) fun first => ?_
  split
  · exact (hinfer first).bind fun _ => Respects.bind (respects_mapM fun _ => impartial_secondLook hc _ _) hrest
  · exact hrest first

theorem impartial_checkArguments (f : Func) (site : CallSite) (args : List (Expr × Option Ty)) :
    Impartial (checkArguments c f site args) := by
  unfold checkArguments
  refine (impartial_argumentValues hc _ _ _ _).bind fun _ => ?_
  split
  refine (respects_checkArity _ _ _ _).bind fun _ => Respects.bind (respects_forM fun a => ?_) fun _ => ?_
  · split
    · exact respects_expectAssignable _ _ _
    · exact respects_pure _
  · split
    · exact respects_pure _
    · exact respects_pure _

theorem impartial_applyCall (f : Func) (site : CallSite) (expected : Option Ty) :
    Impartial (applyCall c f site expected) := by
  unfold applyCall
  extract_lets plain
  clear_value plain
  split
  · refine (respects_buildTypes _).bind fun args => (respects_query _).bind fun r => ?_
    split
    · exact (respects_report _ _ _).bind fun _ => (impartial_inferArguments hc _).bind fun _ => respects_pure _
    · refine respects_resolver.bind fun _ => (respects_query _).bind fun verdict => ?_
      cases verdict with
      | error e =>
          exact (respects_report _ _ _).bind fun _ => (impartial_checkArguments hc _ _ _).bind fun _ => respects_pure _
      | ok _ => exact (impartial_checkArguments hc _ _ _).bind fun _ => respects_pure _
  · split
    · exact (impartial_inferTypeArguments hc _ _ _).bind fun _ =>
        (impartial_checkArguments hc _ _ _).bind fun _ => respects_pure _
    · split
      · exact (respects_report _ _ _).bind fun _ => (impartial_checkArguments hc _ _ _).bind fun _ => respects_pure _
      · exact (impartial_checkArguments hc _ _ _).bind fun _ => respects_pure _

theorem impartial_inferSuperCall (e callee : Expr) (args : List Expr) :
    Impartial (inferSuperCall c e callee args) := by
  refine respects_of_get (fun _ _ h => by simp only [h.frame]) fun _ => respects_parentClass?.bind fun parent => ?_
  split
  · exact (respects_noteType _ _).bind fun _ => (respects_noteReceiver _ _).bind fun _ =>
      (respects_constructorAt _ _).bind fun _ => (impartial_applyCall hc _ _ _).bind fun _ => respects_pure _
  · exact (respects_report _ _ _).bind fun _ => (impartial_inferArguments hc _).bind fun _ => respects_pure _

theorem impartial_inferCall (e callee : Expr) (targs : List TypeExpr) (args : List Expr)
    (optional : Bool) (expected : Option Ty) :
    Impartial (inferCall c e callee targs args optional expected) := by
  unfold inferCall
  dsimp only
  split
  · exact impartial_inferSuperCall hc _ _ _
  · refine (hc.expr callee none).bind fun t => ?_
    split
    · exact (impartial_inferArguments hc _).bind fun _ => respects_pure _
    · refine respects_read.bind fun _ => ?_
      split
      · refine (respects_report _ _ _).bind fun _ => (respects_callable _ _).bind fun f => ?_
        split
        · exact (impartial_inferArguments hc _).bind fun _ => respects_pure _
        · exact (impartial_applyCall hc _ _ _).bind fun _ => (respects_noteArguments _ _).bind fun _ =>
            respects_pure _
      · refine (respects_callable _ _).bind fun f => ?_
        split
        · exact (impartial_inferArguments hc _).bind fun _ => respects_pure _
        · exact (impartial_applyCall hc _ _ _).bind fun _ => (respects_noteArguments _ _).bind fun _ =>
            respects_pure _

theorem impartial_inferMethodCall (e receiver : Expr) (method : String) (targs : List TypeExpr)
    (args : List Expr) (expected : Option Ty) :
    Impartial (inferMethodCall c e receiver method targs args expected) := by
  unfold inferMethodCall
  refine (hc.expr _ _).bind fun t => ?_
  extract_lets rest
  have hrest : ∀ r, Impartial (rest r) := by
    intro r
    unfold rest
    split
    · exact (impartial_inferArguments hc _).bind fun _ => respects_pure _
    · refine (impartial_applyCall hc _ _ _).bind fun _ => ?_
      split
      exact (respects_noteArguments _ _).bind fun _ => respects_pure _
  clear_value rest
  split
  · exact hrest _
  · exact (respects_methodSignature _ _ _ _).bind hrest

omit hc in
theorem impartial_classNamed (name : String) : Impartial (classNamed name) := by
  unfold classNamed
  refine (uniform_lookup? _).bind fun _ => ?_
  split
  · exact respects_pure _
  · exact respects_pure _

theorem impartial_inferNew (e : Expr) (written : String) (targs : List TypeExpr)
    (args : List Expr) (expected : Option Ty) : Impartial (inferNew c e written targs args expected) := by
  refine (impartial_classNamed _).bind fun name => ?_
  refine respects_of_get (fun _ _ h => by simp only [h.env.class?]) fun _ => ?_
  split
  · exact (respects_report _ _ _).bind fun _ => (impartial_inferArguments hc _).bind fun _ => respects_pure _
  · extract_lets site self call access
    have hcall : ∀ r, Impartial (call r) := by
      refine fun r => (respects_noteReceiver _ _).bind fun _ => ?_
      refine respects_of_get (fun _ _ h => by simp only [h.env.constructor]) fun _ => ?_
      dsimp only
      split
      · exact (impartial_applyCall hc _ _ _).bind fun _ => respects_pure _
      · exact (impartial_applyCall hc _ _ _).bind fun _ => (respects_noteArguments _ _).bind fun _ =>
          respects_pure _
    clear_value call
    have haccess : ∀ r, Impartial (access r) := by
      refine fun r => respects_of_get (fun _ _ h => by simp only [h.classes]) fun _ => ?_
      refine respects_currentClass.bind fun _ => ?_
      split
      · exact hcall _
      · exact (respects_reportAccess _ _).bind hcall
    clear_value access
    exact (respects_report _ _ _).bind_if haccess

/-! ### Operators, functions and literals -/

theorem impartial_inferLogical (isAnd : Bool) (left right : Expr) (expected : Option Ty) :
    Impartial (inferLogical c isAnd left right expected) := by
  unfold inferLogical
  refine (hc.expr _ _).bind fun l => uniform_context.bind fun _ => (respects_branches _ _).bind fun _ => ?_
  split
  exact (uniform_under _ (hc.expr _ _)).bind fun _ => respects_pure _

theorem impartial_inferPipe (span : Span) (left right : Expr) (expected : Option Ty) :
    Impartial (inferPipe c span left right expected) := by
  unfold inferPipe
  refine (hc.expr _ _).bind fun arg => (hc.expr _ _).bind fun callee => ?_
  split
  · exact respects_pure _
  · refine (respects_structural _).bind fun _ => ?_
    split
    · exact (impartial_applyCall hc _ _ _).bind fun _ => respects_pure _
    · exact (respects_report _ _ _).bind fun _ => respects_pure _

theorem impartial_inferBinary (op : BinOp) (span : Span) (left right : Expr)
    (expected : Option Ty) : Impartial (inferBinary c op span left right expected) := by
  unfold inferBinary
  split
  · exact impartial_inferLogical hc _ _ _ _
  · exact impartial_inferLogical hc _ _ _ _
  · exact impartial_inferPipe hc _ _ _ _
  · exact (hc.expr _ _).bind fun _ => (hc.expr _ _).bind fun _ => respects_pure _
  · exact (hc.expr _ _).bind fun _ => (hc.expr _ _).bind fun _ => respects_strictBinary _ _ _ _ _ _

theorem impartial_inferUnary (op : UnOp) (operand : Expr) : Impartial (inferUnary c op operand) := by
  unfold inferUnary
  refine (hc.expr _ _).bind fun t => ?_
  split
  · exact respects_pure _
  · split
    · exact respects_pure _
    · exact (respects_expectNumeric _ _ _).bind fun _ => respects_pure _
  · exact (respects_checkLength _ _).bind fun _ => respects_pure _
  · exact (respects_expectNumeric _ _ _).bind fun _ => respects_pure _
  · exact respects_pure _

theorem impartial_declareParam (t : Ty) (p : ParamDeclOf TypeExpr Expr) :
    Impartial (declareParam c t p) := by
  unfold declareParam
  refine respects_read.bind fun _ => (respects_warn _ _ _).bind_if fun _ => ?_
  extract_lets own rest
  have hrest : ∀ r, Impartial (rest r) := by
    intro r
    unfold rest
    split
    · exact respects_modifyFunction _
    · exact uniform_declare _
  clear_value rest
  split
  · exact (hc.expr _ _).bind fun _ => (respects_expectAssignable _ _ _).bind hrest
  · exact hrest _

theorem impartial_checkResult (f : FunctionExpr) (declared : Option Ty) :
    Impartial (checkResult c f declared) := by
  unfold checkResult
  split
  · refine (hc.expr _ _).bind fun t => ?_
    extract_lets rest
    have hrest : ∀ r, Impartial (rest r) := fun _ => uniform_modifyContext _
    clear_value rest
    split
    · exact (respects_expectAssignable _ _ _).bind hrest
    · exact (respects_modifyFunction _).bind hrest
  · exact respects_forM fun _ => hc.stmt _
  · exact respects_pure _

theorem impartial_checkFunctionBody (f : FunctionExpr) (sig : Func) (self : Option Ty)
    (isConstructor infer : Bool) : Impartial (checkFunctionBody c f sig self isConstructor infer) := by
  unfold checkFunctionBody
  refine respects_withParams _ (uniform_withFunction _ ?_)
  extract_lets rest
  have hrest : ∀ r, Impartial (rest r) := by
    refine fun r => Respects.bind (respects_forM fun p => impartial_declareParam hc _ _) fun _ =>
      (impartial_checkResult hc _ _).bind fun _ => uniform_context.bind fun _ => ?_
    split
    · exact (respects_checkEnd _ _ _ _).bind fun _ => respects_pure _
    · exact respects_of_get (fun _ _ h => by simp only [h.frame]) fun _ => respects_pure _
  clear_value rest
  split
  · exact (uniform_declare _).bind hrest
  · exact hrest ()

theorem impartial_inferFunction (f : FunctionExpr) (expected : Option Ty) :
    Impartial (inferFunction c f expected) := by
  unfold inferFunction
  refine (respects_expectedSignature? _).bind fun want => (respects_buildSignature _ _ _ _).bind fun sig => ?_
  dsimp only
  split
  · exact (impartial_checkFunctionBody hc _ _ _ _ _).bind fun _ => respects_pure _
  · exact (impartial_checkFunctionBody hc _ _ _ _ _).bind fun _ => respects_pure _

theorem impartial_setNamed (expected : Option Ty) (b : Building) (span : Span) (name : String)
    (value : Expr) : Impartial (setNamed c expected b span name value) :=
  (respects_report _ _ _).bind_if fun _ => (respects_expectedField _ _).bind fun _ =>
    (hc.expr _ _).bind fun _ => (respects_contextual _ _).bind fun _ => respects_pure _

theorem impartial_setComputed (expected : Option Ty) (b : Building) (f : ObjectField) :
    Impartial (setComputed c expected b f) := by
  unfold setComputed
  extract_lets rest
  have hrest : ∀ r, Impartial (rest r) := by
    intro r
    unfold rest
    split
    · exact impartial_setNamed hc _ _ _ _ _
    · exact (respects_report _ _ _).bind_if fun _ => (hc.expr _ _).bind fun _ => respects_pure _
  clear_value rest
  split
  · exact (hc.expr _ _).bind hrest
  · exact hrest _

theorem impartial_setSpread (b : Building) (f : ObjectField) : Impartial (setSpread c b f) := by
  unfold setSpread
  refine (hc.expr _ _).bind fun t => (respects_structural _).bind fun _ => ?_
  split
  · dsimp only
    split
    · exact respects_pure _
    · exact respects_pure _
  · exact (respects_report _ _ _).bind_if fun _ => respects_pure _

theorem impartial_inferObject (fields : List ObjectField) (expected : Option Ty) :
    Impartial (inferObject c fields expected) := by
  unfold inferObject
  refine Respects.bind (respects_foldlM fun b a => ?_) fun b => ?_
  · split
    · exact impartial_setNamed hc _ _ _ _ _
    · exact impartial_setComputed hc _ _ _
    · exact impartial_setSpread hc _ _
  · split
    · exact respects_pure _
    · exact respects_pure _

theorem impartial_inferTuple (want : List Ty) (es : List Expr) (elems : List Ty) :
    Impartial (inferTuple c want es elems) := by
  induction es generalizing want elems with
  | nil => exact respects_pure _
  | cons e es ih =>
      unfold inferTuple
      split
      · exact (hc.expr _ _).bind fun _ => respects_pure _
      · exact (hc.expr _ _).bind fun _ => (respects_contextual _ _).bind fun _ => ih _ _

theorem impartial_inferArray (elements : List Expr) (expected : Option Ty) :
    Impartial (inferArray c elements expected) := by
  unfold inferArray
  refine (respects_expectedSequence? _).bind fun _ => ?_
  split
  · exact impartial_inferTuple hc _ _ _
  · exact (respects_mapM fun _ => (hc.expr _ _).bind fun _ => respects_contextual _ _).bind fun _ => respects_pure _
  · exact (respects_mapM fun _ => (hc.expr _ _).bind fun _ => respects_pure _).bind fun _ => respects_pure _

omit hc in
mutual

theorem impartial_checkPatternValues (hc : c.Impartial) : ∀ p, Impartial (checkPatternValues c p)
  | ⟨_, .literal e⟩ => (hc.expr e none).bind fun _ => respects_pure _
  | ⟨_, .object fields _⟩ => impartial_checkFieldValues hc fields
  | ⟨_, .array ps _⟩ => impartial_checkElementValues hc ps
  | ⟨_, .ident _⟩ => respects_pure _
  | ⟨_, .typed _ _⟩ => respects_pure _
  | ⟨_, .wildcard⟩ => respects_pure _
  | ⟨_, .bad⟩ => respects_pure _

theorem impartial_checkFieldValues (hc : c.Impartial) : ∀ fs, Impartial (checkFieldValues c fs)
  | [] => respects_pure _
  | ⟨_, _, value⟩ :: fs => (impartial_checkFieldValue hc value).bind fun _ => impartial_checkFieldValues hc fs

theorem impartial_checkFieldValue (hc : c.Impartial) : ∀ p, Impartial (checkFieldValue c p)
  | none => respects_pure _
  | some p => impartial_checkPatternValues hc p

theorem impartial_checkElementValues (hc : c.Impartial) : ∀ ps, Impartial (checkElementValues c ps)
  | [] => respects_pure _
  | p :: ps => (impartial_checkPatternValues hc p).bind fun _ => impartial_checkElementValues hc ps

end

theorem impartial_inferArm (key : Option String) (expected : Option Ty) (left : Ty)
    (arm : MatchArm) : Impartial (inferArm c key expected left arm) := by
  refine (respects_narrowedBy _ _).bind fun t => uniform_context.bind fun c₀ =>
    uniform_under _ (uniform_withBlock ?_)
  -- what is done behind the subject, and behind the condition of the arm
  extract_lets body rest
  have hrest : ∀ r, Impartial (rest r) := by
    refine fun r => (impartial_checkPatternValues hc _).bind fun _ => (impartial_bindPattern _ _ _).bind fun _ => ?_
    split
    · exact (hc.expr _ _).bind fun _ => uniform_context.bind fun _ => (respects_branches _ _).bind fun _ =>
        (uniform_setContext _).bind fun _ => hc.expr _ _
    · exact hc.expr _ _
  clear_value rest
  split
  · exact (uniform_modifyContext _).bind hrest
  · exact hrest ()

theorem impartial_inferArms (key : Option String) (expected : Option Ty) (arms : List MatchArm)
    (left : Ty) : Impartial (inferArms c key expected arms left) := by
  induction arms generalizing left with
  | nil => exact respects_pure _
  | cons arm arms ih =>
      unfold inferArms
      refine (impartial_inferArm hc _ _ _ _).bind fun t => ?_
      extract_lets rest
      have hrest : ∀ r, Impartial (rest r) := by
        refine fun r => (ih _).bind fun _ => ?_
        split
        exact respects_pure _
      clear_value rest
      split
      · exact (respects_leftOverBy _ _).bind hrest
      · exact hrest _

theorem impartial_inferMatch (span : Span) (subject : Expr) (arms : List MatchArm)
    (expected : Option Ty) : Impartial (inferMatch c span subject arms expected) := by
  unfold inferMatch
  refine (hc.expr _ _).bind fun t => ?_
  extract_lets rest
  have hrest : ∀ r, Impartial (rest r) := by
    refine fun r => (impartial_inferArms hc _ _ _ _).bind fun _ => ?_
    split
    extract_lets result words
    have hresult : ∀ r, Impartial (result r) := fun _ => respects_pure _
    clear_value result
    split
    · refine respects_read.bind fun _ => ?_
      split
      · exact (respects_report _ _ _).bind hresult
      · exact (respects_warn _ _ _).bind hresult
      · exact hresult ()
    · exact hresult ()
  clear_value rest
  split
  · exact hrest _
  · exact (respects_spreadOut _).bind hrest

/-! ### Expressions -/

omit hc in
theorem impartial_inferIdent (e : Expr) (name : String) : Impartial (inferIdent e name) := by
  unfold inferIdent
  refine (uniform_lookup? _).bind fun _ => ?_
  split
  · exact (uniform_undefinedName _ _).bind fun _ => respects_pure _
  · dsimp only
    split
    · exact respects_pure _
    · exact uniform_refined _ _

omit hc in
theorem impartial_inferSelf (e : Expr) : Impartial (inferSelf e) := by
  refine (uniform_lookup? selfName).bind fun sym => ?_
  split
  · exact (respects_report _ _ _).bind fun _ => respects_pure _
  · refine respects_of_get (fun _ _ h => by simp only [h.frame]) fun _ => ?_
    extract_lets rest
    have hrest : ∀ r, Impartial (rest r) := fun _ => uniform_refined _ _
    clear_value rest
    split
    · exact (respects_noteReceiver _ _).bind hrest
    · exact hrest _

theorem impartial_inferAssertion (span : Span) (inner : Expr) (type : Option TypeExpr) :
    Impartial (inferAssertion c span inner type) := by
  unfold inferAssertion
  refine (hc.expr _ _).bind fun source => (respects_buildOrUnknown _).bind fun target =>
    (respects_assignable _ _).bind fun _ => ?_
  extract_lets result verdict
  have hresult : ∀ r, Impartial (result r) := fun _ => respects_pure _
  clear_value result
  have hverdict : ∀ overlap, Impartial (verdict overlap) := fun _ => (respects_report _ _ _).bind_if hresult
  clear_value verdict
  split
  · exact hverdict _
  · exact (respects_assignable _ _).bind hverdict

theorem impartial_inferMember (e object : Expr) (name : String) (optional : Bool) :
    Impartial (inferMember c e object name optional) := by
  unfold inferMember
  refine (impartial_memberAccess hc _ _ _ _ _).bind fun _ => ?_
  split
  split
  · exact respects_pure _
  · exact (uniform_refined _ _).bind fun _ => respects_pure _

theorem impartial_inferConditional (cond thenValue elseValue : Expr) (expected : Option Ty) :
    Impartial (inferConditional c cond thenValue elseValue expected) := by
  unfold inferConditional
  refine (hc.expr _ _).bind fun _ => uniform_context.bind fun _ => (respects_branches _ _).bind fun _ => ?_
  split
  exact (uniform_under _ (hc.expr _ _)).bind fun _ => (uniform_under _ (hc.expr _ _)).bind fun _ => respects_pure _

theorem impartial_inferAttempt (span : Span) (value : Expr) (errorName : Option String)
    (fallback : Expr) (expected : Option Ty) : Impartial (inferAttempt c span value errorName fallback expected) := by
  refine (hc.expr _ _).bind fun t => (uniform_withBlock ?_).bind fun u => respects_pure _
  split
  · exact (uniform_declare _).bind fun _ => hc.expr _ _
  · exact hc.expr _ _

theorem impartial_infer (e : Expr) (expected : Option Ty) : Impartial (infer c e expected) := by
  unfold infer
  split
  · exact respects_pure _
  · exact impartial_inferIdent _ _
  · exact respects_pure _
  · exact respects_pure _
  · exact respects_pure _
  · exact respects_pure _
  · exact (impartial_inferArguments hc _).bind fun _ => respects_pure _
  · exact respects_inferVararg _
  · exact impartial_inferBinary hc _ _ _ _ _
  · exact impartial_inferUnary hc _ _
  · exact impartial_inferCall hc _ _ _ _ _ _
  · exact impartial_inferMethodCall hc _ _ _ _ _ _
  · exact impartial_inferMember hc _ _ _ _
  · exact impartial_inferIndex hc _ _ _ _ _
  · exact impartial_inferObject hc _ _
  · exact impartial_inferArray hc _ _
  · exact (hc.expr _ _).bind fun _ => respects_spreadElement _ _
  · exact impartial_inferFunction hc _ _
  · exact impartial_inferConditional hc _ _ _ _
  · exact impartial_inferMatch hc _ _ _ _
  · exact hc.expr _ _
  · exact impartial_inferSelf _
  · exact respects_inferSuper _
  · exact impartial_inferAssertion hc _ _ _
  · exact impartial_inferNew hc _ _ _ _ _
  · exact impartial_inferAttempt hc _ _ _ _ _
  · exact (hc.expr _ _).bind fun _ => (hc.expr _ _).bind fun _ => respects_pure _

theorem impartial_inferExpr (e : Expr) (expected : Option Ty) : Impartial (inferExpr c e expected) :=
  (impartial_infer hc _ _).bind fun _ => (respects_noteType _ _).bind fun _ => respects_pure _

end

end Check

end TreeCheck
