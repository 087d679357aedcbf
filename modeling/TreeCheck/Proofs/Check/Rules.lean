import Mathlib
import TreeCheck.Proofs.Check.Ownership

/-!
# What the rules do to the state

The lemmas of `Check.Traced` for the rules, family by family: annotations, patterns, members, calls,
expressions, declarations, classes, statements, imports and exports.  A rule about values is traced from
every origin; one about statements asks for an origin where loops and functions may be left.

* `SteadyChecker` — what the rules ask of the checker for smaller trees;
* `Check.exists_steady` — the checker for each depth is steady;
* `Check.traced_checkModule` — the check of a module is traced.
-/

open Std.Do

set_option mvcgen.warning false

namespace TreeCheck

variable {α : Type} {o : Origin}

namespace Check

/-! ### Annotations -/

@[spec] theorem traced_checkTypeArguments (params : List TypeParam) (args : List Ty) :
    Traced o (checkTypeArguments params args) := by
  mvcgen [checkTypeArguments]

@[spec] theorem traced_namedType {build : Check (List Ty)} (span : Span) (name : String) (count : Nat)
    (h : Traced o build) : Traced o (namedType span name count build) := by
  mvcgen [namedType, utilityType, appliedType, h]

@[spec] theorem traced_addMember (r : Object) (span : Span) (m : Member) :
    Traced o (addMember r span m) := by
  mvcgen [addMember]

@[spec] theorem traced_checkDefault (span : Span) (p : TypeParam) : Traced o (checkDefault span p) := by
  mvcgen [checkDefault]

-- one case for each form of annotation, along the recursion of `buildType`
mutual

@[spec] theorem traced_buildType (o : Origin) : ∀ t, Traced o (buildType t)
  | ⟨span, form⟩ => by
      have h := traced_buildForm o span form
      mvcgen [buildType, h]

theorem traced_buildForm (o : Origin) (span : Span) : ∀ form, Traced o (buildForm span form)
  | .named _ args => by
      have hargs := traced_buildTypes o args
      mvcgen [buildForm, hargs]
  | .literal _ => by mvcgen [buildForm]
  | .array e => by
      have he := traced_buildType o e
      mvcgen [buildForm, he]
  | .tuple es => by
      have hes := traced_buildTypes o es
      mvcgen [buildForm, hes]
  | .object ms i => by
      have hms := fun r => traced_buildMembers o r ms
      have hi := traced_buildIndex o i
      mvcgen [buildForm, hms, hi]
  | .function tps ps r => by
      have htps := fun o => traced_buildParamDecls o tps
      have hps := fun o => traced_buildTypeFnParams o ps
      have hr := fun o => traced_buildOption o r
      mvcgen [buildForm, htps, hps, hr]
  | .union ts => by
      have hts := traced_buildTypes o ts
      mvcgen [buildForm, hts]
  | .inter ts => by
      have hts := traced_buildTypes o ts
      mvcgen [buildForm, hts]
  | .nullable t => by
      have ht := traced_buildType o t
      mvcgen [buildForm, ht]
  | .predicate _ t => by
      have ht := traced_buildOption o t
      mvcgen [buildForm, ht]
  | .bad => by mvcgen [buildForm]

@[spec] theorem traced_buildTypes (o : Origin) : ∀ ts, Traced o (buildTypes ts)
  | [] => by mvcgen [buildTypes]
  | t :: ts => by
      have ht := traced_buildType o t
      have hts := traced_buildTypes o ts
      mvcgen [buildTypes, ht, hts]

@[spec] theorem traced_buildOption (o : Origin) : ∀ t, Traced o (buildOption t)
  | none => by mvcgen [buildOption]
  | some t => by
      have ht := traced_buildType o t
      mvcgen [buildOption, ht]

@[spec] theorem traced_buildMembers (o : Origin) : ∀ r ms, Traced o (buildMembers r ms)
  | r, [] => by mvcgen [buildMembers]
  | r, ⟨_, _, t, _, _, _⟩ :: ms => by
      have ht := traced_buildOption o t
      have hms := fun r => traced_buildMembers o r ms
      mvcgen [buildMembers, ht, hms]

@[spec] theorem traced_buildIndex (o : Origin) : ∀ i, Traced o (buildIndex i)
  | none => by mvcgen [buildIndex]
  | some ⟨_, k, v⟩ => by
      have hk := traced_buildOption o k
      have hv := traced_buildOption o v
      mvcgen [buildIndex, hk, hv]

@[spec] theorem traced_buildParamDecls (o : Origin) : ∀ ps, Traced o (buildParamDecls ps)
  | [] => by mvcgen [buildParamDecls]
  | ⟨_, _, c, d⟩ :: ps => by
      have hc := traced_buildOption o c
      have hd := traced_buildOption o d
      have hps := traced_buildParamDecls o ps
      mvcgen [buildParamDecls, hc, hd, hps]

@[spec] theorem traced_buildTypeFnParams (o : Origin) : ∀ ps, Traced o (buildTypeFnParams ps)
  | [] => by mvcgen [buildTypeFnParams]
  | p :: ps => by
      have hp := traced_buildOption o p.type
      have hps := traced_buildTypeFnParams o ps
      mvcgen [buildTypeFnParams, hp, hps]

end

@[spec] theorem traced_buildOrUnknown (t : Option TypeExpr) : Traced o (buildOrUnknown t) := by
  mvcgen [buildOrUnknown]

@[spec] theorem traced_buildTypeParams (ps : List TypeParamDecl) : Traced o (buildTypeParams ps) := by
  mvcgen [buildTypeParams]

@[spec] theorem traced_buildSignature (tps : List TypeParamDecl) (ps : List (ParamDeclOf TypeExpr Expr))
    (ret : Option TypeExpr) (expected : Option Func) :
    Traced o (buildSignature tps ps ret expected) := by
  mvcgen [buildSignature, buildParam]

/-! ### Patterns -/

@[spec] theorem traced_fieldType (s whole : Ty) (span : Span) (key : String) :
    Traced o (fieldType s whole span key) := by
  mvcgen [fieldType, unionProperty]

@[spec] theorem traced_typedBinding (span : Span) (target t : Ty) :
    Traced o (typedBinding span target t) := by
  mvcgen [typedBinding]

mutual

@[spec] theorem traced_bindPattern (isMutable : Bool) : ∀ p t, Traced o (bindPattern isMutable p t)
  | ⟨_, .ident _⟩, t => by mvcgen [bindPattern]
  | ⟨_, .typed none _⟩, _ => by mvcgen [bindPattern]
  | ⟨_, .typed (some _) _⟩, t => by mvcgen [bindPattern]
  | ⟨_, .object fields _⟩, t => by
      have hfields := fun s => traced_bindFields isMutable (traced_fieldType s t) fields
      mvcgen [bindPattern, expectRecord, hfields]
  | ⟨_, .array elements _⟩, t => by
      have helements := fun elemAt => traced_bindElements isMutable elemAt 0 elements
      mvcgen [bindPattern, expectSequence, helements]
  | ⟨_, .wildcard⟩, _ => by mvcgen [bindPattern]
  | ⟨_, .literal _⟩, _ => by mvcgen [bindPattern]
  | ⟨_, .bad⟩, _ => by mvcgen [bindPattern]

theorem traced_bindFields (isMutable : Bool) {typeOf : Span → String → Check Ty}
    (htype : ∀ span key, Traced o (typeOf span key)) :
    ∀ fs, Traced o (bindFields isMutable typeOf fs)
  | [] => by mvcgen [bindFields]
  | ⟨span, key, value⟩ :: fs => by
      have hvalue := traced_bindField isMutable span key value
      have hfs := traced_bindFields isMutable htype fs
      mvcgen [bindFields, htype, hvalue, hfs]

theorem traced_bindField (isMutable : Bool) (span : Span) (key : String) :
    ∀ p t, Traced o (bindField isMutable span key p t)
  | none, t => by mvcgen [bindField]
  | some p, t => by
      have hp := traced_bindPattern isMutable p
      mvcgen [bindField, hp]

theorem traced_bindElements (isMutable : Bool) (elemAt : Nat → Ty) :
    ∀ i ps, Traced o (bindElements isMutable elemAt i ps)
  | _, [] => by mvcgen [bindElements]
  | i, p :: ps => by
      have hp := traced_bindPattern isMutable p
      have hps := traced_bindElements isMutable elemAt (i + 1) ps
      mvcgen [bindElements, hp, hps]

end

@[spec] theorem traced_filterTy {keep : Ty → Check Bool} (t : Ty) (h : ∀ u, Traced o (keep u)) :
    Traced o (t.filterM keep) := by
  mvcgen [Ty.filterM, h]

section Matching

variable (r : Resolver)

mutual

theorem traced_narrowPattern : ∀ p t, Traced o (narrowPattern buildOrUnknown r p t : Check Ty)
  | ⟨_, .literal e⟩, t => by mvcgen [narrowPattern]
  | ⟨_, .typed _ _⟩, t => by mvcgen [narrowPattern]
  | ⟨_, .object fields _⟩, t => by
      have hfields := fun b => traced_fieldsMatch fields b
      mvcgen [narrowPattern, hfields]
  | ⟨_, .array _ _⟩, t => by mvcgen [narrowPattern]
  | ⟨_, .wildcard⟩, t => by mvcgen [narrowPattern]
  | ⟨_, .ident _⟩, t => by mvcgen [narrowPattern]
  | ⟨_, .bad⟩, t => by mvcgen [narrowPattern]

theorem traced_narrowField : ∀ p t, Traced o (narrowField buildOrUnknown r p t : Check Ty)
  | none, t => by mvcgen [narrowField]
  | some p, t => by
      have hp := traced_narrowPattern p
      mvcgen [narrowField, hp]

theorem traced_fieldsMatch : ∀ fs b, Traced o (fieldsMatch buildOrUnknown r fs b : Check Bool)
  | [], _ => by mvcgen [fieldsMatch]
  | ⟨_, _, value⟩ :: fs, b => by
      have hvalue := traced_narrowField value
      have hfs := traced_fieldsMatch fs b
      mvcgen [fieldsMatch, hvalue, hfs]

end

mutual

theorem traced_excludePattern : ∀ p t, Traced o (excludePattern buildOrUnknown r p t : Check Ty)
  | ⟨_, .literal e⟩, t => by mvcgen [excludePattern]
  | ⟨_, .typed _ _⟩, t => by mvcgen [excludePattern]
  | ⟨_, .object fields _⟩, t => by
      have hfields := fun b => traced_fieldsCover fields b
      mvcgen [excludePattern, hfields]
  | ⟨_, .array ps _⟩, t => by
      have hps := fun ts => traced_elementsCover ps ts
      mvcgen [excludePattern, hps]
  | ⟨_, .wildcard⟩, t => by mvcgen [excludePattern]
  | ⟨_, .ident _⟩, t => by mvcgen [excludePattern]
  | ⟨_, .bad⟩, t => by mvcgen [excludePattern]

theorem traced_excludeField : ∀ p t, Traced o (excludeField buildOrUnknown r p t : Check Ty)
  | none, t => by mvcgen [excludeField]
  | some p, t => by
      have hp := traced_excludePattern p
      mvcgen [excludeField, hp]

theorem traced_fieldsCover : ∀ fs b, Traced o (fieldsCover buildOrUnknown r fs b : Check Bool)
  | [], _ => by mvcgen [fieldsCover]
  | ⟨_, _, value⟩ :: fs, b => by
      have hvalue := traced_excludeField value
      have hfs := traced_fieldsCover fs b
      mvcgen [fieldsCover, hvalue, hfs]

theorem traced_elementsCover : ∀ ps ts, Traced o (elementsCover buildOrUnknown r ps ts : Check Bool)
  | p :: ps, t :: ts => by
      have hp := traced_excludePattern p
      have hps := traced_elementsCover ps ts
      mvcgen [elementsCover, hp, hps]
  | [], _ => by mvcgen [elementsCover]
  | _ :: _, [] => by mvcgen [elementsCover]

end

end Matching

@[spec] theorem traced_narrowedBy (p : Pattern) (t : Ty) : Traced o (narrowedBy p t) := by
  have h : ∀ r, Traced o (narrowPattern buildOrUnknown r p t) := fun r => traced_narrowPattern r p t
  mvcgen [narrowedBy, h]

@[spec] theorem traced_leftOverBy (p : Pattern) (t : Ty) : Traced o (leftOverBy p t) := by
  have h : ∀ r, Traced o (excludePattern buildOrUnknown r p t) := fun r => traced_excludePattern r p t
  mvcgen [leftOverBy, h]

/-! ### Members -/

@[spec] theorem traced_receiverBase (t : Ty) (optional : Bool) (span : Span) :
    Traced o (receiverBase t optional span) := by
  mvcgen [receiverBase]

@[spec] theorem traced_missingMember (t : Ty) (name : String) (span : Span) :
    Traced o (missingMember t name span) := by
  mvcgen [missingMember]

@[spec] theorem traced_reportAccess (e : AccessError) (span : Span) : Traced o (reportAccess e span) := by
  mvcgen [reportAccess]

@[spec] theorem traced_checkAccess (site : Site) (receiver name : String) (span : Span) :
    Traced o (checkAccess site receiver name span) := by
  mvcgen [checkAccess]

@[spec] theorem traced_sideMember (site : Site) (side : ClassSide) (r : Object) (self : Ty)
    (name : String) (span : Span) : Traced o (sideMember site side r self name span) := by
  mvcgen [sideMember]

@[spec] theorem traced_instanceMember (site : Site) (className : String) (args : List Ty)
    (name : String) (span : Span) : Traced o (instanceMember site className args name span) := by
  mvcgen [instanceMember]

@[spec] theorem traced_structuralMember? (t : Ty) (name : String) :
    Traced o (structuralMember? t name) := by
  mvcgen [structuralMember?]

@[spec] theorem traced_unionMember (name : String) (span : Span) (ts types : List Ty)
    (readonly : Bool) : Traced o (unionMember name span ts types readonly) := by
  induction ts generalizing types readonly with
  | nil => mvcgen [unionMember]
  | cons t ts ih => mvcgen [unionMember, partMember?, ih]

@[spec] theorem traced_memberOfStructure (site : Site) (t s : Ty) (name : String) (isWrite : Bool)
    (span : Span) : Traced o (memberOfStructure site t s name isWrite span) := by
  mvcgen [memberOfStructure]

@[spec] theorem traced_findMember (site : Site) (t : Ty) (name : String) (isWrite : Bool)
    (span : Span) : Traced o (findMember site t name isWrite span) := by
  mvcgen [findMember, staticMember]

@[spec] theorem traced_entryOf (loc : Loc) (base idx : Ty) (idxSpan : Span) (isWrite : Bool) :
    Traced o (entryOf loc base idx idxSpan isWrite) := by
  mvcgen [entryOf, tupleEntry]

@[spec] theorem traced_indexEntry (loc : Loc) (base idx : Ty) (idxSpan : Span) (isWrite : Bool) :
    Traced o (indexEntry loc base idx idxSpan isWrite) := by
  mvcgen [indexEntry]

end Check

/-! ### Rules that check the parts of a tree -/

/-- A checker whose steps are traced: an expression goes on along its path, and a statement may leave
it. -/
structure SteadyChecker extends Checker where
  traced_expr : ∀ {o : Origin} e expected, Check.Traced o (expr e expected)
  traced_stmt : ∀ {o : Origin} [o.Jumps] s, Check.Traced o (stmt s)

instance : CoeOut SteadyChecker Checker := ⟨SteadyChecker.toChecker⟩

attribute [spec] SteadyChecker.traced_expr SteadyChecker.traced_stmt

namespace Check

section

variable (c : SteadyChecker)

@[spec] theorem traced_memberAccess (loc : Loc) (object : Expr) (name : String)
    (optional isWrite : Bool) : Traced o (memberAccess c loc object name optional isWrite) := by
  mvcgen [memberAccess]

@[spec] theorem traced_inferIndex (loc : Loc) (object index : Expr) (optional isWrite : Bool) :
    Traced o (inferIndex c loc object index optional isWrite) := by
  mvcgen [inferIndex]

/-! ### Calls -/

@[spec] theorem traced_spreadElement (t : Ty) (span : Span) : Traced o (spreadElement t span) := by
  mvcgen [spreadElement]

@[spec] theorem traced_inferArguments (args : List Expr) : Traced o (inferArguments c args) := by
  mvcgen [inferArguments]

@[spec] theorem traced_argumentOrNoted (e : Expr) (expected known : Option Ty) :
    Traced o (argumentOrNoted c e expected known) := by
  cases known <;> mvcgen [argumentOrNoted]

@[spec] theorem traced_spreadArgument (e value : Expr) : Traced o (spreadArgument c e value) := by
  mvcgen [spreadArgument]

@[spec] theorem traced_argumentValues (f : Func) (args : List (Expr × Option Ty))
    (values : List (Ty × Span)) (isOpen : Bool) :
    Traced o (argumentValues c f args values isOpen) := by
  induction args generalizing values isOpen with
  | nil => mvcgen [argumentValues]
  | cons a rest ih =>
      obtain ⟨a, known⟩ := a
      mvcgen [argumentValues, ih]

@[spec] theorem traced_firstLook (f : Func) (i : Nat) (a : Expr) : Traced o (firstLook c f i a) := by
  mvcgen [firstLook]

@[spec] theorem traced_secondLook (known : Subst) (p : Pending) :
    Traced o (secondLook c known p) := by
  mvcgen [secondLook]

@[spec] theorem traced_inferTypeArguments (f : Func) (site : CallSite) (expected : Option Ty) :
    Traced o (inferTypeArguments c f site expected) := by
  delta inferTypeArguments
  -- the two rounds of inference are one local step
  extract_lets n leading result infer
  have hinfer : ∀ ps, Traced o (infer ps) := by
    intro ps
    unfold infer
    mvcgen
  clear_value infer
  mvcgen [hinfer]

@[spec] theorem traced_checkArguments (f : Func) (site : CallSite) (args : List (Expr × Option Ty)) :
    Traced o (checkArguments c f site args) := by
  mvcgen [checkArguments, checkArity]

@[spec] theorem traced_applyCall (f : Func) (site : CallSite) (expected : Option Ty) :
    Traced o (applyCall c f site expected) := by
  mvcgen [applyCall]

@[spec] theorem traced_callable (t : Ty) (span : Span) : Traced o (callable t span) := by
  mvcgen [callable]

@[spec] theorem traced_parentClass? : Traced o parentClass? := by
  mvcgen [parentClass?]

@[spec] theorem traced_inferSuperCall (e callee : Expr) (args : List Expr) :
    Traced o (inferSuperCall c e callee args) := by
  mvcgen [inferSuperCall, constructorAt]

@[spec] theorem traced_inferCall (e callee : Expr) (targs : List TypeExpr) (args : List Expr)
    (optional : Bool) (expected : Option Ty) :
    Traced o (inferCall c e callee targs args optional expected) := by
  mvcgen [inferCall]

@[spec] theorem traced_methodSignature (loc : Loc) (receiver : Expr) (t : Ty) (method : String) :
    Traced o (methodSignature loc receiver t method) := by
  mvcgen [methodSignature, isStringLike]

@[spec] theorem traced_inferMethodCall (e receiver : Expr) (method : String) (targs : List TypeExpr)
    (args : List Expr) (expected : Option Ty) :
    Traced o (inferMethodCall c e receiver method targs args expected) := by
  mvcgen [inferMethodCall]

@[spec] theorem traced_inferNew (e : Expr) (written : String) (targs : List TypeExpr)
    (args : List Expr) (expected : Option Ty) :
    Traced o (inferNew c e written targs args expected) := by
  mvcgen [inferNew, classNamed]

/-! ### Operators, functions and literals -/

@[spec] theorem traced_expectNumeric (t : Ty) (span : Span) (op : String) :
    Traced o (expectNumeric t span op) := by
  mvcgen [expectNumeric]

@[spec] theorem traced_isConcatenable (t : Ty) : Traced o (isConcatenable t) := by
  mvcgen [isConcatenable]

@[spec] theorem traced_arithmetic (op : BinOp) (l r : Ty) (span : Span) :
    Traced o (arithmetic op l r span) := by
  mvcgen [arithmetic]

@[spec] theorem traced_isComparable (l r : Ty) : Traced o (isComparable l r) := by
  mvcgen [isComparable]

@[spec] theorem traced_checkOrdering (op : BinOp) (l r : Ty) (span : Span) :
    Traced o (checkOrdering op l r span) := by
  mvcgen [checkOrdering]

@[spec] theorem traced_strictBinary (op : BinOp) (span : Span) (left right : Expr) (l r : Ty) :
    Traced o (strictBinary op span left right l r) := by
  cases op <;> mvcgen [strictBinary, expectConcatenable]

@[spec] theorem traced_inferBinary (op : BinOp) (span : Span) (left right : Expr)
    (expected : Option Ty) : Traced o (inferBinary c op span left right expected) := by
  mvcgen [inferBinary, inferLogical, inferPipe]

@[spec] theorem traced_inferUnary (op : UnOp) (operand : Expr) :
    Traced o (inferUnary c op operand) := by
  mvcgen [inferUnary, checkLength]

@[spec] theorem traced_declareParam [o.Enters] (t : Ty) (p : ParamDeclOf TypeExpr Expr) :
    Traced o (declareParam c t p) := by
  mvcgen [declareParam] with infer_instance

@[spec] theorem traced_checkResult [o.Jumps] (f : FunctionExpr) (declared : Option Ty) :
    Traced o (checkResult c f declared) := by
  mvcgen [checkResult] with infer_instance

@[spec] theorem traced_checkFunctionBody (f : FunctionExpr) (sig : Func) (self : Option Ty)
    (isConstructor infer : Bool) : Traced o (checkFunctionBody c f sig self isConstructor infer) := by
  mvcgen [checkFunctionBody, checkEnd] with infer_instance

@[spec] theorem traced_inferFunction (f : FunctionExpr) (expected : Option Ty) :
    Traced o (inferFunction c f expected) := by
  mvcgen [inferFunction, expectedSignature?]

@[spec] theorem traced_contextual (t : Ty) (expected : Option Ty) : Traced o (contextual t expected) := by
  mvcgen [contextual]

@[spec] theorem traced_expectedField (expected : Option Ty) (name : String) :
    Traced o (expectedField expected name) := by
  mvcgen [expectedField]

@[spec] theorem traced_setNamed (expected : Option Ty) (b : Building) (span : Span) (name : String)
    (value : Expr) : Traced o (setNamed c expected b span name value) := by
  mvcgen [setNamed]

@[spec] theorem traced_inferObject (fields : List ObjectField) (expected : Option Ty) :
    Traced o (inferObject c fields expected) := by
  mvcgen [inferObject, setComputed, setSpread]

@[spec] theorem traced_inferTuple (want : List Ty) (es : List Expr) (elems : List Ty) :
    Traced o (inferTuple c want es elems) := by
  induction es generalizing want elems with
  | nil => mvcgen [inferTuple]
  | cons e es ih => mvcgen [inferTuple, ih]

@[spec] theorem traced_inferArray (elements : List Expr) (expected : Option Ty) :
    Traced o (inferArray c elements expected) := by
  mvcgen [inferArray, expectedSequence?]

mutual

@[spec] theorem traced_checkPatternValues : ∀ p, Traced o (checkPatternValues c p)
  | ⟨_, .literal _⟩ => by mvcgen [checkPatternValues]
  | ⟨_, .object fields _⟩ => by
      have hfields := traced_checkFieldValues fields
      mvcgen [checkPatternValues, hfields]
  | ⟨_, .array ps _⟩ => by
      have hps := traced_checkElementValues ps
      mvcgen [checkPatternValues, hps]
  | ⟨_, .ident _⟩ => by mvcgen [checkPatternValues]
  | ⟨_, .typed _ _⟩ => by mvcgen [checkPatternValues]
  | ⟨_, .wildcard⟩ => by mvcgen [checkPatternValues]
  | ⟨_, .bad⟩ => by mvcgen [checkPatternValues]

theorem traced_checkFieldValues : ∀ fs, Traced o (checkFieldValues c fs)
  | [] => by mvcgen [checkFieldValues]
  | ⟨_, _, value⟩ :: fs => by
      have hvalue := traced_checkFieldValue value
      have hfs := traced_checkFieldValues fs
      mvcgen [checkFieldValues, hvalue, hfs]

theorem traced_checkFieldValue : ∀ p, Traced o (checkFieldValue c p)
  | none => by mvcgen [checkFieldValue]
  | some p => by
      have hp := traced_checkPatternValues p
      mvcgen [checkFieldValue, hp]

theorem traced_checkElementValues : ∀ ps, Traced o (checkElementValues c ps)
  | [] => by mvcgen [checkElementValues]
  | p :: ps => by
      have hp := traced_checkPatternValues p
      have hps := traced_checkElementValues ps
      mvcgen [checkElementValues, hp, hps]

end

@[spec] theorem traced_inferArm (key : Option String) (expected : Option Ty) (left : Ty)
    (arm : MatchArm) : Traced o (inferArm c key expected left arm) := by
  mvcgen [inferArm] with infer_instance

@[spec] theorem traced_inferArms (key : Option String) (expected : Option Ty) (arms : List MatchArm)
    (left : Ty) : Traced o (inferArms c key expected arms left) := by
  induction arms generalizing left with
  | nil => mvcgen [inferArms]
  | cons arm arms ih => mvcgen [inferArms, ih]

@[spec] theorem traced_inferMatch (span : Span) (subject : Expr) (arms : List MatchArm)
    (expected : Option Ty) : Traced o (inferMatch c span subject arms expected) := by
  mvcgen [inferMatch]

/-! ### Expressions -/

@[spec] theorem traced_inferIdent (e : Expr) (name : String) : Traced o (inferIdent e name) := by
  mvcgen [inferIdent]

@[spec] theorem traced_inferSelf (e : Expr) : Traced o (inferSelf e) := by
  mvcgen [inferSelf]

@[spec] theorem traced_inferSuper (e : Expr) : Traced o (inferSuper e) := by
  mvcgen [inferSuper]

@[spec] theorem traced_inferAssertion (span : Span) (inner : Expr) (type : Option TypeExpr) :
    Traced o (inferAssertion c span inner type) := by
  mvcgen [inferAssertion]

@[spec] theorem traced_infer (e : Expr) (expected : Option Ty) : Traced o (infer c e expected) := by
  mvcgen [infer, inferVararg, inferMember, inferConditional, inferAttempt]

@[spec] theorem traced_inferExpr (e : Expr) (expected : Option Ty) :
    Traced o (inferExpr c e expected) := by
  mvcgen [inferExpr]

/-! ### Declarations and classes -/

@[spec] theorem traced_own (name : String) (l : Loc) (hname : o.state.env.isRegistered name = false) :
    Traced o (own name l) := by
  mvcgen [own]
  next st hst _ => exact hst.own hname l.id

@[spec] theorem traced_isOwner (name : String) (l : Loc) : Traced o (isOwner name l) := by
  mvcgen [isOwner]

@[spec] theorem traced_nameAlias (l : Loc) (name : String) (tparams : List TypeParamDecl) :
    Traced o (nameAlias l name tparams) := by
  mvcgen [nameAlias, register]
  · next st hst env hadd _ _ => exact hst.unregistered (Env.addAlias_eq_ok hadd).1
  · next st hst env hadd _ _ => exact hst.addAlias hadd

@[spec] theorem traced_nameInterface (l : Loc) (name : String) (tparams : List TypeParamDecl) :
    Traced o (nameInterface l name tparams) := by
  mvcgen [nameInterface, register]
  · next st hst hnew i env hadd _ _ => exact hst.unregistered (Env.addInterface_eq_ok (i := i) hnew hadd).1
  · next st hst hnew i env hadd _ _ => exact hst.addInterface (i := i) hnew hadd

@[spec] theorem traced_enumTable (r : Object) (next : Number) (ms : List EnumMember) :
    Traced o (enumTable r next ms) := by
  induction ms generalizing r next with
  | nil => mvcgen [enumTable]
  | cons m ms ih => mvcgen [enumTable, ih]

@[spec] theorem traced_nameEnum (l : Loc) (name : String) (members : List EnumMember) :
    Traced o (nameEnum l name members) := by
  mvcgen [nameEnum, register]
  · next st hst env hadd _ _ => exact hst.unregistered (Env.addAlias_eq_ok hadd).1
  · next st hst env hadd _ _ => exact hst.addAlias hadd

@[spec] theorem traced_modifyAlias (name : String) {f : Alias → Alias} (hf : ∀ a, (f a).name = a.name) :
    Traced o (modifyAlias name f) := by
  refine traced_modify fun st => ?_
  dsimp only
  cases ha : st.env.alias? name with
  | none => exact .refl st
  | some a =>
      refine .setTypes rfl rfl (fun hg => hg.modifyAlias ha (hf a)) fun n hn => ?_
      exact (Env.isRegistered_setAlias st.env (f a) n).trans (by rw [hn, Bool.or_true])

@[spec] theorem traced_modifyInterface (name : String) {f : Interface → Interface}
    (hf : ∀ i, (f i).name = i.name) : Traced o (modifyInterface name f) := by
  refine traced_modify fun st => ?_
  dsimp only
  cases hi : st.env.interface? name with
  | none => exact .refl st
  | some i =>
      refine .setTypes rfl rfl (fun hg => hg.modifyInterface hi (hf i)) fun n hn => ?_
      exact (Env.isRegistered_setInterface st.env (f i) n).trans (by rw [hn, Bool.or_true])

@[spec] theorem traced_resolveAlias (name : String) (tparams : List TypeParamDecl)
    (type : Option TypeExpr) : Traced o (resolveAlias name tparams type) := by
  mvcgen [resolveAlias] with simp

@[spec] theorem traced_validateAlias (l : Loc) (name : String) : Traced o (validateAlias l name) := by
  mvcgen [validateAlias] with simp

@[spec] theorem traced_resolveInterface (l : Loc) (name : String) (tparams : List TypeParamDecl)
    (bases : List TypeName) (body : ObjectTypeExpr) :
    Traced o (resolveInterface l name tparams bases body) := by
  mvcgen [resolveInterface, addBase, buildObject] with simp

@[spec] theorem traced_declaredSignature (f : FunctionExpr) : Traced o (declaredSignature f) := by
  mvcgen [declaredSignature]

@[spec] theorem traced_declareCallable (s : Stmt) : Traced o (declareCallable s) := by
  mvcgen [declareCallable, namespaceType, namespaceMember?]

/-- A class is changed by the statement that owns it, and loses no members. -/
@[spec] theorem traced_modifyClass (name : String) {f : ClassShape → ClassShape} [o.Owns name]
    (hf : ∀ c, (f c).name = c.name) (hmembers : ∀ c, ClassShape.Within c (f c)) : Traced o (modifyClass name f) := by
  refine traced_iff.2 fun s st hst => ?_
  show o.state.Follows o.extent
    { st with env := ((st.env.class? name).map fun c => st.env.setClass (f c)).getD st.env }
  cases hclass : st.env.class? name with
  | none => exact hst
  | some c =>
      refine hst.alters (Origin.Owns.not_foreign o name) (.setClass st (fun hk => by rw [hf, hk name c hclass])
        (fun hg => hg.modifyClass hclass (hf c)) fun hk c₀ hc₀ => ?_) (.inr (.inr rfl))
      rw [hf, hk name c hclass, hclass] at hc₀
      cases hc₀
      exact hmembers c

/-- Who may use a member is recorded while the header of the class is entered. -/
@[spec] theorem traced_recordMember (name : String) (m : AccessMember) [o.Owns name] [ho : o.Heads name] :
    Traced o (recordMember name m) := by
  mvcgen [recordMember]
  next st hst out =>
    refine hst.alters (Origin.Owns.not_foreign o name) ?_ (.inl ho.heads)
    dsimp only [out]
    split
    · next classes h => exact .setTable st fun n hn => ClassTable.class?_addMember h hn
    · exact .setTable st fun _ _ => rfl

@[spec] theorem traced_nameClass (l : Loc) (d : ClassDecl) : Traced o (nameClass l d) := by
  mvcgen [nameClass, register]
  all_goals first
    | exact State.Follows.registerClass ‹_› ‹_› _ _ _
    | exact State.unregistered_of_addClass ‹_› ‹_›
    | exact State.Follows.setCyclic ‹_› _

/-- A report of a duplicate type is a further declaration of its name. -/
theorem redeclared_report (s : Setting) (st : State) (span : Span) (name : String) :
    ((report .duplicateDeclaration span [(TypeError.duplicateType name).message]).runFrom s st).2.Redeclared
      name := by
  have hplace : ∀ d : Diagnostic, d = .ofWords .duplicateDeclaration span [(TypeError.duplicateType name).message] →
      ∃ file, (if d.file = "" then { d with file := s.file } else d) = .redeclaration file span name := by
    rintro _ rfl
    split
    · exact ⟨_, rfl⟩
    · exact ⟨_, rfl⟩
  obtain ⟨file, hfile⟩ := hplace _ rfl
  obtain ⟨d, hmem, hkey⟩ := st.diagnostics.exists_key_add (Diagnostic.redeclaration file span name)
  refine ⟨d, ?_, file, span, hkey⟩
  rw [← hfile] at hmem
  exact hmem

/-- A name that is registered is reported to be declared again. -/
theorem redeclared_nameClass (l : Loc) (d : ClassDecl) (s : Setting) {st : State}
    (h : st.env.isRegistered d.name = true) : ((nameClass l d).runFrom s st).2.Redeclared d.name := by
  unfold nameClass
  rw [runFrom_bind, show (read : Check Setting).runFrom s st = (.ok s, st) from rfl]
  extract_lets shape parent rest enter
  clear_value rest
  have henter : ∀ (r : PUnit) (st₁ : State), st₁.env.isRegistered d.name = true →
      ((enter r).runFrom s st₁).2.Redeclared d.name := by
    intro r st₁ h₁
    have hadd : st₁.env.addClass shape = .error (.duplicateType d.name) := by
      rw [Env.addClass, if_neg (by simp [Env.isFree, shape, h₁])]
    have hrun : (enter r).runFrom s st₁ =
        (.ok (), ((report .duplicateDeclaration l.span [(TypeError.duplicateType d.name).message]).runFrom s
          st₁).2) := by
      simp only [enter, register]
      rw [runFrom_bind, runFrom_bind, show (get : Check State).runFrom s st₁ = (.ok st₁, st₁) from rfl]
      dsimp only
      rw [hadd]
      rfl
    rw [hrun]
    exact redeclared_report s st₁ l.span d.name
  dsimp only
  split
  · rw [runFrom_bind]
    exact henter ⟨⟩ _ h
  · exact henter ⟨⟩ st h

@[spec] theorem traced_memberSignature (m : ClassMember) (defaultReturn : Ty) :
    Traced o (memberSignature m defaultReturn) := by
  mvcgen [memberSignature]
  exact State.Follows.sign ‹_› _ _

@[spec] theorem traced_placeMember (className : String) [o.Owns className] (static : Bool) (m : Member) :
    Traced o (placeMember className static m) := by
  mvcgen [placeMember] with first | infer_instance | simp

@[spec] theorem traced_sideMember? (className : String) (static : Bool) (name : String) :
    Traced o (sideMember? className static name) := by
  mvcgen [sideMember?]

@[spec] theorem traced_addClassMember (className : String) [o.Owns className] [o.Heads className] (setters : List String) (m : ClassMember) :
    Traced o (addClassMember className setters m) := by
  mvcgen [addClassMember, propertyType] with first | infer_instance | simp

@[spec] theorem traced_addClassMembers (d : ClassDecl) [o.Owns d.name] [o.Heads d.name] (setters : List String) (ms : List ClassMember)
    (seen : List ((Bool × String) × ClassMemberKind)) :
    Traced o (addClassMembers d setters ms seen) := by
  induction ms generalizing seen with
  | nil => mvcgen [addClassMembers]
  | cons m ms ih =>
      rw [addClassMembers]
      mvcgen [ih]

@[spec] theorem traced_resolveClass (d : ClassDecl) [o.Owns d.name] [o.Heads d.name] : Traced o (resolveClass d) := by
  mvcgen [resolveClass, resolveBase, resolveImplemented] with first | infer_instance | simp

@[spec] theorem traced_checkOverride (d : ClassDecl) (parent : Option TypeRef) (m : ClassMember) :
    Traced o (checkOverride d parent m) := by
  mvcgen [checkOverride]

@[spec] theorem traced_checkHierarchy (l : Loc) (d : ClassDecl) : Traced o (checkHierarchy l d) := by
  mvcgen [checkHierarchy, checkImplemented]

@[spec] theorem traced_checkDecorator (e : Expr) : Traced o (checkDecorator c e) := by
  fun_induction checkDecorator (c : Checker) e with
  | case1 _ _ => mvcgen
  | case2 _ _ _ _ _ ih => mvcgen [ih]
  | case3 _ _ _ _ ih => mvcgen [ih]
  | case4 _ _ _ _ => mvcgen

@[spec] theorem traced_checkDecorators (es : List Expr) : Traced o (checkDecorators c es) := by
  mvcgen [checkDecorators]

@[spec] theorem traced_checkInitial (className : String) [o.Owns className] (m : ClassMember) (e : Expr) :
    Traced o (checkInitial c className m e) := by
  mvcgen [checkInitial] with first | infer_instance | simp

@[spec] theorem traced_checkMethod (className : String) [o.Owns className] (self : Ty) (m : ClassMember)
    (f : FunctionExpr) : Traced o (checkMethod c className self m f) := by
  mvcgen [checkMethod] with first | infer_instance | simp

@[spec] theorem traced_checkClassBodies (d : ClassDecl) [o.Owns d.name] : Traced o (checkClassBodies c d) := by
  mvcgen [checkClassBodies] with infer_instance

/-! ### Statements -/

@[spec] theorem traced_narrowOnAssign (declared value : Ty) :
    Traced o (narrowOnAssign declared value) := by
  mvcgen [narrowOnAssign]

@[spec] theorem traced_checkBinding (isConst : Bool) (target : Pattern) (type : Option TypeExpr)
    (value : Expr) : Traced o (checkBinding c isConst target type value) := by
  mvcgen [checkBinding]

@[spec] theorem traced_assignIdent (loc : Loc) (name : String) : Traced o (assignIdent loc name) := by
  mvcgen [assignIdent]

@[spec] theorem traced_assignTarget (e : Expr) : Traced o (assignTarget c e) := by
  fun_induction assignTarget (c : Checker) e with
  | case1 _ _ => mvcgen
  | case2 _ _ _ _ => mvcgen [isInitializing]
  | case3 _ _ _ _ => mvcgen
  | case4 _ _ ih => exact ih
  | case5 _ _ _ _ _ => mvcgen

@[spec] theorem traced_checkAssignment (span : Span) (target : Expr) (op : Option BinOp)
    (value : Expr) : Traced o (checkAssignment c span target op value) := by
  mvcgen [checkAssignment]

@[spec] theorem traced_checkReturn [o.Jumps] (span : Span) (values : List Expr) :
    Traced o (checkReturn c span values) := by
  mvcgen [checkReturn, checkReturned] with infer_instance

@[spec] theorem traced_checkFunctionDecl (span : Span) (name : String) (f : FunctionExpr) :
    Traced o (checkFunctionDecl c span name f) := by
  mvcgen [checkFunctionDecl, topLevelSignature]
  all_goals exact State.Follows.update ‹_› ‹_›

@[spec] theorem traced_declareNested (s : Stmt) : Traced o (declareNested c s) := by
  rw [declareNested]
  split
  case h_4 d _ =>
    have hclass : ∀ o' : Origin, [o'.Owns d.name] → [o'.Heads d.name] →
        Traced o' (do resolveClass d; checkHierarchy s.loc d; checkClassBodies c d) := fun o' _ _ => by
      mvcgen with infer_instance
    refine traced_iff.2 fun setting st hst => ?_
    have hname := traced_iff.1 (traced_nameClass s.loc d) setting st hst
    have hredeclared := fun h => redeclared_nameClass s.loc d setting (hst.registered d.name h)
    rw [runFrom_bind]
    generalize (nameClass s.loc d).runFrom setting st = r at hname hredeclared
    obtain ⟨r, st₁⟩ := r
    cases r with
    | ok a => exact ends_ifOwner hname hredeclared hclass setting
    | error e => exact hname
  all_goals mvcgen

@[spec] theorem traced_checkBlock [o.Jumps] (b : Block) : Traced o (checkBlock c b) := by
  mvcgen [checkBlock] with infer_instance

@[spec] theorem traced_checkElseIfs [o.Jumps] (es : List ElseIf) (no : Context) :
    Traced o (checkElseIfs c es no) := by
  induction es generalizing no with
  | nil => mvcgen [checkElseIfs]
  | cons e es ih => mvcgen [checkElseIfs, ih] with infer_instance

@[spec] theorem traced_checkBranch [o.Jumps] (cond : Expr) (body : Block) (elseIfs : List ElseIf)
    (elseBody : Option Block) : Traced o (checkBranch c cond body elseIfs elseBody) := by
  mvcgen [checkBranch] with infer_instance

@[spec] theorem traced_checkWhile [o.Jumps] (cond : Expr) (body : Block) :
    Traced o (checkWhile c cond body) := by
  mvcgen [checkWhile] with infer_instance

@[spec] theorem traced_checkRepeat [o.Jumps] (body : Block) (cond : Expr) :
    Traced o (checkRepeat c body cond) := by
  mvcgen [checkRepeat] with infer_instance

@[spec] theorem traced_checkFor [o.Jumps] {bindVars : Check Unit} (body : Block)
    (h : ∀ o' : Origin, Traced o' bindVars) :
    Traced o (checkFor c body bindVars) := by
  mvcgen [checkFor, h] with infer_instance

@[spec] theorem traced_checkBound (e : Expr) : Traced o (checkBound c e) := by
  mvcgen [checkBound]

@[spec] theorem traced_checkNumericFor [o.Jumps] (span : Span) (var : String) (start limit : Expr)
    (step : Option Expr) (body : Block) :
    Traced o (checkNumericFor c span var start limit step body) := by
  mvcgen [checkNumericFor] with infer_instance

@[spec] theorem traced_iterationTypes (iter : Expr) (t : Ty) (n : Nat) :
    Traced o (iterationTypes iter t n) := by
  mvcgen [iterationTypes, collectionIterator?, notedType?, collectionVariables, iteratorVariables]

@[spec] theorem traced_checkGenericFor [o.Jumps] (span : Span) (vars : List String) (iter : Expr) (body : Block) :
    Traced o (checkGenericFor c span vars iter body) := by
  mvcgen [checkGenericFor] with infer_instance

@[spec] theorem traced_checkHandler [o.Jumps] (h : CatchClause) : Traced o (checkHandler c h) := by
  mvcgen [checkHandler, caughtType] with infer_instance

/-- The state inside of a handler. -/
def handling (st : State) : State := { st with frame := { st.frame with inHandler := true } }

/-- One handler: where it was entered, the flag of handlers is set. -/
def handle (entry : Context) (h : CatchClause) : Check Context := do
  setContext entry
  modifyFrame ({ · with inHandler := true })
  checkHandler c h
  context

/-- The handlers in turn.  Each sets the flag, and none takes it back. -/
theorem ends_handlers {l : Extent} {st₀ : State} [Origin.Jumps ⟨l, st₀⟩] (h₀ : st₀.frame.inHandler = true)
    (entry : Context) (hs : List CatchClause) (s : Setting) {st : State}
    (hst : st₀.Follows l (handling st)) :
    match (hs.mapM (handle c entry)).runFrom s st with
    | (.ok _, st') => st₀.Follows l (handling st')
    | (.error _, st') => st₀.Interrupted l st' := by
  induction hs generalizing st with
  | nil => exact hst
  | cons h hs ih =>
      have hbranch : st₀.Follows l { handling st with trail := (handling st).trail.branch entry } :=
        traced_iff.1 (traced_setContext (o := ⟨l, st₀⟩) entry) s (handling st) hst
      have hhandler : Traced ⟨l, st₀⟩ (do checkHandler c h; context) := by
        mvcgen
      have hends := traced_iff.1 hhandler s _ hbranch
      rw [List.mapM_cons, runFrom_bind,
        show (handle c entry h).runFrom s st = (do checkHandler c h; context : Check Context).runFrom s
          { handling st with trail := (handling st).trail.branch entry } from rfl]
      generalize (do checkHandler c h; context : Check Context).runFrom s _ = r at hends
      obtain ⟨r, st'⟩ := r
      cases r with
      | error e => exact hends
      | ok out =>
          have hflag : st'.frame.inHandler = true := hends.inHandler.trans h₀
          have hst' : handling st' = st' := by rw [handling, ← hflag]
          have hfollows : st₀.Follows l (handling st') := hst'.symm ▸ hends
          have hrest := ih hfollows
          dsimp only
          rw [runFrom_bind]
          generalize (hs.mapM (handle c entry)).runFrom s st' = r at hrest
          obtain ⟨r, st''⟩ := r
          cases r with
          | ok outs => exact hrest
          | error e => exact hrest

/-- After the handlers the flag is that from before them. -/
theorem traced_handlers [ho : o.Jumps] (entry : Context) (hs : List CatchClause)
    {f : List Context → Check α} (hf : ∀ outs, Traced o (f outs)) :
    Traced o (do
      let inHandler := (← get).frame.inHandler
      let outs ← hs.mapM (handle c entry)
      modifyFrame ({ · with inHandler })
      f outs) := by
  refine traced_iff.2 fun s st hst => ?_
  have : Origin.Jumps ⟨o.extent, handling st⟩ := { turns := ho.turns, jumps := ho.jumps }
  have hflag : (handling st).frame.inHandler = true := rfl
  have hends := ends_handlers c (l := o.extent) hflag entry hs s (.refl (handling st))
  change o.state.Ends o.extent ((hs.mapM (handle c entry) >>= fun outs => do
    modifyFrame ({ · with inHandler := st.frame.inHandler })
    f outs).runFrom s st)
  rw [runFrom_bind]
  generalize (hs.mapM (handle c entry)).runFrom s st = r at hends
  obtain ⟨r, st'⟩ := r
  cases r with
  | error e => exact .after hst ⟨hends.toLasts.congr rfl rfl, hends.scopes, hends.params⟩
  | ok outs =>
      have hst' : st.Follows o.extent
          { st' with frame := { st'.frame with inHandler := st.frame.inHandler } } :=
        ⟨hends.toLasts.congr rfl rfl, hends.scopes, hends.params, hends.side, hends.inLoop, rfl,
          hends.function, fun hl => by simp [ho.jumps] at hl, hends.reachable, hends.returns,
          hends.breaks⟩
      exact traced_iff.1 (hf outs) s _ (hst.trans hst')

@[spec] theorem traced_checkAttempt [o.Jumps] (body : Block) (handlers : List CatchClause)
    (cleanup : Option Block) : Traced o (checkAttempt c body handlers cleanup) := by
  refine Triple.bind _ _ traced_context fun entry => ?_
  refine Triple.bind _ _ (traced_setContext entry.child) fun _ => ?_
  refine Triple.bind _ _ (traced_checkBlock c body) fun _ => ?_
  refine Triple.bind _ _ traced_context fun out => ?_
  refine traced_handlers c (withoutAssigned body entry) handlers fun outs => ?_
  mvcgen with infer_instance

/-- A way out of the innermost loop. -/
@[spec] theorem traced_addBreak [ho : o.Jumps] (c : Context) :
    Traced o (modifyFrame fun f => { f with breaks := f.breaks ++ [c] }) :=
  traced_modify fun _ =>
    { State.Lasts.of_kept rfl with
      scopes := rfl
      params := rfl
      side := rfl
      inLoop := rfl
      inHandler := rfl
      function := fun _ => rfl
      frame := fun h => by simp [ho.jumps] at h
      reachable := fun _ => rfl
      returns := List.prefix_refl _
      breaks := List.prefix_append _ _ }

@[spec] theorem traced_checkBreak [o.Jumps] (span : Span) : Traced o (checkBreak span) := by
  mvcgen [checkBreak] with infer_instance

@[spec] theorem traced_checkStmt [o.Jumps] (s : Stmt) : Traced o (checkStmt c s) := by
  have hclass : ∀ d : ClassDecl, Traced o (do if ← isOwner d.name s.loc then checkClassBodies c d) :=
    fun d => traced_ifOwner fun o' _ _ => traced_checkClassBodies c d
  rw [checkStmt]
  refine traced_get fun st => ?_
  dsimp only
  split
  case h_7 d _ =>
    split
    · mvcgen
    · exact hclass d
  all_goals mvcgen with infer_instance

end

/-! ### Modules -/

/-- A carried class is added under a name that was free. -/
theorem importClass_spec (k : CarriedClass) :
    ⦃fun _ st => ⌜o.state.Follows o.extent st⌝⦄ importClass k
    ⦃post⟨fun b _ st => ⌜o.state.Follows o.extent st ∧ (b = true → o.state.env.isRegistered k.shape.name = false)⌝,
      fun _ st => ⌜o.state.Interrupted o.extent st⌝⟩⦄ := by
  mvcgen [importClass]
  · exact ⟨‹_›, nofun⟩
  · exact ⟨‹_›, nofun⟩
  · exact ⟨State.Follows.registerClass ‹_› ‹_› _ _ _, nofun⟩
  · exact addMember_follows ‹_› (State.not_foreign_of_addClass ‹_› ‹_›)
      (.inr (State.unregistered_of_addClass ‹_› ‹_›)) _
  · exact State.Follows.registerClass ‹_› ‹_› _ _ _
  · exact ⟨‹_›, State.unregistered_of_addClass ‹_› ‹_›⟩

@[spec] theorem traced_linkClass (k : CarriedClass) (hname : o.state.env.isRegistered k.shape.name = false) :
    Traced o (linkClass k) := by
  mvcgen [linkClass]
  next st hst out =>
    dsimp only [out]
    split
    · exact hst
    · split
      · next hset =>
          exact hst.alters (State.not_foreign_of_unregistered hname)
            (.setTable st fun n hn => ClassTable.class?_setParent hset hn) (.inr (.inl hname))
      · exact hst

@[spec] theorem traced_importClasses (t : ExportTable) : Traced o (importClasses t) := by
  refine Triple.bind _ _ (filterM_spec importClass_spec) fun added => ?_
  rintro s st ⟨hst, hadded⟩
  exact traced_forM_mem (fun k hk => traced_linkClass k (hadded k hk)) s st hst

@[spec] theorem traced_registerAlias (span : Span) (a : Alias) :
    Traced o (register span (·.addAlias a)) := by
  mvcgen [register]
  exact State.Follows.addAlias ‹_› ‹_›

@[spec] theorem traced_tryAlias (a : Alias) : Traced o (tryAlias a) := by
  mvcgen [tryAlias, modifyEnv]
  next st hst out =>
    dsimp only [out]
    split
    · next hadd => exact hst.addAlias hadd
    · exact hst

@[spec] theorem traced_classAlias (name className : String) (span : Span) :
    Traced o (classAlias name className span) := by
  mvcgen [classAlias]

@[spec] theorem traced_bindImport (e : Export) (spec : NameSpec) (typeOnly : Bool) :
    Traced o (bindImport e spec typeOnly) := by
  mvcgen [bindImport]

@[spec] theorem traced_importWhole (span : Span) (whole : String) (typeOnly : Bool) (t : ExportTable) :
    Traced o (importWhole span whole typeOnly t) := by
  mvcgen [importWhole, wholeMember]

@[spec] theorem traced_importModule (span : Span) (i : ImportDecl) :
    Traced o (importModule span i) := by
  mvcgen [importModule, importTable?]

@[spec] theorem traced_flatten (t : Ty) : Traced o (flatten t) := by
  mvcgen [flatten]

@[spec] theorem traced_exportSymbol (sym : Symbol) (exported : String) :
    Traced o (exportSymbol sym exported) := by
  mvcgen [exportSymbol]

@[spec] theorem traced_exportType? (name exported : String) :
    Traced o (exportType? name exported) := by
  mvcgen [exportType?]

@[spec] theorem traced_addExport (span : Span) (t : ExportTable) (names : String × String) :
    Traced o (addExport span t names) := by
  mvcgen [addExport, exportEntry?]

@[spec] theorem traced_exportStmt (t : ExportTable) (s : Stmt) : Traced o (exportStmt t s) := by
  mvcgen [exportStmt]

@[spec] theorem traced_carriedClass (k : ClassShape) : Traced o (carriedClass k) := by
  mvcgen [carriedClass]

@[spec] theorem traced_buildExports (stmts : List Stmt) : Traced o (buildExports stmts) := by
  mvcgen [buildExports]

/-- **The checker for each depth is steady.** -/
theorem exists_steady (n : Nat) : ∃ c : SteadyChecker, (c : Checker) = checkerUpTo n := by
  induction n with
  | zero =>
      refine ⟨{ checkerUpTo 0 with traced_expr := ?_, traced_stmt := ?_ }, rfl⟩
      · intro o e expected
        mvcgen [checkerUpTo]
        exact State.Follows.interrupted ‹_›
      · intro o _ s
        mvcgen [checkerUpTo]
        exact State.Follows.interrupted ‹_›
  | succ n ih =>
      obtain ⟨c, hc⟩ := ih
      refine ⟨{ checkerUpTo (n + 1) with traced_expr := ?_, traced_stmt := ?_ }, rfl⟩
      · intro o e expected
        rw [checkerUpTo, ← hc]
        exact traced_inferExpr c e expected
      · intro o _ s
        rw [checkerUpTo, ← hc]
        exact traced_checkStmt c s

@[spec] theorem traced_nameDecl (s : Stmt) : Traced o (nameDecl s) := by
  mvcgen [nameDecl]

@[spec] theorem traced_importDecl [o.Jumps] (s : Stmt) : Traced o (importDecl s) := by
  mvcgen [importDecl] with infer_instance

@[spec] theorem traced_headerIfOwner (name : String) (l : Loc) {act : Check Unit}
    (h : ∀ o' : Origin, [o.Leads o'] → [o'.Owns name] → Traced o' act) :
    Traced o (headerPasses.ifOwner name l act) :=
  traced_ifOwner h

/-- A pass over a header records members of no class but the one that the statement declares. -/
theorem traced_headerPass {pass : Stmt → Check Unit} (h : pass ∈ headerPasses) (s : Stmt)
    (hheads : ∀ d, s.form = .class d → o.Heads d.name) : Traced o (pass s) := by
  simp only [headerPasses, List.mem_cons, List.not_mem_nil, or_false] at h
  rcases h with rfl | rfl | rfl | rfl | rfl | rfl
  case inr.inr.inr.inl =>
    dsimp only
    split
    · next d hform =>
        have : o.Heads d.name := hheads d hform
        exact traced_headerIfOwner d.name s.loc fun o' _ _ => traced_resolveClass d
    · mvcgen
  all_goals mvcgen

@[spec] theorem traced_resolveHeaders [o.Jumps] [∀ n, o.Heads n] (stmts : List Stmt) :
    Traced o (resolveHeaders stmts) :=
  traced_forM_mem fun _ hpass => traced_forM fun _ => traced_guarded _ fun _ => traced_headerPass hpass _ inferInstance

/-- **The check of a module is traced**: at its end the module scope is open, whatever went wrong. -/
theorem traced_checkModule [o.Jumps] [∀ n, o.Heads n] (depth : Nat) (stmts : List Stmt) :
    Traced o (checkModule depth stmts) := by
  obtain ⟨c, hc⟩ := exists_steady depth
  rw [checkModule, ← hc]
  mvcgen with infer_instance

end Check

end TreeCheck
