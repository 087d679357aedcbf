import TreeCheck.Check.Basic
import TreeCheck.Generic.Infer

/-!
# From annotations to types

* `buildType` — the type that an annotation denotes; a name that is not known and a wrong number of
  arguments are reported, and the type is then `unknown`;
* `buildTypeParams` — declared type parameters: all names are in scope while constraints and
  defaults are built, so they may refer to each other;
* `buildSignature` — the signature of a function; a type that is expected of it supplies the
  parameter types that it leaves out.
-/

namespace TreeCheck.Check

/-- Check explicit type arguments against the constraints of their parameters. -/
def checkTypeArguments (params : List TypeParam) (args : List Ty) :
    Check (Except ArgumentError Unit) := do
  match ← (bindArgs params args : Query _) with
  | .error e => return .error e
  | .ok s => checkConstraints (some (← resolver)) s params

/-- The code under which a misused utility type is reported. -/
def utilityCode : TypeError → Code
  | .arity _ _ _ _ => .arity
  | .recursiveAlias _ _ => .recursiveTypeAlias
  | _ => .typeMismatch

/-- A utility type.  It is applied once to see that its arguments fit, but kept by name. -/
def utilityType (span : Span) (name : String) (args : List Ty) : Check Ty := do
  let t := Ty.ref name args
  if !t.isClosed then return t
  match ← ((← get).env.resolve name args).run with
  | .ok _ => return t
  | .error e =>
    report (utilityCode e) span [e.message]
    return .unknown

/-- A type with declared parameters.  Named without arguments inside its own body, a generic class
stands for itself. -/
def appliedType (span : Span) (name : String) (params : List TypeParam) (args : List Ty) :
    Check Ty := do
  let inOwnBody := ((← get).frame.side.map (·.name)) == some name
  let required := requiredTypeParams params
  if args.isEmpty && inOwnBody then return .ref name (typeParamRefs params)
  if args.length < required || params.length < args.length then
    report .arity span [(TypeError.arity name required params.length args.length).message]
    return .unknown
  if !params.isEmpty then
    match ← checkTypeArguments params args with
    | .ok _ => pure ()
    | .error e => report .typeConstraintViolation span [e.message]
  return .ref name args

/-- A named type; `count` arguments are written, and `build` builds them. -/
def namedType (span : Span) (name : String) (count : Nat) (build : Check (List Ty)) : Check Ty := do
  let env := (← get).env
  if env.isTypeParam name then
    if 0 < count then report .arity span ["type parameter", name, "takes no type arguments"]
    return .tvar name
  match builtin? name with
  | some t =>
    if 0 < count then report .arity span ["type", name, "takes no type arguments"]
    return t
  | none =>
    if !env.isDefined name then
      report .undefinedSymbol span ["unknown type:", name]
      return .unknown
    let args ← build
    if isUtility name then utilityType span name args
    else
      match env.typeParams? name with
      | none => return .ref name args
      | some params => appliedType span name params args

/-- Add a member to a record type. -/
def addMember (o : Object) (span : Span) (m : Member) : Check Object := do
  if (o.find? m.name).isSome then report .duplicateDeclaration span ["duplicate member", m.name]
  return o.insert m

/-- A default has to fit the constraint of its parameter. -/
def checkDefault (span : Span) (p : TypeParam) : Check Unit := do
  match p.constraint, p.default with
  | some c, some d =>
    if !(← assignable d c) then
      report .typeConstraintViolation span
        ["default", d.text, "does not satisfy the constraint", c.text, "of", p.name]
  | _, _ => pure ()

/-- Type parameters as they are in scope before their constraints are known. -/
def bareParams (ps : List TypeParamDecl) : List TypeParam := ps.map fun p => { name := p.name }

mutual
def buildType : TypeExpr → Check Ty
  | ⟨span, form⟩ => buildForm span form

/-- The type that a form of annotation denotes. -/
def buildForm (span : Span) : TypeForm → Check Ty
  | .named name args => namedType span name args.length (buildTypes args)
  | .literal l => return .lit l
  | .array e => return .array (← buildType e)
  | .tuple es => return .tuple (← buildTypes es)
  | .object ms i => do
    let o ← buildMembers {} ms
    return .object { o with index := ← buildIndex i }
  | .function tps ps r => do
    let tparams ← withParams (bareParams tps) (buildParamDecls tps)
    withParams tparams do
      let params ← buildTypeFnParams ps
      let ret ← buildOption r
      return .func { tparams, params, ret }
  | .union ts => return Ty.unionOf (← buildTypes ts)
  | .inter ts => return Ty.interOf (← buildTypes ts)
  | .nullable t => return (← buildType t).nullable
  | .predicate p t => return .pred p ((← buildOption t).getD .unknown)
  | .bad => return .unknown

def buildTypes : List TypeExpr → Check (List Ty)
  | [] => return []
  | t :: ts => do
    let t ← buildType t
    return t :: (← buildTypes ts)

/-- The type of an annotation that may be absent. -/
def buildOption : Option TypeExpr → Check (Option Ty)
  | none => return none
  | some t => return some (← buildType t)

def buildMembers : Object → List TypeMember → Check Object
  | o, [] => return o
  | o, ⟨span, name, t, optional, readonly, method⟩ :: ms => do
    let type := (← buildOption t).getD .unknown
    let o ← addMember o span { name, type, optional, readonly, method }
    buildMembers o ms

def buildIndex : Option IndexDecl → Check (Option Index)
  | none => return none
  | some ⟨_, k, v⟩ => do
    let key := (← buildOption k).getD .unknown
    let value := (← buildOption v).getD .unknown
    return some { key, value }

/-- The constraints and defaults of type parameters whose names are in scope. -/
def buildParamDecls : List TypeParamDecl → Check (List TypeParam)
  | [] => return []
  | ⟨span, name, c, d⟩ :: ps => do
    let constraint ← buildOption c
    let default ← buildOption d
    let p : TypeParam := { name, constraint, default }
    checkDefault span p
    return p :: (← buildParamDecls ps)

def buildTypeFnParams : List (ParamDeclOf TypeExpr Yaml.Node) → Check (List Param)
  | [] => return []
  | p :: ps => do
    let type := (← buildOption p.type).getD .unknown
    let param : Param :=
      { name := p.name, type, optional := p.optional || p.default.isSome, rest := p.rest }
    return param :: (← buildTypeFnParams ps)
end

/-- The type of an annotation; without one, nothing is known. -/
def buildOrUnknown (t : Option TypeExpr) : Check Ty := return (← buildOption t).getD .unknown

def buildTypeParams (ps : List TypeParamDecl) : Check (List TypeParam) :=
  withParams (bareParams ps) (buildParamDecls ps)

def buildObject (o : ObjectTypeExpr) : Check Object := do
  let r ← buildMembers {} o.members
  return { r with index := ← buildIndex o.index }

/-- The parameter at position `i` of a function. -/
def buildParam (expected : Option Func) (i : Nat) (p : ParamDeclOf TypeExpr Expr) : Check Param := do
  let type ← match p.type with
    | some t => buildType t
    | none => pure ((expected.bind (·.paramAt? i)).getD .unknown)
  return { name := p.name, type, optional := p.optional || p.default.isSome, rest := p.rest }

def buildSignature (tps : List TypeParamDecl) (ps : List (ParamDeclOf TypeExpr Expr))
    (ret : Option TypeExpr) (expected : Option Func) : Check Func := do
  let tparams ← buildTypeParams tps
  withParams tparams do
    let params ← ps.zipIdx.mapM fun p => buildParam expected p.2 p.1
    let ret ← buildOption ret
    return { tparams, params, ret }

end TreeCheck.Check
