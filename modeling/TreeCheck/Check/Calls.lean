import TreeCheck.Check.Members

/-!
# Calls

* `CallSite` — one invocation;
* `applyCall` — checks the arguments of a call against a signature, with explicit or inferred type
  arguments, and gives the result type;
* `inferCall`, `inferMethodCall`, `inferNew` — the three forms of calls.

A last argument that gives several values fills several parameters, and an argument that gives an
unknown number of values leaves the number open.
-/

namespace TreeCheck.Check

/-- One invocation. -/
structure CallSite where
  span : Span
  targs : List TypeExpr := []
  args : List Expr := []
  /-- Typed arguments ahead of the others, with their place. -/
  leading : List Ty := []
  leadingSpan : Span := {}

/-- The element type that `...value` contributes. -/
def spreadElement (t : Ty) (span : Span) : Check Ty := do
  match ← structural t with
  | .array e => return e
  | .tuple es => return Ty.unionOf es
  | _ =>
    if !t.isUnknown then report .typeMismatch span ["type", quoted t, "cannot be spread"]
    return .unknown

/-- The type that the argument at position `i` must have; optional parameters accept `nil`. -/
def argumentType? (f : Func) (i : Nat) : Option Ty :=
  (f.paramAt? i).map fun t =>
    if ((f.params[i]?).map (·.optional)).getD false then t.nullable else t

def isMultiValue (e : Expr) : Bool :=
  match e.form with
  | .call _ _ _ _ => true
  | .methodCall _ _ _ _ => true
  | .vararg => true
  | _ => false

/-- Whether an expression stands for all values of `...`. -/
def isVararg (e : Expr) : Bool :=
  match e.form with
  | .vararg => true
  | _ => false

/-- How many arguments a signature takes. -/
def arityText (f : Func) : String :=
  if f.rest?.isSome then s!"at least {f.required} argument(s)"
  else if f.required = f.params.length then s!"{f.required} argument(s)"
  else s!"{f.required}-{f.params.length} arguments"

/-- Check arguments that nothing is known about. -/
def inferArguments (c : Checker) (args : List Expr) : Check Unit :=
  args.forM fun a => do let _ ← c.expr a none

/-- The type of an argument, noted before or found now. -/
def argumentOrNoted (c : Checker) (e : Expr) (expected : Option Ty) : Option Ty → Check Ty
  | some t => pure t
  | none => c.expr e expected

/-- The element type of a spread argument. -/
def spreadArgument (c : Checker) (e value : Expr) : Check Ty := do
  let t ← c.expr value none
  let elem ← spreadElement t e.span
  noteType e.loc elem
  return elem

/-- The argument values in turn, each argument with its type if that is known already.  The flag
says that the number of values is open. -/
def argumentValues (c : Checker) (f : Func) :
    List (Expr × Option Ty) → List (Ty × Span) → Bool → Check (List (Ty × Span) × Bool)
  | [], values, isOpen => return (values, isOpen)
  | (a, known) :: rest, values, isOpen => do
    let expected := argumentType? f values.length
    match a.form with
    | .spread value =>
      let elem ← match known with
        | some t => pure t
        | none => spreadArgument c a value
      match expected with
      | some t => expectAssignable elem t a.span
      | none => pure ()
      argumentValues c f rest values true
    | _ =>
      let t ← argumentOrNoted c a expected known
      let own := match t with
        | .tuple es => if rest.isEmpty && isMultiValue a then es else [t]
        | _ => [t]
      argumentValues c f rest (values ++ own.map fun u => (u, a.span)) (isOpen || isVararg a)

/-- An argument during the inference of type arguments. -/
structure Pending where
  expr : Expr
  formal : Option Ty
  actual : Option Ty

/-- The argument at position `i`, unless it is a function: functions are looked at when the other
arguments have fixed what they can. -/
def firstLook (c : Checker) (f : Func) (i : Nat) (a : Expr) : Check Pending := do
  let formal := f.paramAt? i
  match a.form with
  | .function _ => return ⟨a, formal, none⟩
  | .spread value => return ⟨a, formal, some (← spreadArgument c a value)⟩
  | _ => return ⟨a, formal, some (← c.expr a (formal.filter (·.isClosed)))⟩

/-- A function among the arguments, under the type arguments found so far. -/
def secondLook (c : Checker) (known : Subst) (p : Pending) : Check Pending := do
  match p.actual with
  | some _ => return p
  | none => return { p with actual := some (← c.expr p.expr (p.formal.map (·.apply known))) }

/-- Infer the type arguments of a generic call; gives the signature at them, the type arguments, and
the types of the arguments. -/
def inferTypeArguments (c : Checker) (f : Func) (site : CallSite) (expected : Option Ty) :
    Check (Func × List Ty × List (Expr × Option Ty)) := do
  let n := site.leading.length
  let leading : List (Option Ty × Option Ty) :=
    site.leading.zipIdx.map fun t => (f.paramAt? t.2, some t.1)
  let result : List (Option Ty × Option Ty) := match expected, f.ret with
    | some e, some r => [(some r, some e)]
    | _, _ => []
  let infer (ps : List Pending) : Check (Subst × Except ArgumentError Unit) := do
    let pairs := leading ++ ps.map (fun p => (p.formal, p.actual)) ++ result
    TreeCheck.inferArguments f.tparams (pairs.map (·.1)) (pairs.map (·.2)) (some (← resolver))
  let first ← site.args.zipIdx.mapM fun a => firstLook c f (n + a.2) a.1
  let all ← if first.any (·.actual.isNone) then do
      let (known, _) ← infer first
      first.mapM (secondLook c known)
    else pure first
  let (s, verdict) ← infer all
  match verdict with
  | .error e => report .typeConstraintViolation site.span [e.message]
  | .ok _ => pure ()
  return (f.instantiate s, s.map (·.2), all.map fun p => (p.expr, p.actual))

/-- Report a number of arguments that a signature does not take. -/
def checkArity (f : Func) (count : Nat) (isOpen : Bool) (span : Span) : Check Unit := do
  let tooFew := count < f.required && !isOpen
  let tooMany := f.params.length < count && f.rest?.isNone
  if tooFew || tooMany then
    report .arity span [s!"expected {arityText f}, got {count}"]

/-- Check the arguments of a call against a signature without type parameters. -/
def checkArguments (c : Checker) (f : Func) (site : CallSite) (args : List (Expr × Option Ty)) :
    Check Ty := do
  let leading := site.leading.map fun t => (t, site.leadingSpan)
  let (values, isOpen) ← argumentValues c f args leading false
  checkArity f values.length isOpen site.span
  values.zipIdx.forM fun v =>
    match argumentType? f v.2 with
    | some t => expectAssignable v.1.1 t v.1.2
    | none => pure ()
  match f.result with
  | .pred _ _ => return .boolean
  | t => return t

/-- Check the arguments of a call; gives the result type, and the type arguments of a generic
signature. -/
def applyCall (c : Checker) (f : Func) (site : CallSite) (expected : Option Ty) :
    Check (Ty × List Ty) := do
  let plain := site.args.map fun a => (a, none)
  if !f.tparams.isEmpty && !site.targs.isEmpty then
    let args ← buildTypes site.targs
    match ← (bindArgs f.tparams args : Query _) with
    | .error e =>
      report .arity site.span [e.message]
      inferArguments c site.args
      return (.unknown, [])
    | .ok s =>
      match ← (checkConstraints (some (← resolver)) s f.tparams : Query _) with
      | .error e => report .typeConstraintViolation site.span [e.message]
      | .ok _ => pure ()
      return (← checkArguments c (f.instantiate s) site plain, s.map (·.2))
  else if !f.tparams.isEmpty then
    let (f, targs, args) ← inferTypeArguments c f site expected
    return (← checkArguments c f site args, targs)
  else
    if !site.targs.isEmpty then
      report .arity site.span [s!"expected 0 type arguments, got {site.targs.length}"]
    return (← checkArguments c f site plain, [])

/-! ### Callees -/

/-- The signature of a callee; what cannot be called is reported. -/
def callable (t : Ty) (span : Span) : Check (Option Func) := do
  match ← structural t with
  | .func f => return some f
  | .classRef n =>
    report .typeMismatch span ["class", n, "cannot be called; use 'new", n ++ "(...)'"]
    return none
  | s =>
    if !s.isUnknown then report .typeMismatch span ["type", quoted t, "is not callable"]
    return none

/-- The base of the class being checked. -/
def parentClass? : Check (Option TypeRef) := do
  let s ← get
  return (s.frame.side.bind fun side => s.env.class? side.name).bind (·.parent)

/-- The constructor of a class at type arguments. -/
def constructorAt (name : String) (args : List Ty) : Check Func := do
  let env := (← get).env
  let ctor := env.constructor name
  let params := ((env.class? name).map (·.params)).getD []
  if params.isEmpty || args.isEmpty then return ctor
  match ← (bindArgs params args : Query _) with
  | .ok s => return ctor.apply s
  | .error _ => return ctor

/-- `super(…)` in the constructor of a subclass. -/
def inferSuperCall (c : Checker) (e callee : Expr) (args : List Expr) : Check Ty := do
  let inConstructor := ((← get).frame.function.map (·.isConstructor)).getD false
  match ← parentClass?, inConstructor with
  | some parent, true =>
    noteType callee.loc (.classRef parent.name)
    noteReceiver callee.loc ⟨parent.name, false⟩
    let ctor ← constructorAt parent.name parent.args
    let _ ← applyCall c ctor { span := e.span, args } none
    return .void
  | _, _ =>
    report .undefinedSymbol callee.span ["'super(...)' is only valid in a subclass constructor"]
    inferArguments c args
    return .unknown

def inferCall (c : Checker) (e callee : Expr) (targs : List TypeExpr) (args : List Expr)
    (optional : Bool) (expected : Option Ty) : Check Ty := do
  if isSuper callee then return ← inferSuperCall c e callee args
  let t ← c.expr callee none
  if t.isUnknown then
    inferArguments c args
    return .unknown
  if t.hasNil && !optional && (← read).options.strictNullChecks then
    report .typeMismatch callee.span ["cannot invoke an object which is possibly nil"]
  match ← callable (if t.hasNil then t.removeNil else t) callee.span with
  | none =>
    inferArguments c args
    return .unknown
  | some f =>
    let (ret, inferred) ← applyCall c f { span := e.span, targs, args } expected
    noteArguments e.loc inferred
    return if optional && t.hasNil then ret.nullable else ret

/-- Whether the values of a type are strings. -/
def isStringLike (t : Ty) : Check Bool := do
  match ← structural t with
  | .lit (.str _) => return true
  | .prim .string => return true
  | _ => return false

/-- A method of strings: a function of the string library, whose first parameter is the string. -/
def stringMethod? (name : String) : Option Func :=
  match Prelude.string.find? name with
  | none => none
  | some m =>
    match m.type with
    | .func f => if f.params.isEmpty then none else some { f with params := f.params.tail }
    | _ => none

def methodSignature (loc : Loc) (receiver : Expr) (t : Ty) (method : String) :
    Check (Option Func) := do
  if ← isStringLike t then
    let f := stringMethod? method
    if f.isNone then missingMember .string method loc.span
    return f
  let base ← receiverBase t false receiver.span
  match ← findMember ⟨loc, isSuper receiver⟩ base method false loc.span with
  | none => return none
  | some (m, _) => callable m.readType loc.span

def inferMethodCall (c : Checker) (e receiver : Expr) (method : String) (targs : List TypeExpr)
    (args : List Expr) (expected : Option Ty) : Check Ty := do
  let t ← c.expr receiver none
  let signature ← if t.isUnknown then pure none else methodSignature e.loc receiver t method
  match signature with
  | none =>
    inferArguments c args
    return .unknown
  | some f =>
    let (ret, inferred) ← applyCall c f { span := e.span, targs, args } expected
    noteArguments e.loc inferred
    return ret

/-- The class that a name stands for, which differs from the name for renamed imports. -/
def classNamed (name : String) : Check String := do
  match ← lookup? name with
  | some { kind := .classType, type := some (.classRef n), .. } => return n
  | _ => return name

/-- The name of the member that visibility of construction is recorded under. -/
def constructorName : String := "constructor"

/-- The type of `new C(…)`. -/
def inferNew (c : Checker) (e : Expr) (written : String) (targs : List TypeExpr)
    (args : List Expr) (expected : Option Ty) : Check Ty := do
  let name ← classNamed written
  match (← get).env.class? name with
  | none =>
    report .undefinedSymbol e.span ["undefined class", written]
    inferArguments c args
    return .unknown
  | some shape =>
    if shape.abstract then
      report .abstractMember e.span ["cannot create an instance of abstract class", written]
    match (← get).classes.checkMember (← currentClass) name constructorName with
    | .ok _ => pure ()
    | .error err => reportAccess err e.span
    noteReceiver e.loc ⟨name, true⟩
    let ctor := (← get).env.constructor name
    let site : CallSite := { span := e.span, targs, args }
    if shape.params.isEmpty then
      let _ ← applyCall c ctor site none
      return .ref name []
    let self := Ty.ref name (typeParamRefs shape.params)
    let generic := { ctor with tparams := shape.params, ret := some self }
    let (ret, inferred) ← applyCall c generic site expected
    noteArguments e.loc inferred
    return ret

end TreeCheck.Check
