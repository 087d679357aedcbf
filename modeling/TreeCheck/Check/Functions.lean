import TreeCheck.Check.Calls

/-!
# Functions

* `checkFunctionBody` — checks a body against a signature, and completes a signature whose result
  type is inferred from the returned values;
* `inferFunction` — the type of a function expression; the type that is expected of it supplies
  parameter types and the result type.
-/

namespace TreeCheck.Check

/-- Change what is known about the function being checked. -/
def modifyFunction (f : FunctionFrame → FunctionFrame) : Check Unit :=
  modifyFrame fun fr => { fr with function := fr.function.map f }

/-- Do a step inside a function: nothing is refined there, and loops and handlers around it do not
reach inside. -/
def withFunction {α : Type} (frame : FunctionFrame) (act : Check α) : Check α := do
  let trail := (← get).trail
  let around := (← get).frame
  setContext {}
  modifyFrame fun fr => { function := some frame, side := fr.side }
  let a ← withScope .function act
  modify fun s => { s with trail, frame := around }
  return a

/-- The names under which a rest parameter is only reached by `...`. -/
def isUnnamedRest (name : String) : Bool := name = "" || name = "..."

/-- Check the default of a parameter and declare it. -/
def declareParam (c : Checker) (t : Ty) (p : ParamDeclOf TypeExpr Expr) : Check Unit := do
  if p.type.isNone && t.isUnknown && (← read).options.noImplicitUnknown then
    warn .implicitUnknown p.span ["parameter", p.name, "implicitly has type unknown"]
  match p.default with
  | some d =>
    let u ← c.expr d (some t)
    expectAssignable u t d.span
  | none => pure ()
  if p.rest && isUnnamedRest p.name then modifyFunction ({ · with vararg := some t })
  else
    let own := if p.rest then .array t
      else if p.optional && p.default.isNone then t.nullable
      else t
    declare { name := p.name, kind := .parameter, type := some own, span := p.span, isMutable := true }

/-- The body of a function, or the expression that is its result. -/
def checkResult (c : Checker) (f : FunctionExpr) (declared : Option Ty) : Check Unit := do
  match f.result, f.body with
  | some e, _ =>
    let t ← c.expr e declared
    match declared with
    | some d => expectAssignable t d e.span
    | none => modifyFunction fun fr => { fr with returns := fr.returns ++ [t] }
    modifyContext (·.markUnreachable)
  | none, some b => b.stmts.forM c.stmt
  | none, none => pure ()

/-- A function with a declared result must not end without a value. -/
def checkEnd (declared : Ty) (reachesEnd isConstructor : Bool) (span : Span) : Check Unit := do
  if reachesEnd && !isConstructor && !declared.admitsNoValue then
    if !(← assignable .nil declared) then
      report .typeMismatch span
        ["function lacks an ending return statement and its return type", quoted declared,
          "does not include nil"]

/-- The result type that the returned values give. -/
def inferredResult (returns : List Ty) (reachesEnd : Bool) : Ty :=
  if returns.isEmpty then .void
  else (Ty.unionOf (if reachesEnd then returns ++ [.nil] else returns)).widen

/-- Check a function against its signature.  With `infer` the result type is that of the returned
values. -/
def checkFunctionBody (c : Checker) (f : FunctionExpr) (sig : Func) (self : Option Ty)
    (isConstructor infer : Bool) : Check Func :=
  withParams sig.tparams do
    let declared := if infer then none else some (sig.ret.getD .unknown)
    withFunction { declared, isConstructor } do
      match self with
      | some t => declare { name := selfName, kind := .parameter, type := some t, span := f.loc.span }
      | none => pure ()
      f.params.zipIdx.forM fun p =>
        declareParam c (((sig.params[p.2]?).map (·.type)).getD .unknown) p.1
      checkResult c f declared
      let reachesEnd := !(← context).unreachable
      match declared with
      | some d =>
        checkEnd d reachesEnd isConstructor f.loc.span
        return sig
      | none =>
        let returns := ((← get).frame.function.map (·.returns)).getD []
        return { sig with ret := some (inferredResult returns reachesEnd) }

/-- The signature that is expected of a function. -/
def expectedSignature? (expected : Option Ty) : Check (Option Func) := do
  match expected with
  | none => return none
  | some t =>
    match ← structural t with
    | .func f => return if f.tparams.isEmpty then some f else none
    | _ => return none

def inferFunction (c : Checker) (f : FunctionExpr) (expected : Option Ty) : Check Ty := do
  let want ← expectedSignature? expected
  let sig ← buildSignature f.tparams f.params f.ret want
  let given := if f.ret.isSome then none
    else (want.bind (·.ret)).filter fun r => !r.isUnknown && r.isClosed
  match given with
  | some r => return .func (← checkFunctionBody c f { sig with ret := some r } none false false)
  | none => return .func (← checkFunctionBody c f sig none false f.ret.isNone)

end TreeCheck.Check
