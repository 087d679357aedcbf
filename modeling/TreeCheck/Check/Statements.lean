import TreeCheck.Check.Classes
import TreeCheck.Check.Exprs

/-!
# Statements

* `checkBinding`, `checkAssignment` — variables; a reference of a union type is refined to the members
  that the assigned value can have;
* `checkReturn` — returned values;
* `declareNested` — type and class declarations inside functions and blocks.
-/

namespace TreeCheck.Check

/-! ### Variables -/

/-- The type that a variable takes from its initial value: constants are widened, and a bare `nil`
says nothing. -/
def widenDeclared (t : Ty) : Ty := if t.isNil then .unknown else t.widen

/-- The members of a union-typed reference that an assigned value can have; `none` when that tells
nothing. -/
def narrowOnAssign (declared value : Ty) : Check (Option Ty) := do
  let t ← spreadOut declared
  if t.members.length < 2 || value.isUnknown then return none
  let kept ← t.filterM fun m => value.members.anyM fun v => assignable v m
  return if kept.isNever then none else some kept

/-- A declaration of variables or constants. -/
def checkBinding (c : Checker) (isConst : Bool) (target : Pattern) (type : Option TypeExpr)
    (value : Expr) : Check Unit := do
  let declared ← buildOption type
  let v ← c.expr value declared
  match declared with
  | some d => expectAssignable v d value.span
  | none => pure ()
  let t := declared.getD (if isConst then v else widenDeclared v)
  match target.form with
  | .ident name =>
    bindName name t target.span !isConst
    match declared with
    | some d =>
      match ← narrowOnAssign d v with
      | some refined => modifyContext (·.refine name (some refined))
      | none => pure ()
    | none => pure ()
  | _ => bindPattern (!isConst) target t

/-- Whether a constructor sets a readonly member of its own class through `self`. -/
def isInitializing (object : Expr) (owner : String) : Check Bool := do
  let frame := (← get).frame
  let inConstructor := (frame.function.map (·.isConstructor)).getD false
  let isSelf := match object.form with
    | .self => true
    | _ => false
  return inConstructor && (frame.side.map (·.name)) == some owner && isSelf

/-- A variable on the left of an assignment. -/
def assignIdent (loc : Loc) (name : String) : Check (Option Ty) := do
  match ← lookup? name with
  | none =>
    undefinedName name loc.span
    return none
  | some sym =>
    let t := sym.type.getD .unknown
    noteType loc t
    if sym.kind ≠ .variable && sym.kind ≠ .parameter then
      report .readonlyAssignment loc.span ["cannot assign to", sym.kind.text, name]
      return none
    if !sym.isMutable then
      report .readonlyAssignment loc.span ["cannot assign to constant", name]
      return none
    return some t

/-- The left side of an assignment: its declared type, or `none` when nothing can be assigned. -/
def assignTarget (c : Checker) : Expr → Check (Option Ty)
  | ⟨loc, .ident name⟩ => assignIdent loc name
  | ⟨loc, .member object name optional⟩ => do
    match (← memberAccess c loc object name optional true).2 with
    | none => return none
    | some (m, owner) =>
      if m.readonly && !(← isInitializing object owner) then
        report .readonlyAssignment loc.span ["cannot assign to readonly property", name]
      return some m.readType
  | ⟨loc, .index object index optional⟩ => return some (← inferIndex c loc object index optional true)
  | ⟨_, .paren inner⟩ => assignTarget c inner
  | e => do
    let _ ← c.expr e none
    report .typeMismatch e.span ["invalid assignment target"]
    return none

def checkAssignment (c : Checker) (span : Span) (target : Expr) (op : Option BinOp) (value : Expr) :
    Check Unit := do
  let declared ← assignTarget c target
  let v ← match op with
    | some op => do
      let r ← c.expr value none
      arithmetic op (declared.getD .unknown) r span
    | none => c.expr value declared
  match declared with
  | none => pure ()
  | some d =>
    expectAssignable v d value.span
    match target.key? with
    | none => pure ()
    | some key =>
      match ← narrowOnAssign d v with
      | some refined => modifyContext (·.refine key (some refined))
      | none => modifyContext (·.invalidate key)

/-! ### Functions -/

/-- The type that is expected of the `i`-th of `n` returned values. -/
def expectedReturn (declared : Option Ty) (i n : Nat) : Option Ty :=
  if n = 1 then declared
  else
    match declared with
    | some (.tuple es) => es[i]?
    | _ => none

def returnSpan : List Expr → Span
  | [] => {}
  | [e] => e.span
  | e :: es => e.span.cover ((es.getLast?.map (·.span)).getD {})

def checkReturned (c : Checker) (span : Span) (fn : FunctionFrame) (values : List Expr) :
    Check Unit := do
  let types ← values.zipIdx.mapM fun v => c.expr v.1 (expectedReturn fn.declared v.2 values.length)
  let got := Ty.packed types
  match fn.declared with
  | none => modifyFunction fun f => { f with returns := f.returns ++ [got] }
  | some d =>
    if values.isEmpty then
      if !d.admitsNoValue then
        if !(← assignable .nil d) then
          report .typeMismatch span ["function must return a value of type", quoted d]
    else expectAssignable got d (returnSpan values)

def checkReturn (c : Checker) (span : Span) (values : List Expr) : Check Unit := do
  match (← get).frame.function with
  | none =>
    inferArguments c values
    if !(← get).symbols.isModuleScope || !values.isEmpty then
      report .invalidReturn span ["return outside a function"]
  | some fn =>
    if fn.isConstructor && !values.isEmpty then
      report .invalidReturn span ["a constructor cannot return a value"]
    else checkReturned c span fn values
  leave

/-- The signature that a function was declared with at the top level. -/
def topLevelSignature (name : String) : Check Func := do
  match ← lookup? name with
  | some { kind := .function, type := some (.func sig), .. } => return sig
  | _ => return {}

/-- A function declaration.  At the top level the function was declared ahead. -/
def checkFunctionDecl (c : Checker) (span : Span) (name : String) (f : FunctionExpr) :
    Check Unit := do
  let sig ← if (← get).symbols.isModuleScope then topLevelSignature name
    else do
      let sig ← declaredSignature f
      modifyContext (·.invalidate name)
      declare { name, kind := .function, type := some (.func sig), span }
      pure sig
  let got ← checkFunctionBody c f sig none false f.ret.isNone
  if f.ret.isNone then
    match (← get).symbols.update name (some (.func got)) with
    | .ok symbols => modify fun s => { s with symbols }
    | .error _ => pure ()

/-! ### Nested declarations -/

/-- A type or class declaration inside a function or block. -/
def declareNested (c : Checker) (s : Stmt) : Check Unit := do
  match s.form with
  | .typeAlias name tparams type =>
    nameAlias s.loc name tparams
    if ← isOwner name s.loc then
      resolveAlias name tparams type
      validateAlias s.loc name
  | .interface name tparams bases body =>
    nameInterface s.loc name tparams
    resolveInterface s.loc name tparams bases body
  | .enum name members => nameEnum s.loc name members
  | .class d =>
    nameClass s.loc d
    if ← isOwner d.name s.loc then
      resolveClass d
      checkHierarchy s.loc d
      checkClassBodies c d
  | _ => pure ()

end TreeCheck.Check
