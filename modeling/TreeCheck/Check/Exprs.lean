import TreeCheck.Check.Functions
import TreeCheck.Check.Literals
import TreeCheck.Check.Operators

/-!
# Expressions

* `infer` — the type of an expression by its form;
* `inferExpr` — the same, noted with the expression.
-/

namespace TreeCheck.Check

def inferIdent (e : Expr) (name : String) : Check Ty := do
  match ← lookup? name with
  | none =>
    undefinedName name e.span
    return .unknown
  | some sym =>
    let t := sym.type.getD .unknown
    match sym.kind, t with
    | .classType, .classRef _ => return t
    | _, _ => refined e t

/-- The type of `self`. -/
def inferSelf (e : Expr) : Check Ty := do
  match ← lookup? selfName with
  | none =>
    report .undefinedSymbol e.span ["'self' used outside a method"]
    return .unknown
  | some sym =>
    match (← get).frame.side with
    | some side => noteReceiver e.loc side
    | none => pure ()
    refined e (sym.type.getD .unknown)

/-- The type of `super`. -/
def inferSuper (e : Expr) : Check Ty := do
  match ← parentClass? with
  | none =>
    report .undefinedSymbol e.span ["'super' used outside a subclass"]
    return .unknown
  | some parent =>
    let static := ((← get).frame.side.map (·.static)).getD false
    noteReceiver e.loc ⟨parent.name, static⟩
    return if static then .classRef parent.name else parent.toTy

/-- The type of `...`. -/
def inferVararg (span : Span) : Check Ty := do
  match (← get).frame.function.bind (·.vararg) with
  | some t => return t
  | none =>
    report .undefinedSymbol span ["'...' used outside a variadic function"]
    return .unknown

/-- The type of an assertion; the two types have to overlap. -/
def inferAssertion (c : Checker) (span : Span) (inner : Expr) (type : Option TypeExpr) :
    Check Ty := do
  let source ← c.expr inner none
  let target ← buildOrUnknown type
  let overlap ← do if ← assignable source target then pure true else assignable target source
  if !overlap then
    report .typeMismatch span
      ["conversion of type", quoted source, "to type", quoted target,
        "may be a mistake: neither type sufficiently overlaps with the other"]
  return target

/-- The type of a choice between two values. -/
def inferConditional (c : Checker) (cond thenValue elseValue : Expr) (expected : Option Ty) :
    Check Ty := do
  let _ ← c.expr cond none
  let (yes, no) ← branches cond (← context)
  let a ← under yes (c.expr thenValue expected)
  let b ← under no (c.expr elseValue expected)
  return Ty.unionOf [a, b]

/-- The type of a value with a fallback for errors. -/
def inferAttempt (c : Checker) (span : Span) (value : Expr) (errorName : Option String)
    (fallback : Expr) (expected : Option Ty) : Check Ty := do
  let t ← c.expr value expected
  let u ← withBlock do
    match errorName with
    | some name => declare { name, type := some .unknown, span, isMutable := true }
    | none => pure ()
    c.expr fallback expected
  return Ty.unionOf [t, u]

/-- The type of an expression by its form. -/
def infer (c : Checker) (e : Expr) (expected : Option Ty) : Check Ty :=
  match e.form with
  | .bad => pure .unknown
  | .ident name => inferIdent e name
  | .nil => pure .nil
  | .bool b => pure (.bool b)
  | .number n _ => pure (.num n)
  | .string s => pure (.str s)
  | .template parts => do
    inferArguments c parts
    return .string
  | .vararg => inferVararg e.span
  | .binary op l r => inferBinary c op e.span l r expected
  | .unary op operand => inferUnary c op operand
  | .call callee targs args optional => inferCall c e callee targs args optional expected
  | .methodCall receiver method targs args => inferMethodCall c e receiver method targs args expected
  | .member object name optional => inferMember c e object name optional
  | .index object index optional => inferIndex c e.loc object index optional false
  | .object fields => inferObject c fields expected
  | .array elements => inferArray c elements expected
  | .spread value => do spreadElement (← c.expr value none) e.span
  | .function f => inferFunction c f expected
  | .conditional cond a b => inferConditional c cond a b expected
  | .cases subject arms => inferMatch c e.span subject arms expected
  | .paren inner => c.expr inner expected
  | .self => inferSelf e
  | .super => inferSuper e
  | .assertion inner type => inferAssertion c e.span inner type
  | .new name targs args => inferNew c e name targs args expected
  | .attempt value name fallback => inferAttempt c e.span value name fallback expected
  | .errorChain l r => do
    let a ← c.expr l expected
    let b ← c.expr r expected
    return Ty.unionOf [a, b]

/-- The type of an expression, noted with it. -/
def inferExpr (c : Checker) (e : Expr) (expected : Option Ty) : Check Ty := do
  let t ← infer c e expected
  noteType e.loc t
  return t

end TreeCheck.Check
