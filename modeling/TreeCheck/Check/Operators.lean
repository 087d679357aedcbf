import TreeCheck.Check.Calls

/-!
# Operators

* `inferBinary`, `inferUnary` — the types of operator expressions;
* `arithmetic` — the result of an arithmetic operator, also in compound assignments: integers stay
  integers, except under division and powers;
* `isComparable` — whether two types share a value, so that a test for equality can succeed.
-/

namespace TreeCheck.Check

/-- Report an operand that is no number; gives whether it is fine. -/
def expectNumeric (t : Ty) (span : Span) (op : String) : Check Bool := do
  if t.isUnknown then return true
  if ← assignable t .number then return true
  report .typeMismatch span ["operator", op, "cannot be applied to type", quoted t]
  return false

/-- Whether values of a type can be joined to text. -/
def isConcatenable (t : Ty) : Check Bool := do
  if t.isUnknown then return true
  assignable t (Ty.unionOf [.string, .number])

/-- The result of an arithmetic operator; the place is that of the whole operation. -/
def arithmetic (op : BinOp) (l r : Ty) (span : Span) : Check Ty := do
  if op = .concat then
    let left ← isConcatenable l
    let right ← isConcatenable r
    if !left || !right then
      report .typeMismatch span
        ["operator '..' cannot be applied to types", quoted l, "and", quoted r]
    return .string
  let left ← expectNumeric l span op.text
  let right ← expectNumeric r span op.text
  if !left || !right || op = .div || op = .pow then return .number
  return if l.isIntegral && r.isIntegral then .integer else .number

/-- Whether two types share a value. -/
def isComparable (l r : Ty) : Check Bool := do
  if l.isUnknown || r.isUnknown then return true
  let ls := (← spreadOut l).members
  let rs := (← spreadOut r).members
  ls.anyM fun a => rs.anyM fun b => do
    if ← assignable a b then return true else assignable b a

/-- An ordering test compares two numbers or two strings. -/
def checkOrdering (op : BinOp) (l r : Ty) (span : Span) : Check Unit := do
  let both (t : Ty) : Check Bool := do if ← assignable l t then assignable r t else return false
  let fits ← do if ← both .number then pure true else both .string
  if !fits && !l.isUnknown && !r.isUnknown then
    report .typeMismatch span
      ["operator", op.text, "cannot be applied to types", quoted l, "and", quoted r]

/-- Report an operand that cannot be joined to text. -/
def expectConcatenable (t : Ty) (span : Span) : Check Unit := do
  if !(← isConcatenable t) then
    report .typeMismatch span ["type", quoted t, "cannot be concatenated"]

/-- The result of an operator whose operands are both evaluated. -/
def strictBinary (op : BinOp) (span : Span) (left right : Expr) (l r : Ty) : Check Ty := do
  match op with
  | .add | .sub | .mul | .div | .intDiv | .mod | .pow => arithmetic op l r span
  | .concat =>
    expectConcatenable l left.span
    expectConcatenable r right.span
    return .string
  | .eq | .ne =>
    if !(← isComparable l r) then
      report .typeMismatch span
        ["this comparison appears to be unintentional because the types", quoted l, "and", quoted r,
          "have no overlap"]
    return .boolean
  | .lt | .le | .gt | .ge =>
    checkOrdering op l r span
    return .boolean
  | .bitAnd | .bitOr | .bitXor | .shl | .shr =>
    let _ ← expectNumeric l left.span op.text
    let _ ← expectNumeric r right.span op.text
    return .integer
  | .instanceOf =>
    match r with
    | .classRef _ => pure ()
    | _ =>
      if !r.isUnknown then
        report .typeMismatch right.span
          ["the right-hand side of 'instanceof' must be a class, got", quoted r]
    return .boolean
  | _ => return .unknown

/-- `and` and `or`: the right operand is checked where it is evaluated. -/
def inferLogical (c : Checker) (isAnd : Bool) (left right : Expr) (expected : Option Ty) :
    Check Ty := do
  let l ← c.expr left expected
  let (yes, no) ← branches left (← context)
  let r ← under (if isAnd then yes else no) (c.expr right expected)
  return Ty.unionOf [if isAnd then l.falsy else l.truthy, r]

/-- `x |> f` is the call `f(x)`. -/
def inferPipe (c : Checker) (span : Span) (left right : Expr) (expected : Option Ty) :
    Check Ty := do
  let arg ← c.expr left none
  let callee ← c.expr right none
  if callee.isUnknown then return .unknown
  match ← structural callee with
  | .func f =>
    let site : CallSite := { span, leading := [arg], leadingSpan := left.span }
    return (← applyCall c f site expected).1
  | _ =>
    report .typeMismatch right.span ["type", quoted callee, "is not callable"]
    return .unknown

/-- The type of an operator between two operands. -/
def inferBinary (c : Checker) (op : BinOp) (span : Span) (left right : Expr)
    (expected : Option Ty) : Check Ty := do
  match op with
  | .and => inferLogical c true left right expected
  | .or => inferLogical c false left right expected
  | .pipe => inferPipe c span left right expected
  | .coalesce =>
    let l ← c.expr left none
    let r ← c.expr right expected
    return Ty.unionOf [l.removeNil, r]
  | _ =>
    let l ← c.expr left none
    let r ← c.expr right none
    strictBinary op span left right l r

/-- A value with a length: a sequence, a string or a table. -/
def checkLength (t : Ty) (span : Span) : Check Unit := do
  match ← structural t with
  | .array _ => pure ()
  | .tuple _ => pure ()
  | _ =>
    if t.isUnknown then return
    if ← assignable t .string then return
    if ← assignable t .table then return
    report .typeMismatch span ["cannot take the length of type", quoted t]

/-- The type of an operator before its operand. -/
def inferUnary (c : Checker) (op : UnOp) (operand : Expr) : Check Ty := do
  let t ← c.expr operand none
  match op with
  | .not => return .boolean
  | .neg =>
    match t with
    | .lit (.num n) => return .num n.neg
    | _ =>
      let _ ← expectNumeric t operand.span op.text
      return if t.isIntegral then .integer else .number
  | .len =>
    checkLength t operand.span
    return .integer
  | .bitNot =>
    let _ ← expectNumeric t operand.span op.text
    return .integer
  | .other _ => return .unknown

end TreeCheck.Check
