import TreeCheck.Flow.Context
import TreeCheck.Flow.Narrow
import TreeCheck.Syntax.Reference

/-!
# Conditions as guards

* `Guard.narrow` — the contexts in which a condition is true and in which it is false.

The types of the expressions inside the condition are those noted when it was checked.  A reference
that is already refined has its refined type.
-/

namespace TreeCheck

/-- What guards need to know: how names expand, and the noted types of expressions. -/
structure Guard where
  resolver : Resolver
  typeOf : Expr → Option Ty

namespace Guard

/-- The name of the function that gives the kind of a value at run time. -/
def typeFunction : String := "type"

/-- The current type of an expression. -/
def current (g : Guard) (e : Expr) (c : Context) : Ty :=
  ((e.key?.bind c.get?).or (g.typeOf e)).getD .unknown

/-- A pair of contexts with a reference refined in both. -/
def refineBoth (cs : Context × Context) (key : String) (thenType elseType : Ty) :
    Context × Context :=
  (cs.1.refine key (some thenType), cs.2.refine key (some elseType))

/-- The single argument of a call that asks for the kind of a value at run time. -/
def typeArgument? (callee : Expr) (args : List Expr) : Option Expr :=
  match callee.form, args with
  | .ident f, [arg] => if f = typeFunction then some arg else none
  | _, _ => none

/-- `x == c`: the reference is the constant, and what it is a property of is narrowed too. -/
def equalsConstant (g : Guard) (ref other : Expr) (c : Context) (cs : Context × Context) :
    Query (Context × Context) := do
  match other.constant?, ref.key? with
  | some lit, some key =>
    let cs ← match ref.unparen.form with
      | .member o name false =>
        match o.key? with
        | some base => do
          let t := g.current o c
          let yes ← discriminate g.resolver t name lit true
          let no ← discriminate g.resolver t name lit false
          pure (refineBoth cs base yes no)
        | none => pure cs
      | _ => pure cs
    let t := g.current ref c
    let yes ← narrowTo g.resolver t lit
    let no := (← spread g.resolver t).without lit
    return refineBoth cs key yes no
  | _, _ => return cs

/-- `type(x) == "name"`. -/
def equalsTypeName (g : Guard) (arg : Expr) (name : String) (c : Context)
    (cs : Context × Context) : Query (Context × Context) := do
  match arg.key? with
  | some key =>
    let t := g.current arg c
    let yes ← ofRuntimeType g.resolver t name
    let no ← notOfRuntimeType g.resolver t name
    return refineBoth cs key yes no
  | none => return cs

/-- An equality test; a constant may stand on either side. -/
def equality (g : Guard) (left right : Expr) (c : Context) (cs : Context × Context) :
    Query (Context × Context) :=
  let (ref, other) := if left.constant?.isSome then (right, left) else (left, right)
  match ref.form with
  | .call callee _ args _ =>
    match other.form, typeArgument? callee args with
    | .string name, some arg => g.equalsTypeName arg name c cs
    | _, _ => pure cs
  | _ => g.equalsConstant ref other c cs

/-- Whether a type is an instance of a class, or of one below it. -/
def isInstance (g : Guard) (className : String) : Ty → Bool
  | .ref n _ => g.resolver.isClass n && g.resolver.isSubclass n className
  | _ => false

def instanceOf (g : Guard) (left right : Expr) (c : Context) (cs : Context × Context) :
    Query (Context × Context) := do
  match left.key?, right.unparen.form with
  | some key, .ident className =>
    if g.resolver.isClass className then
      let t := g.current left c
      let yes ← narrowTo g.resolver t (.ref className [])
      let no := (← spread g.resolver t).filter fun m => !g.isInstance className m
      return refineBoth cs key yes no
    else return cs
  | _, _ => return cs

/-- The signature of a callee, through a name. -/
def calleeType? (g : Guard) (callee : Expr) : Query (Option Ty) :=
  match g.typeOf callee with
  | some (.ref n args) => do return some ((← g.resolver.expand (.ref n args)).getD (.ref n args))
  | t => pure t

/-- The first argument that is passed to the parameter of a name. -/
def argumentOf? (name : String) : List Param → List Expr → Option Expr
  | p :: ps, a :: as => if p.name = name then some a else argumentOf? name ps as
  | _, _ => none

/-- A call of a type predicate. -/
def predicateCall (g : Guard) (callee : Expr) (args : List Expr) (c : Context)
    (cs : Context × Context) : Query (Context × Context) := do
  match ← g.calleeType? callee with
  | some (.func f) =>
    match f.ret with
    | some (.pred param target) =>
      match argumentOf? param f.params args with
      | some arg =>
        match arg.key? with
        | some key =>
          let t := g.current arg c
          let yes ← narrowTo g.resolver t target
          let no ← remove g.resolver t target
          return refineBoth cs key yes no
        | none => return cs
      | none => return cs
    | _ => return cs
  | _ => return cs

def truth (g : Guard) (e : Expr) (c : Context) (cs : Context × Context) :
    Query (Context × Context) := do
  match e.key? with
  | some key =>
    let t ← spread g.resolver (g.current e c)
    return refineBoth cs key t.truthy t.falsy
  | none => return cs

/-- The contexts in which a condition is true and in which it is false. -/
def narrow (g : Guard) : Expr → Context → Query (Context × Context)
  | ⟨_, .paren e⟩, c => narrow g e c
  | ⟨_, .bool b⟩, c =>
    return if b then (c.child, c.child.markUnreachable) else (c.child.markUnreachable, c.child)
  | ⟨_, .nil⟩, c => return (c.child.markUnreachable, c.child)
  | ⟨_, .unary .not e⟩, c => do return (← narrow g e c).swap
  | ⟨_, .binary .and l r⟩, c => do
    let (leftThen, leftElse) ← narrow g l c
    let (rightThen, rightElse) ← narrow g r leftThen
    return (rightThen, leftElse.merge rightElse)
  | ⟨_, .binary .or l r⟩, c => do
    let (leftThen, leftElse) ← narrow g l c
    let (rightThen, rightElse) ← narrow g r leftElse
    return (leftThen.merge rightThen, rightElse)
  | ⟨_, .binary .eq l r⟩, c => g.equality l r c (c.child, c.child)
  | ⟨_, .binary .ne l r⟩, c => do return (← g.equality l r c (c.child, c.child)).swap
  | ⟨_, .binary .instanceOf l r⟩, c => g.instanceOf l r c (c.child, c.child)
  | ⟨_, .call callee _ args _⟩, c => g.predicateCall callee args c (c.child, c.child)
  | e, c => g.truth e c (c.child, c.child)

end Guard

end TreeCheck
