import TreeCheck.Assign

/-!
# Type arguments

* `bindParams` — pair type parameters with arguments and fill up from defaults, which may refer to
  earlier parameters; a parameter with neither is a fault;
* `bindArgs` — the same with the number of arguments checked;
* `checkConstraints` — every argument must fit the constraint of its parameter.
-/

namespace TreeCheck

/-- What is wrong with a list of type arguments. -/
inductive ArgumentError where
  | arity (min max got : Nat)
  | constraint (param : String) (arg constraint : Ty)
deriving Repr, Inhabited

def ArgumentError.message : ArgumentError → String
  | .arity lo hi got =>
    if lo = hi then s!"expected {hi} type argument(s), got {got}"
    else s!"expected {lo} to {hi} type arguments, got {got}"
  | .constraint p arg c =>
    s!"type '{arg.text}' does not satisfy the constraint '{c.text}' of type parameter '{p}'"

/-- Extend the bindings `s` by the parameters: arguments by position, then defaults. -/
def bindParams : List TypeParam → List Ty → Subst → Query Subst
  | [], _, s => pure s
  | p :: ps, a :: as, s => bindParams ps as (s ++ [(p.name, a)])
  | p :: ps, [], s =>
    match p.default with
    | some d => bindParams ps [] (s ++ [(p.name, d.apply s)])
    | none => throw .missingDefault

/-- Whether the number of arguments fits: at least the parameters without default, and not more
than all. -/
def argumentCountFits (params : List TypeParam) (args : List Ty) : Bool :=
  decide (args.length ≤ params.length) && decide (requiredTypeParams params ≤ args.length)

def bindArgs (params : List TypeParam) (args : List Ty) : Query (Except ArgumentError Subst) := do
  if argumentCountFits params args then return .ok (← bindParams params args [])
  else return .error (.arity (requiredTypeParams params) params.length args.length)

/-- The first parameter whose argument does not fit its constraint. -/
def checkConstraints (r : Option Resolver) (s : Subst) :
    List TypeParam → Query (Except ArgumentError Unit)
  | [] => pure (.ok ())
  | p :: ps => do
    match p.constraint, s.get? p.name with
    | some c, some arg =>
      let c := c.apply s
      if ← isAssignable r arg c then checkConstraints r s ps
      else return .error (.constraint p.name arg c)
    | _, _ => checkConstraints r s ps

def instantiate (t : Ty) (params : List TypeParam) (args : List Ty) :
    Query (Except ArgumentError Ty) := do
  return (← bindArgs params args).map t.apply

end TreeCheck
