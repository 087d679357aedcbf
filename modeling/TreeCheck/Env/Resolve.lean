import TreeCheck.Env.Utility
import TreeCheck.Generic.Bind

/-!
# Resolving names

* `Env.resolve` — the structure that a reference stands for: aliases instantiated, interfaces
  with what they extend, classes with what they inherit, utilities applied.  References inside the
  result stay.  A name that is met again while it is being resolved is a recursive alias.
* `Env.structural` — references at the head, and inside unions and intersections, expanded until
  none is left there;
* `Env.instanceType` — the members of a class instance;
* `Env.resolver` — the environment as the resolver of comparisons.
-/

namespace TreeCheck

/-- Type arguments of a named type, with the number checked. -/
def bindNamed (name : String) (params : List TypeParam) (args : List Ty) : Lookup Subst := do
  if argumentCountFits params args then
    let s ← ExceptT.lift (bindParams params args [])
    return s
  else throw (.arity name (requiredTypeParams params) params.length args.length)

namespace Env

/-- How many references in a row `structural` follows. -/
def maxReferences : Nat := 64

/-- What a type expands to as a name, given how references are resolved. -/
def expandWith (e : Env) (resolve : String → List Ty → Lookup Ty) : Ty → Query (Option Ty)
  | .ref n args => do
    match ← (resolve n args).run with
    | .ok t => return some t
    | .error _ => return none
  | .classRef n =>
    match e.staticType n with
    | .ok o => pure (some (.object o))
    | .error _ => pure none
  | t => pure (some t)

/-- The environment as a resolver, given how references are resolved. -/
def resolverWith (e : Env) (resolve : String → List Ty → Lookup Ty) : Resolver where
  expand := e.expandWith resolve
  isClass := e.isClass
  isSubclass := e.isSubclass
  bound := e.bound?

/-- The members of an interface with those of the interfaces that it extends. -/
def interfaceWith (resolve : String → List Ty → Lookup Ty) (i : Interface) (args : List Ty) :
    Lookup Object := do
  let s ← bindNamed i.name i.params args
  let inherited ← i.bases.foldlM (fun (o : Object) (b : TypeRef) => do
    let b := b.apply s
    match ← resolve b.name b.args with
    | .object p => return o.extend p
    | _ => return o) {}
  return inherited.extend (i.body.apply s)

/-- The members of a class instance with those that the class inherits.  A generic class named
without arguments keeps its parameters. -/
def instanceWith (resolve : String → List Ty → Lookup Ty) (c : ClassShape) (args : List Ty) :
    Lookup Object := do
  let s ← if args.isEmpty && !c.params.isEmpty then pure [] else bindNamed c.name c.params args
  let inherited ← match c.parent with
    | none => pure {}
    | some p => do
      let p := p.apply s
      match ← resolve p.name p.args with
      | .object o => pure o
      | _ => pure {}
  return inherited.extend (c.instanceSide.apply s)

/-- The arguments of a utility in structural form, or `none` when one of them has a free type
variable and the utility has to wait. -/
def utilityArgs (structural : Ty → Lookup Ty) : List Ty → Lookup (Option (List Ty))
  | [] => pure (some [])
  | a :: as => do
    if !a.isClosed then return none
    let a ← structural a
    return (← utilityArgs structural as).map (a :: ·)

/-- Apply a utility to structural arguments. -/
def applyUtility (r : Resolver) (name : String) (args : List Ty) : Lookup Ty := do
  match name, args with
  | "Exclude", [t, u] => ExceptT.lift (t.filterM fun m => return !(← isAssignable (some r) m u))
  | "Extract", [t, u] => ExceptT.lift (t.filterM fun m => isAssignable (some r) m u)
  | _, _ =>
    match Utility.structural? name args with
    | some result => ExceptT.mk (pure result)
    | none => throw (.unknownType name)

/-- A utility reference: its structure, or the reference itself while it has to wait. -/
def utilityWith (e : Env) (resolve : String → List Ty → Lookup Ty) (structural : Ty → Lookup Ty)
    (name : String) (args : List Ty) : Lookup Ty := do
  let want := (utilities.get? name).getD 0
  if args.length ≠ want then throw (.arity name want want args.length)
  match ← utilityArgs structural args with
  | none => return .ref name args
  | some args => applyUtility (e.resolverWith resolve) name args

mutual
/-- Resolve a reference to a given depth; `active` are the names being resolved. -/
def resolveUpTo (e : Env) : Nat → List String → String → List Ty → Lookup Ty
  | 0, _, _, _ => ExceptT.lift (throw .outOfFuel)
  | n + 1, active, name, args =>
    match builtin? name with
    | some t => if args.isEmpty then pure t else throw (.arity name 0 0 args.length)
    | none =>
      if isUtility name then
        e.utilityWith (e.resolveUpTo n active) (e.structuralUpTo n active maxReferences) name args
      else if active.contains name then throw (.recursiveAlias name [name, name])
      else
        let resolve := e.resolveUpTo n (name :: active)
        match e.alias? name with
        | some a => do
          let s ← bindNamed name a.params args
          match a.body.apply s with
          | .ref inner innerArgs => resolve inner innerArgs
          | body => return body
        | none =>
          match e.interface? name with
          | some i => .object <$> interfaceWith resolve i args
          | none =>
            match e.class? name with
            | some c => .object <$> instanceWith resolve c args
            | none => throw (.unknownType name)

/-- Expand references at the head of a type to a given depth; `left` counts the references in a
row that may still be followed. -/
def structuralUpTo (e : Env) : Nat → List String → Nat → Ty → Lookup Ty
  | 0, _, _, _ => ExceptT.lift (throw .outOfFuel)
  | _ + 1, _, 0, _ => pure .unknown
  | n + 1, active, left + 1, t =>
    match t with
    | .ref name args => do e.structuralUpTo n active left (← e.resolveUpTo n active name args)
    | .classRef name =>
      match e.staticType name with
      | .ok o => pure (.object o)
      | .error err => throw err
    | .union ts => do return Ty.unionOf (← ts.mapM (e.structuralUpTo n active maxReferences))
    | .inter ts => do return Ty.interOf (← ts.mapM (e.structuralUpTo n active maxReferences))
    | t => pure t
end

/-- The number of definitions, each of which is met once at most while a name is resolved. -/
def definitions (e : Env) : Nat := e.aliases.length + e.interfaces.length + e.classes.length

/-- The depth allowed to a question about a type. -/
def depthFor (e : Env) (t : Ty) : Nat := 4 * t.size + queryDepth + e.definitions

/-- The structure that a reference stands for. -/
def resolve (e : Env) (name : String) (args : List Ty) : Lookup Ty :=
  e.resolveUpTo (e.depthFor (.ref name args)) [] name args

/-- The type with references at its head expanded. -/
def structural (e : Env) (t : Ty) : Lookup Ty :=
  e.structuralUpTo (e.depthFor t) [] maxReferences t

/-- What a type expands to as a name. -/
def expand (e : Env) (t : Ty) : Query (Option Ty) := e.expandWith e.resolve t

/-- The members of an instance of a class. -/
def instanceType (e : Env) (name : String) (args : List Ty) : Lookup Object :=
  match e.class? name with
  | some c => instanceWith e.resolve c args
  | none => throw (.unknownType name)

def resolver (e : Env) : Resolver := e.resolverWith e.resolve

end Env

end TreeCheck
