import TreeCheck.Query
import TreeCheck.Span
import TreeCheck.Ty.Print

/-!
# Named types

An environment holds the aliases, interfaces and classes of one module as they are written, and
the type parameters in scope.  Names are expanded elsewhere, on demand.

* `TypeRef`, `Alias`, `Interface`, `ClassShape` — the definitions;
* `Env` — the definitions by name, with the scopes of type parameters;
* `TypeError` — what can be wrong with a name or its arguments;
* `Env.addAlias`, `Env.addInterface`, `Env.addClass` — registration: a name is taken once, except
  that interfaces of one name are merged;
* `Env.isSubclass` — the class chain.
-/

namespace TreeCheck

/-- A reference to a named type. -/
structure TypeRef where
  name : String
  args : List Ty := []
deriving Repr, Inhabited

def TypeRef.toTy (r : TypeRef) : Ty := .ref r.name r.args

def TypeRef.text (r : TypeRef) : String := r.toTy.text

/-- The reference with its arguments substituted. -/
def TypeRef.apply (s : Subst) (r : TypeRef) : TypeRef := ⟨r.name, Ty.applyList s r.args⟩

/-- `type name<params> = body`. -/
structure Alias where
  name : String
  params : List TypeParam := []
  body : Ty
  span : Span := {}
deriving Repr, Inhabited

/-- `interface name<params> extends …` with its own members. -/
structure Interface where
  name : String
  params : List TypeParam := []
  bases : List TypeRef := []
  body : Object := {}
  span : Span := {}
deriving Repr, Inhabited

/-- The types of a class.  Both sides hold only what the class itself declares. -/
structure ClassShape where
  name : String
  params : List TypeParam := []
  parent : Option TypeRef := none
  implements : List TypeRef := []
  instanceSide : Object := {}
  staticSide : Object := {}
  ctor : Option Func := none
  abstract : Bool := false
  span : Span := {}
deriving Repr, Inhabited

/-- The members of one side of a class. -/
def ClassShape.side (c : ClassShape) (static : Bool) : Object :=
  if static then c.staticSide else c.instanceSide

/-- Put a member on one side of a class. -/
def ClassShape.insert (c : ClassShape) (static : Bool) (m : Member) : ClassShape :=
  if static then { c with staticSide := c.staticSide.insert m }
  else { c with instanceSide := c.instanceSide.insert m }

/-! ### What can be wrong -/

/-- What is wrong with a named type. -/
inductive TypeError where
  | unknownType (name : String)
  | duplicateType (name : String)
  | arity (name : String) (min max got : Nat)
  | recursiveAlias (name : String) (path : List String)
  | utility (name arg reason : String)
deriving Repr, DecidableEq, Inhabited

def TypeError.message : TypeError → String
  | .unknownType n => s!"unknown type: {n}"
  | .duplicateType n => s!"type '{n}' is already declared"
  | .arity n lo hi got =>
    if lo = hi then s!"type '{n}' expects {hi} type argument(s), got {got}"
    else s!"type '{n}' expects {lo} to {hi} type arguments, got {got}"
  | .recursiveAlias n path =>
    s!"type alias '{n}' circularly references itself (" ++ " -> ".intercalate path ++ ")"
  | .utility n arg reason => s!"{n}<{arg}>: {reason}"

/-- A question about a named type, which may also be wrongly put. -/
abbrev Lookup := ExceptT TypeError Query

/-! ### Environments -/

/-- The named types of one module. -/
structure Env where
  aliases : Assoc Alias := []
  interfaces : Assoc Interface := []
  classes : Assoc ClassShape := []
  /-- Scopes of type parameters with their constraints, the innermost first. -/
  bounds : List (Assoc (Option Ty)) := []
deriving Repr, Inhabited

/-- The built-in type of a name; `any` is another name for `unknown`. -/
def builtin? (name : String) : Option Ty :=
  if name = "any" then some .unknown else (Prim.ofName? name).map .prim

/-- The utility types with the number of arguments that they take. -/
def utilities : Assoc Nat :=
  [("Partial", 1), ("Required", 1), ("Readonly", 1), ("Record", 2), ("Pick", 2), ("Omit", 2),
   ("Exclude", 2), ("Extract", 2), ("NonNilable", 1), ("Nilable", 1), ("ReturnType", 1),
   ("Parameters", 1), ("KeyOf", 1)]

def isUtility (name : String) : Bool := utilities.has name

namespace Env

def alias? (e : Env) (name : String) : Option Alias := e.aliases.get? name

def interface? (e : Env) (name : String) : Option Interface := e.interfaces.get? name

def class? (e : Env) (name : String) : Option ClassShape := e.classes.get? name

def isClass (e : Env) (name : String) : Bool := e.classes.has name

def isBuiltin (name : String) : Bool := (builtin? name).isSome

/-- Whether a definition was registered under the name. -/
def isRegistered (e : Env) (name : String) : Bool :=
  e.aliases.has name || e.interfaces.has name || e.classes.has name

/-- Whether a name is a type of any kind. -/
def isDefined (e : Env) (name : String) : Bool :=
  isBuiltin name || isUtility name || e.isRegistered name

/-- Whether a definition of the name may be added. -/
def isFree (e : Env) (name : String) : Bool := !(e.isRegistered name || isBuiltin name)

def addAlias (e : Env) (a : Alias) : Except TypeError Env :=
  if e.isFree a.name then .ok { e with aliases := e.aliases.set a.name a }
  else .error (.duplicateType a.name)

/-- Add an interface; one of the same name takes its members and bases. -/
def addInterface (e : Env) (i : Interface) : Except TypeError Env :=
  match e.interface? i.name with
  | some prev =>
    let merged :=
      { prev with
        body := prev.body.insertAll i.body.members
        bases := prev.bases ++ i.bases }
    .ok { e with interfaces := e.interfaces.set i.name merged }
  | none =>
    if e.isFree i.name then .ok { e with interfaces := e.interfaces.set i.name i }
    else .error (.duplicateType i.name)

def addClass (e : Env) (c : ClassShape) : Except TypeError Env :=
  if e.isFree c.name then .ok { e with classes := e.classes.set c.name c }
  else .error (.duplicateType c.name)

def setAlias (e : Env) (a : Alias) : Env := { e with aliases := e.aliases.set a.name a }

def setInterface (e : Env) (i : Interface) : Env :=
  { e with interfaces := e.interfaces.set i.name i }

def setClass (e : Env) (c : ClassShape) : Env := { e with classes := e.classes.set c.name c }

def classNames (e : Env) : List String := sortedNames e.classes.keys

/-- The declared type parameters of a named type. -/
def typeParams? (e : Env) (name : String) : Option (List TypeParam) :=
  ((e.alias? name).map (·.params)).or
    (((e.interface? name).map (·.params)).or ((e.class? name).map (·.params)))

/-! ### Scopes of type parameters -/

def pushParams (e : Env) (ps : List TypeParam) : Env :=
  { e with bounds := ps.foldl (fun s p => s.set p.name p.constraint) [] :: e.bounds }

def popParams (e : Env) : Env := { e with bounds := e.bounds.tail }

def paramDepth (e : Env) : Nat := e.bounds.length

/-- Close scopes until `depth` remain. -/
def resetParams (e : Env) (depth : Nat) : Env :=
  { e with bounds := e.bounds.drop (e.bounds.length - depth) }

/-- The innermost entry of a type parameter: its constraint, if it has one. -/
def findParam? (e : Env) (name : String) : Option (Option Ty) :=
  e.bounds.findSome? fun s => s.get? name

/-- Whether a name is a type parameter in scope. -/
def isTypeParam (e : Env) (name : String) : Bool := (e.findParam? name).isSome

/-- The constraint of a type parameter in scope. -/
def bound? (e : Env) (name : String) : Option Ty := (e.findParam? name).join

/-! ### The class chain -/

/-- The class with the name and the classes above it, nearest first.  The walk stops at a name
that is no class, at the empty name and at a name met before; `n` bounds the steps. -/
def chainFrom (e : Env) : Nat → List String → String → List ClassShape
  | 0, _, _ => []
  | n + 1, seen, name =>
    if name = "" ∨ seen.contains name then []
    else
      match e.class? name with
      | none => []
      | some c =>
        match c.parent with
        | none => [c]
        | some p => c :: e.chainFrom n (name :: seen) p.name

/-- The class with the name and the classes above it, nearest first. -/
def chain (e : Env) (name : String) : List ClassShape :=
  e.chainFrom (e.classes.length + 1) [] name

/-- Whether `child` is `ancestor` or extends it, directly or not.  The walk is over names, so that
the last name need not be a class. -/
def isSubclassFrom (e : Env) (ancestor : String) : Nat → List String → String → Bool
  | 0, _, _ => false
  | n + 1, seen, name =>
    if name = "" ∨ seen.contains name then false
    else if name = ancestor then true
    else
      match (e.class? name).bind (·.parent) with
      | none => false
      | some p => e.isSubclassFrom ancestor n (name :: seen) p.name

/-- Whether `child` is `ancestor` or extends it, directly or not. -/
def isSubclass (e : Env) (child ancestor : String) : Bool :=
  e.isSubclassFrom ancestor (e.classes.length + 2) [] child

/-- The static members of a class, with those that it inherits. -/
def staticType (e : Env) (name : String) : Except TypeError Object :=
  if e.isClass name && name ≠ "" then
    .ok (((e.chain name).reverse.flatMap (·.staticSide.members)).foldl .insert {})
  else if name = "" then .ok {}
  else .error (.unknownType name)

/-- The constructor of a class: its own, or that of the nearest class above it that has one. -/
def constructor (e : Env) (name : String) : Func :=
  ((e.chain name).findSome? (·.ctor)).getD { ret := some .void }

end Env

end TreeCheck
