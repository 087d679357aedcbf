import TreeCheck.Assign

/-!
# Narrowing types

What is left of a type when a test succeeds or fails:

* `Ty.truthy`, `Ty.falsy` — the value counts as true: all but `nil` and `false`;
* `spread` — aliases of unions expanded, so that their members can be told apart;
* `narrowTo`, `remove` — the value has a type;
* `Ty.without` — the value is not a given constant;
* `discriminate` — a property of the value is a given constant;
* `runtimeType`, `ofRuntimeType`, `notOfRuntimeType` — the word for the kind of value at run time.
-/

namespace TreeCheck

namespace Ty

/-- The part of a union member that counts as true. -/
def truthyPart : Ty → List Ty
  | .prim .nil => []
  | .prim .void => []
  | .prim .boolean => [.bool true]
  | .lit (.bool false) => []
  | m => [m]

/-- The part of a union member that counts as false. -/
def falsyPart : Ty → List Ty
  | .prim .nil => [.nil]
  | .prim .void => [.nil]
  | .prim .boolean => [.bool false]
  | .lit (.bool false) => [.bool false]
  | _ => []

/-- The values that count as true. -/
def truthy (t : Ty) : Ty := if t.isUnknown then t else unionOf (t.members.flatMap truthyPart)

/-- The values that count as false: `nil` and `false`. -/
def falsy (t : Ty) : Ty :=
  if t.isUnknown then unionOf [.nil, .bool false] else unionOf (t.members.flatMap falsyPart)

/-- What is left of a union member without a constant: wider members hold other values too. -/
def withoutPart (lit m : Ty) : List Ty :=
  if m.equal lit then []
  else
    match lit, m with
    | .prim .nil, .prim .void => []
    | .lit (.bool b), .prim .boolean => [.bool !b]
    | _, _ => [m]

def without (t lit : Ty) : Ty :=
  if t.isUnknown then t else unionOf (t.members.flatMap (withoutPart lit))

end Ty

/-! ### Unions behind names -/

/-- Expand aliases of unions among union members to a given depth.  `seen` are the texts of the
references expanded so far, which are not expanded again. -/
def spreadUpTo (r : Resolver) : Nat → List String → List Ty → Query (List Ty × List String)
  | 0, _, _ => throw .outOfFuel
  | n + 1, seen, ms =>
    ms.foldlM (fun acc m => do
      match m with
      | .ref _ _ =>
        if acc.2.contains m.text then return (acc.1 ++ [m], acc.2)
        else
          match ← r.expand m with
          | some (.union ts) =>
            let (inner, seen) ← spreadUpTo r n (m.text :: acc.2) ts
            return (acc.1 ++ inner, seen)
          | _ => return (acc.1 ++ [m], acc.2)
      | _ => return (acc.1 ++ [m], acc.2)) ([], seen)

/-- The type with aliases of unions expanded; records, interfaces and classes stay by name. -/
def spread (r : Resolver) (t : Ty) : Query Ty := do
  return Ty.unionOf (← spreadUpTo r r.depth [] t.members).1

/-- The record behind a type, to a given depth. -/
def recordUpTo (r : Resolver) : Nat → Ty → Query (Option Object)
  | 0, _ => throw .outOfFuel
  | n + 1, t =>
    match t with
    | .object o => return some o
    | .ref _ _ => do
      match ← r.expand t with
      | some u => recordUpTo r n u
      | none => return none
    | .inter ts =>
      match Ty.interOf ts with
      | .object o => return some o
      | _ => return none
    | _ => return none

def record? (r : Resolver) (t : Ty) : Query (Option Object) := recordUpTo r r.depth t

/-! ### Types and properties -/

/-- The part of a union member that has a type; a wider member becomes the type. -/
def narrowPart (r : Resolver) (target m : Ty) : Query (List Ty) := do
  if ← isAssignable (some r) m target then return [m]
  if ← isAssignable (some r) target m then return [target]
  return []

/-- The values that have a type. -/
def narrowTo (r : Resolver) (t target : Ty) : Query Ty := do
  if t.isUnknown then return target
  let parts ← (← spread r t).members.mapM (narrowPart r target)
  return Ty.unionOf parts.flatten

/-- The values that do not have a type. -/
def remove (r : Resolver) (t target : Ty) : Query Ty := do
  if t.isUnknown then return t
  (← spread r t).filterM fun m => return !(← isAssignable (some r) m target)

/-- Whether a union member stays when its property is, or is not, a constant. -/
def admits (r : Resolver) (prop : String) (lit : Ty) (matching : Bool) (m : Ty) : Query Bool := do
  match (← record? r m).bind (·.find? prop) with
  | none => return !matching
  | some p =>
    if matching then isAssignable (some r) lit p.readType else return !p.readType.equal lit

/-- The values whose property is, or is not, a constant. -/
def discriminate (r : Resolver) (t : Ty) (prop : String) (lit : Ty) (matching : Bool) :
    Query Ty := do
  if t.isUnknown then return t
  (← spread r t).filterM (admits r prop lit matching)

/-! ### Kinds of values at run time -/

namespace RuntimeType

def nil : String := "nil"
def boolean : String := "boolean"
def number : String := "number"
def string : String := "string"
def table : String := "table"
def function : String := "function"

/-- The word for the values of a built-in type. -/
def ofPrim? : Prim → Option String
  | .nil => some nil
  | .void => some nil
  | .boolean => some boolean
  | .number => some number
  | .integer => some number
  | .string => some string
  | .table => some table
  | .unknown => none
  | .never => none

/-- All values that a word stands for. -/
def values? (name : String) : Option Ty :=
  if name = nil then some .nil
  else if name = boolean then some .boolean
  else if name = number then some .number
  else if name = string then some .string
  else if name = table then some .table
  else if name = function then
    some (.func
      { params := [{ name := "args", type := .unknown, rest := true }], ret := some .unknown })
  else none

end RuntimeType

/-- The word for the values of a type, to a given depth. -/
def runtimeTypeUpTo (r : Resolver) : Nat → Ty → Query (Option String)
  | 0, _ => throw .outOfFuel
  | n + 1, t =>
    match t with
    | .prim p => return RuntimeType.ofPrim? p
    | .lit l => return RuntimeType.ofPrim? l.prim
    | .func _ => return some RuntimeType.function
    | .pred _ _ => return some RuntimeType.boolean
    | .object _ => return some RuntimeType.table
    | .array _ => return some RuntimeType.table
    | .tuple _ => return some RuntimeType.table
    | .inter _ => return some RuntimeType.table
    | .classRef _ => return some RuntimeType.table
    | .ref _ _ => do
      match ← r.expand t with
      | some u => runtimeTypeUpTo r n u
      | none => return none
    | .tvar v =>
      match r.bound v with
      | some b => runtimeTypeUpTo r n b
      | none => return none
    | .union _ => return none

/-- The word for the values of a type; none if they are of several kinds or not known. -/
def runtimeType (r : Resolver) (t : Ty) : Query (Option String) := runtimeTypeUpTo r r.depth t

/-- The values with a word; members without one stay. -/
def ofRuntimeType (r : Resolver) (t : Ty) (name : String) : Query Ty := do
  if t.isUnknown then return (RuntimeType.values? name).getD t
  (← spread r t).filterM fun m => do
    let word := (← runtimeType r m).getD ""
    return word == name || word == ""

def notOfRuntimeType (r : Resolver) (t : Ty) (name : String) : Query Ty := do
  if t.isUnknown then return t
  (← spread r t).filterM fun m => do return (← runtimeType r m).getD "" != name

end TreeCheck
