import TreeCheck.Ty.Equal

/-!
# Unions as sets of members

* `Ty.members` — the members of a union, or the type itself;
* `Ty.filter` — the union of the members that pass a test;
* `Ty.nullable`, `Ty.removeNil`, `Ty.hasNil` — optional types are unions with `nil`;
* `Ty.widen` — constants replaced by their built-in types, inside unions and tuples too.
-/

namespace TreeCheck.Ty

/-- The members of a union, or the type itself. -/
def members : Ty → List Ty
  | .union ts => ts
  | t => [t]

/-- The union of the members that pass the test. -/
def filter (t : Ty) (keep : Ty → Bool) : Ty := unionOf (t.members.filter keep)

/-- The union of the members that pass an effectful test, asked in order. -/
def filterM {m : Type → Type} [Monad m] (t : Ty) (keep : Ty → m Bool) : m Ty := do
  return unionOf (← t.members.filterM keep)

/-- The type with `nil` added. -/
def nullable (t : Ty) : Ty := unionOf [t, .nil]

/-- Whether `nil` is a member. -/
def hasNil (t : Ty) : Bool := t.members.any isNil

/-- The type without its member `nil`. -/
def removeNil (t : Ty) : Ty := t.filter fun m => !m.isNil

mutual
/-- Constants replaced by their built-in types, inside unions and tuples too. -/
def widen : Ty → Ty
  | .lit l => .prim l.prim
  | .union ts => unionOf (widenList ts)
  | .tuple ts => .tuple (widenList ts)
  | t => t

def widenList : List Ty → List Ty
  | [] => []
  | t :: ts => t.widen :: widenList ts
end

/-- Several values as one type: none is `void`, one is itself, more are a tuple. -/
def packed : List Ty → Ty
  | [] => .void
  | [t] => t
  | ts => .tuple ts

/-- Whether every value of the type is an integer. -/
def isIntegral (t : Ty) : Bool :=
  !t.members.isEmpty && t.members.all fun
    | .prim p => p == .integer
    | .lit l => l.isInteger
    | _ => false

/-- Whether a function with this result type may end without a value. -/
def admitsNoValue : Ty → Bool
  | .prim .void => true
  | .prim .nil => true
  | .prim .unknown => true
  | _ => false

end TreeCheck.Ty

namespace TreeCheck

def MemberOf.readType (m : Member) : Ty := if m.optional then m.type.nullable else m.type

/-- References to the type parameters, in order. -/
def typeParamRefs (ps : List TypeParam) : List Ty := ps.map fun p => .tvar p.name

end TreeCheck
