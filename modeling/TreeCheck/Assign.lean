import TreeCheck.Query
import TreeCheck.Ty.Print

/-!
# Assignability

`Rules.assignable` decides whether a value of one type may be used where another is expected.
Records and tuples are compared by structure, parameters of functions against the direction of
the comparison, and names by what they stand for.  A comparison of two names that is met again
while it is under way counts as true, so recursive definitions can be compared.

* `Rules` — the two ways in which the comparison may be relaxed;
* `Rules.assignUpTo` — the comparison to a given depth, under the comparisons in progress;
* `Rules.assignable`, `isAssignable` — the comparison itself, and its strict form.
-/

namespace TreeCheck

/-- The options of a comparison. -/
structure Rules where
  /-- Compare parameters of functions in both directions. -/
  bivariant : Bool := false
  /-- Let `nil` be used as any type. -/
  looseNil : Bool := false
deriving Repr, DecidableEq, Inhabited

/-- Whether a type that is no name, union, intersection or variable may be used as a built-in
type. -/
def assignToPrim (src : Ty) (dst : Prim) : Bool :=
  match src with
  | .prim p =>
    p == dst || (dst == .number && p == .integer) || (dst == .void && p == .nil) ||
      (dst == .nil && p == .void)
  | .lit l =>
    match dst with
    | .integer => l.isInteger
    | .boolean => l.prim == .boolean
    | .number => l.prim == .number
    | .string => l.prim == .string
    | _ => false
  | .object _ => dst == .table
  | .array _ => dst == .table
  | .tuple _ => dst == .table
  | _ => false

/-- The signature with its type parameters replaced by `unknown`. -/
def FuncOf.erased (f : Func) : Func :=
  if f.tparams.isEmpty then f
  else f.instantiate (f.tparams.map fun p => (p.name, .unknown))

/-- What two names under comparison are known by. -/
def comparisonKey (src dst : Ty) : String := src.text ++ "\x00" ++ dst.text

section
variable (go : Ty → Ty → Query Bool)

/-- Member by member: every member of the target must be present and fit, unless it is optional;
members beyond those must fit the index signature of the target. -/
def assignObject (src dst : Object) : Query Bool := do
  let named ← dst.members.allM fun want =>
    match src.find? want.name with
    | none => pure want.optional
    | some own =>
      if own.optional && !want.optional then pure false
      else if want.optional then go own.type.removeNil want.type.nullable
      else go own.type want.type
  if !named then return false
  match dst.index with
  | none => return true
  | some index =>
    let extra ← src.members.allM fun m => do
      if (dst.find? m.name).isSome then return true
      if ← go (.str m.name) index.key then go m.type index.value else return false
    if !extra then return false
    match src.index with
    | none => return true
    | some i => go i.value index.value

/-- One parameter of the target type `dst` against one of the source type `src`. -/
def assignParam (bivariant : Bool) (dst src : Ty) : Query Bool := do
  if ← go dst src then return true
  if bivariant then go src dst else return false

/-- The parameters of the source, from position `i` on, against those of the target. -/
def assignParams (bivariant : Bool) (dst : Func) : Nat → List Param → Query Bool
  | _, [] => pure true
  | i, p :: ps => do
    if p.rest then return true
    match dst.paramAt? i with
    | none => if p.optional then assignParams bivariant dst (i + 1) ps else return false
    | some d =>
      if ← assignParam go bivariant d (if p.optional then p.type.nullable else p.type) then
        assignParams bivariant dst (i + 1) ps
      else return false

/-- Signature by signature: the source must take every argument that the target lets callers
pass, and its result must fit unless the target has none. -/
def assignFunc (bivariant : Bool) (src dst : Func) : Query Bool := do
  let src := src.erased
  let dst := dst.erased
  if dst.rest?.isNone && dst.params.length < src.required then return false
  if !(← assignParams go bivariant dst 0 src.params) then return false
  let rest ← match src.rest? with
    | none => pure true
    | some r =>
      let first := src.params.length - 1
      (List.range' first (dst.params.length - first)).allM fun i =>
        match dst.paramAt? i with
        | none => pure true
        | some d => assignParam go bivariant d r.type
  if !rest then return false
  match dst.result with
  | .prim .void => return true
  | r => go src.result r

/-- Tuple by tuple: missing entries must accept `nil`. -/
def assignTuple : List Ty → List Ty → Query Bool
  | [], [] => pure true
  | _ :: _, [] => pure false
  | [], d :: ds => do
    if ← go .nil d then assignTuple [] ds else return false
  | s :: ss, d :: ds => do
    if ← go s d then assignTuple ss ds else return false

/-- The comparison of types that are no names, the source being no union. -/
def assignStructural (bivariant : Bool) (r : Option Resolver) (src dst : Ty) : Query Bool := do
  match dst, src with
  | .union ds, _ =>
    if ← ds.anyM (go src) then return true
    match src with
    | .prim .boolean =>
      if ← go (.bool true) dst then go (.bool false) dst else return false
    | _ => return false
  | .inter ds, _ => ds.allM (go src)
  | _, .inter ss => ss.anyM (go · dst)
  | _, .tvar v =>
    match r.bind (·.bound v) with
    | some b => go b dst
    | none => return false
  | .prim p, _ => return assignToPrim src p
  | .array d, .array s => go s d
  | .array d, .tuple ss => ss.allM (go · d)
  | .tuple ds, .tuple ss => if ds.length < ss.length then return false else assignTuple go ss ds
  | .object d, .object s => assignObject go s d
  | .func d, .func s => assignFunc go bivariant s d
  | _, _ => return false

end

/-- A predicate is used as the truth value that it returns. -/
def Ty.predToBoolean : Ty → Ty
  | .pred _ _ => .boolean
  | t => t

/-- Expand a name; any other type stands for itself. -/
def Resolver.open (r : Resolver) (t : Ty) : Query (Option Ty) :=
  if t.isNamed then r.expand t else pure (some t)

namespace Rules

/-- The comparison of two types at least one of which is a name.  `next` compares with one more
comparison in progress. -/
def assignNamed (r : Option Resolver) (pending : List String)
    (next : List String → Ty → Ty → Query Bool) (src dst : Ty) : Query Bool := do
  match r with
  | none => return false
  | some r =>
    match src, dst with
    | .classRef a, .classRef b => return r.isSubclass a b
    | _, _ =>
      let nominal := match src, dst with
        | .ref a [], .ref b [] => r.isClass a && r.isClass b && r.isSubclass a b
        | _, _ => false
      if nominal then return true
      let key := comparisonKey src dst
      if pending.contains key then return true
      match ← r.open src with
      | none => return true
      | some src =>
        match ← r.open dst with
        | none => return true
        | some dst => next (key :: pending) src dst

/-- The comparison down to a depth, with the comparisons of names in progress. -/
def assignUpTo (rules : Rules) (r : Option Resolver) :
    Nat → List String → Ty → Ty → Query Bool
  | 0, _, _, _ => throw .outOfFuel
  | n + 1, pending, src, dst =>
    if dst.isUnknown || src.isUnknown || src.isNever then pure true
    else if dst.isNever then pure false
    else if rules.looseNil && src.isNil then pure true
    else if src.equal dst then pure true
    else
      let src := src.predToBoolean
      let dst := dst.predToBoolean
      if src.equal dst then pure true
      else
        match src with
        | .union ss => ss.allM fun s => assignUpTo rules r n pending s dst
        | _ =>
          if src.isNamed || dst.isNamed then
            assignNamed r pending (assignUpTo rules r n) src dst
          else assignStructural (assignUpTo rules r n pending) rules.bivariant r src dst

/-- Whether a value of type `src` may be used where `dst` is expected. -/
def assignable (rules : Rules) (r : Option Resolver) (src dst : Ty) : Query Bool :=
  assignUpTo rules r (4 * (src.size + dst.size) + (r.map (·.extra)).getD 0 + queryDepth) [] src dst

end Rules

def isAssignable (r : Option Resolver) (src dst : Ty) : Query Bool :=
  Rules.assignable {} r src dst

end TreeCheck
