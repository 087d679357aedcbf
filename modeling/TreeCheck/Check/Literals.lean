import TreeCheck.Check.Patterns

/-!
# Records, arrays and matches

* `inferObject`, `inferArray` — the types of constructors.  Constants are widened unless the
  expected type needs them, as a discriminating field does;
* `inferMatch` — checks each arm with the subject narrowed by its pattern, and reports the values
  that no arm without a condition handles.
-/

namespace TreeCheck.Check

/-- The type of an entry of a constructor: widened, unless only the constant fits what is
expected. -/
def contextual (t : Ty) (expected : Option Ty) : Check Ty := do
  match expected with
  | none => return t.widen
  | some e => if ← assignable t.widen e then return t.widen else return t

/-- The type that is expected of a property, across the records of the expected type. -/
def expectedField (expected : Option Ty) (name : String) : Check (Option Ty) := do
  match expected with
  | none => return none
  | some t =>
    let parts ← (← spreadOut t).members.filterMapM fun m => do
      match ← structural m with
      | .object o =>
        match o.find? name with
        | some member => return some member.readType
        | none => return o.index.map (·.value)
      | _ => return none
    return if parts.isEmpty then none else some (Ty.unionOf parts)

/-- A record under construction: its members, the names set so far, and the keys and values that
have no constant name. -/
structure Building where
  object : Object := {}
  seen : List String := []
  keys : List Ty := []
  values : List Ty := []

def setNamed (c : Checker) (expected : Option Ty) (b : Building) (span : Span) (name : String)
    (value : Expr) : Check Building := do
  if b.seen.contains name then
    report .duplicateDeclaration span ["duplicate property", name, "in object literal"]
  let want ← expectedField expected name
  let t ← contextual (← c.expr value want) want
  return { b with object := b.object.insert { name, type := t }, seen := name :: b.seen }

/-- Set a property whose key is computed. -/
def setComputed (c : Checker) (expected : Option Ty) (b : Building) (f : ObjectField) :
    Check Building := do
  let key ← match f.key with
    | some k => c.expr k none
    | none => pure .unknown
  match key with
  | .lit (.str name) => setNamed c expected b f.span name f.value
  | _ =>
    if key.isNil then
      report .typeMismatch ((f.key.map (·.span)).getD {}) ["table index is nil"]
    let value ← c.expr f.value none
    return { b with keys := b.keys ++ [key.widen], values := b.values ++ [value.widen] }

/-- Set all properties of another record. -/
def setSpread (c : Checker) (b : Building) (f : ObjectField) : Check Building := do
  let t ← c.expr f.value none
  match ← structural t.removeNil with
  | .object o =>
    let b := { b with object := b.object.insertAll o.members, seen := o.names ++ b.seen }
    match o.index with
    | none => return b
    | some i => return { b with keys := b.keys ++ [i.key], values := b.values ++ [i.value] }
  | _ =>
    if !t.isUnknown then
      report .typeMismatch f.span
        ["spread types may only be created from object types, got", quoted t]
    return b

def inferObject (c : Checker) (fields : List ObjectField) (expected : Option Ty) : Check Ty := do
  let b ← fields.foldlM (fun (b : Building) (f : ObjectField) =>
    match f.kind with
    | .named => setNamed c expected b f.span f.name f.value
    | .computed => setComputed c expected b f
    | .spread => setSpread c b f) {}
  if b.keys.isEmpty then return .object b.object
  let index : Index := { key := Ty.unionOf b.keys, value := Ty.unionOf b.values }
  return .object { b.object with index := some index }

/-! ### Arrays -/

/-- The array or tuple among the members of an expected type. -/
def expectedSequence? (expected : Option Ty) : Check (Option Ty) := do
  match expected with
  | none => return none
  | some t =>
    (← spreadOut t).members.findSomeM? fun m => do
      match ← structural m with
      | .array e => return some (.array e)
      | .tuple es => return some (.tuple es)
      | _ => return none

/-- An array constructor where a tuple is expected.  A spread element gives an array. -/
def inferTuple (c : Checker) : List Ty → List Expr → List Ty → Check Ty
  | _, [], elems => return .tuple elems
  | want, e :: es, elems => do
    match e.form with
    | .spread _ =>
      let elem ← c.expr e none
      return .array (Ty.unionOf (elems ++ [elem.widen]))
    | _ =>
      let t ← contextual (← c.expr e want.head?) want.head?
      inferTuple c want.tail es (elems ++ [t])

def inferArray (c : Checker) (elements : List Expr) (expected : Option Ty) : Check Ty := do
  match ← expectedSequence? expected with
  | some (.tuple want) => inferTuple c want elements []
  | some (.array want) =>
    let elems ← elements.mapM fun e => do contextual (← c.expr e (some want)) (some want)
    return .array (if elems.isEmpty then want else Ty.unionOf elems)
  | _ =>
    let elems ← elements.mapM fun e => do return (← c.expr e none).widen
    return .array (if elems.isEmpty then .unknown else Ty.unionOf elems)

/-! ### Matches -/

/-- One arm of a match, with the values of the subject that are left. -/
def inferArm (c : Checker) (key : Option String) (expected : Option Ty) (left : Ty) (arm : MatchArm) :
    Check Ty := do
  let t ← narrowedBy arm.pattern left
  under (← context).child <| withBlock do
    match key with
    | some k => modifyContext (·.refine k (some t))
    | none => pure ()
    checkPatternValues c arm.pattern
    bindPattern false arm.pattern t
    match arm.guard with
    | some g =>
      let _ ← c.expr g none
      setContext (← branches g (← context)).1
    | none => pure ()
    c.expr arm.body expected

/-- The arms in turn: the types of their results, and the values that are left over. -/
def inferArms (c : Checker) (key : Option String) (expected : Option Ty) :
    List MatchArm → Ty → Check (List Ty × Ty)
  | [], left => return ([], left)
  | arm :: arms, left => do
    let t ← inferArm c key expected left arm
    let left ← if arm.guard.isNone then leftOverBy arm.pattern left else pure left
    let (ts, left) ← inferArms c key expected arms left
    return (t :: ts, left)

def inferMatch (c : Checker) (span : Span) (subject : Expr) (arms : List MatchArm)
    (expected : Option Ty) : Check Ty := do
  let t ← c.expr subject none
  let start ← if t.isUnknown then pure t else spreadOut t
  let (results, left) ← inferArms c subject.key? expected arms start
  if !t.isUnknown && !left.isNever then
    let words := ["match is not exhaustive; unhandled values of type", quoted left]
    match (← read).options.exhaustiveMatch with
    | .error => report .nonExhaustiveMatch span words
    | .warning => warn .nonExhaustiveMatch span words
    | .off => pure ()
  return if results.isEmpty then .never else Ty.unionOf results

end TreeCheck.Check
