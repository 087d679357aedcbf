import TreeCheck.Check.Types

/-!
# Members and entries

* `Site` — the expression that uses a member;
* `findMember` — looks a member up on a receiver: on instances and on the static side of classes
  with their access rules, on records, and on every member of a union;
* `memberAccess`, `inferMember` — `object.name`;
* `inferIndex` — `object[index]`; tuples are counted from 1.
-/

namespace TreeCheck.Check

/-- The expression that uses a member. -/
structure Site where
  loc : Loc
  /-- The receiver is `super`. -/
  viaSuper : Bool := false

/-- Whether an expression is `super`. -/
def isSuper (e : Expr) : Bool :=
  match e.form with
  | .super => true
  | _ => false

/-- The receiver without `nil`, which is reported unless the use allows for it. -/
def receiverBase (t : Ty) (optional : Bool) (span : Span) : Check Ty := do
  if t.isUnknown || !t.hasNil then return t
  if !optional && (← read).options.strictNullChecks then
    report .typeMismatch span ["object is possibly nil"]
  return t.removeNil

/-- Report a member that a type does not have. -/
def missingMember (t : Ty) (name : String) (span : Span) : Check Unit :=
  report .unknownMember span ["property", name, "does not exist on type", quoted t]

/-- Report a use that the access rules refuse. -/
def reportAccess (e : AccessError) (span : Span) : Check Unit :=
  match e with
  | .access level _ _ =>
    report (if level = .priv then .privateMemberAccess else .protectedMemberAccess) span [e.message]
  | _ => pure ()

/-- Check the visibility of a member of a class, and give the class that declares it. -/
def checkAccess (site : Site) (receiver name : String) (span : Span) : Check String := do
  let classes := (← get).classes
  match classes.owner? receiver name with
  | none => return receiver
  | some (owner, m) =>
    match classes.checkMember (← currentClass) owner name with
    | .ok _ => pure ()
    | .error e => reportAccess e span
    if m.abstract && site.viaSuper then
      report .abstractMember span
        ["abstract member", name, "of class", owner, "cannot be accessed via super"]
    return owner

/-- A found member, with the class that declares it; the name is empty for members of records. -/
abbrev Found := Member × String

/-- A member of one side of a class. -/
def sideMember (site : Site) (side : ClassSide) (o : Object) (self : Ty) (name : String)
    (span : Span) : Check (Option Found) := do
  match o.find? name with
  | none =>
    missingMember self name span
    return none
  | some m =>
    noteReceiver site.loc side
    return some (m, ← checkAccess site side.name name span)

def instanceMember (site : Site) (className : String) (args : List Ty) (name : String)
    (span : Span) : Check (Option Found) := do
  match ← ((← get).env.instanceType className args).run with
  | .error e =>
    report .undefinedSymbol span [e.message]
    return none
  | .ok o => sideMember site ⟨className, false⟩ o (.ref className args) name span

/-- A member of the class itself. -/
def staticMember (site : Site) (className name : String) (span : Span) : Check (Option Found) := do
  match (← get).env.staticType className with
  | .error e =>
    report .undefinedSymbol span [e.message]
    return none
  | .ok o => sideMember site ⟨className, true⟩ o (.classRef className) name span

/-- A member of a type by structure. -/
def structuralMember? (t : Ty) (name : String) : Check (Option Member) := do
  match ← structural t with
  | .object o => return o.find? name
  | _ => return none

/-- A member of a part of a union. -/
def partMember? (t : Ty) (name : String) : Check (Option Member) := do
  match t with
  | .ref n args =>
    let env := (← get).env
    match ← (env.instanceType n args).run with
    | .ok o => if env.isClass n then return o.find? name else structuralMember? t name
    | .error _ => structuralMember? t name
  | _ => structuralMember? t name

/-- A member that every part of a union has. -/
def unionMember (name : String) (span : Span) :
    List Ty → List Ty → Bool → Check (Option Found)
  | [], types, readonly => return some ({ name, type := Ty.unionOf types, readonly }, "")
  | t :: ts, types, readonly => do
    match ← partMember? t name with
    | none =>
      missingMember t name span
      return none
    | some m => unionMember name span ts (types ++ [m.readType]) (readonly || m.readonly)

/-- A member of a type with the given structure. -/
def memberOfStructure (site : Site) (t s : Ty) (name : String) (isWrite : Bool) (span : Span) :
    Check (Option Found) := do
  let plain (type : Ty) : Check (Option Found) := return some ({ name, type }, "")
  let missing : Check (Option Found) := do
    missingMember t name span
    return none
  match s with
  | .object o =>
    match o.find? name, o.index with
    | some m, _ => return some (m, "")
    | none, some i =>
      if ← assignable (.str name) i.key then
        plain (if isWrite then i.value else i.value.nullable)
      else missing
    | none, none => missing
  | .union ts => unionMember name span ts [] false
  | .ref n args => if (← get).env.isClass n then instanceMember site n args name span else missing
  | .prim .unknown => plain .unknown
  | .prim .table => plain .unknown
  | .prim .never => plain .never
  | _ => missing

/-- Look a member up on a receiver. -/
def findMember (site : Site) (t : Ty) (name : String) (isWrite : Bool) (span : Span) :
    Check (Option Found) := do
  let t ← boundUpTo queryDepth t
  match t with
  | .ref n args =>
    if (← get).env.isClass n then instanceMember site n args name span
    else memberOfStructure site t (← structural t) name isWrite span
  | .classRef n => staticMember site n name span
  | .tvar _ =>
    missingMember t name span
    return none
  | _ => memberOfStructure site t (← structural t) name isWrite span

/-- Check `object.name`; the type of the object is also given. -/
def memberAccess (c : Checker) (loc : Loc) (object : Expr) (name : String) (optional isWrite : Bool) :
    Check (Ty × Option Found) := do
  let t ← c.expr object none
  let base ← receiverBase t optional object.span
  return (t, ← findMember ⟨loc, isSuper object⟩ base name isWrite loc.span)

/-- The type of `object.name`. -/
def inferMember (c : Checker) (e object : Expr) (name : String) (optional : Bool) : Check Ty := do
  let (objectType, found) ← memberAccess c e.loc object name optional false
  match found with
  | none => return .unknown
  | some (m, _) =>
    let t ← refined e m.readType
    return if optional && objectType.hasNil then t.nullable else t

/-! ### Entries -/

/-- The entry of a tuple at a constant position. -/
def tupleEntry (base : Ty) (es : List Ty) (k : Int) (span : Span) : Check Ty := do
  match (if 1 ≤ k then es[(k - 1).toNat]? else none) with
  | some t => return t
  | none =>
    report .typeMismatch span
      ["tuple type", quoted base, "of length", toString es.length, "has no element at index",
        toString k]
    return .unknown

/-- The entry of a value under a key that is no constant string. -/
def entryOf (loc : Loc) (base idx : Ty) (idxSpan : Span) (isWrite : Bool) : Check Ty := do
  let cannot : Check Ty := do
    report .typeMismatch loc.span ["type", quoted base, "cannot be indexed"]
    return .unknown
  match ← structural base with
  | .array e =>
    expectAssignable idx .number idxSpan
    return e
  | .tuple es =>
    expectAssignable idx .number idxSpan
    match idx with
    | .lit (.num n) =>
      match n.toInt? with
      | some k => if n.isInteger then tupleEntry base es k idxSpan else return Ty.unionOf es
      | none => return Ty.unionOf es
    | _ => return Ty.unionOf es
  | .object o =>
    match o.index with
    | some i =>
      expectAssignable idx i.key idxSpan
      return if isWrite then i.value else i.value.nullable
    | none =>
      if !idx.isUnknown then
        report .typeMismatch loc.span
          ["type", quoted base, "has no index signature for", quoted idx]
      return .unknown
  | .prim .table => return .unknown
  | .prim .unknown => return .unknown
  | _ => cannot

/-- The entry of a value under a key; a constant string is a member name. -/
def indexEntry (loc : Loc) (base idx : Ty) (idxSpan : Span) (isWrite : Bool) : Check Ty := do
  if base.isUnknown then return .unknown
  match idx with
  | .lit (.str name) =>
    match ← findMember ⟨loc, false⟩ base name isWrite loc.span with
    | none => return .unknown
    | some (m, _) =>
      if isWrite && m.readonly then
        report .readonlyAssignment loc.span ["cannot assign to readonly property", name]
      return if isWrite then m.type else m.readType
  | _ => entryOf loc base idx idxSpan isWrite

/-- The type of `object[index]`. -/
def inferIndex (c : Checker) (loc : Loc) (object index : Expr) (optional isWrite : Bool) :
    Check Ty := do
  let objectType ← c.expr object none
  let idx ← c.expr index none
  let base ← receiverBase objectType optional object.span
  let t ← indexEntry loc base idx index.span isWrite
  return if optional && objectType.hasNil && !isWrite then t.nullable else t

end TreeCheck.Check
