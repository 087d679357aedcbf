import TreeCheck.Check.Declarations
import TreeCheck.Check.Functions

/-!
# Classes

* `nameClass` — registers a class without members, its place in the hierarchy, and its value;
* `resolveClass` — builds both sides and the constructor, and records who may use the members;
* `checkHierarchy` — final classes and methods, overriding, abstract members, and interfaces;
* `checkClassBodies` — initial values and method bodies; a member whose type was not given gets the
  type that its body has.
-/

namespace TreeCheck.Check

def modifyClass (name : String) (f : ClassShape → ClassShape) : Check Unit :=
  modifyEnv fun e => ((e.class? name).map fun c => e.setClass (f c)).getD e

/-- Record who may use a member of a class. -/
def recordMember (name : String) (m : AccessMember) : Check Unit :=
  modify fun s =>
    match s.classes.addMember name m with
    | .ok classes => { s with classes }
    | .error _ => s

def nameClass (l : Loc) (c : ClassDecl) : Check Unit := do
  if !(← read).options.enableOOP then
    report .featureDisabled l.span ["classes are disabled (enableOOP is off)"]
  let shape : ClassShape :=
    { name := c.name, params := placeholderParams c.tparams, abstract := c.abstract, span := l.span }
  if ← register l.span (·.addClass shape) then
    let parent := (c.base.map (·.name)).getD ""
    let (classes, verdict) := (← get).classes.register c.name parent c.final c.abstract
    modify fun s => { s with classes }
    match verdict with
    | .error (.cycle path) =>
      report .circularInheritance l.span [(AccessError.cycle path).message]
      modify fun s => { s with cyclic := c.name :: s.cyclic }
    | _ => pure ()
    own c.name l
    declare { name := c.name, kind := .classType, type := some (.classRef c.name), span := l.span }

/-! ### Headers -/

/-- The type of a property: its annotation, or the widened type of a constant initial value. -/
def propertyType (m : ClassMember) : Check Ty := do
  match m.type with
  | some t => buildType t
  | none =>
    match m.init with
    | some ⟨_, .number _ isInteger⟩ => return if isInteger then .integer else .number
    | some ⟨_, .string _⟩ => return .string
    | some ⟨_, .template _⟩ => return .string
    | some ⟨_, .bool _⟩ => return .boolean
    | _ =>
      if (← read).options.noImplicitUnknown then
        warn .implicitUnknown m.span ["property", m.name, "implicitly has type unknown"]
      return .unknown

/-- The signature of a method-like member, remembered for its body. -/
def memberSignature (m : ClassMember) (defaultReturn : Ty) : Check Func := do
  match m.function with
  | some f =>
    let sig ← buildSignature f.tparams f.params f.ret none
    let sig := { sig with ret := some (sig.ret.getD defaultReturn) }
    modify fun s => { s with signatures := s.signatures.insert f.loc.id sig }
    return sig
  | none =>
    match ← buildOption m.type with
    | some (.func sig) => return sig
    | _ => return { ret := some .unknown }

/-- Put a member on its side of a class; a member without a name is dropped. -/
def placeMember (className : String) (static : Bool) (m : Member) : Check Unit :=
  if m.name = "" then pure () else modifyClass className (·.insert static m)

/-- The member that a side of a class has under a name. -/
def sideMember? (className : String) (static : Bool) (name : String) : Check (Option Member) := do
  return (((← get).env.class? className).map (·.side static)).bind (·.find? name)

/-- Build the type of a member, and record who may use it. -/
def addClassMember (className : String) (setters : List String) (m : ClassMember) : Check Unit := do
  let name := m.name
  let static := m.static
  let place := placeMember className static
  let entry : AccessMember :=
    { name, access := m.access, static, final := m.final, abstract := m.abstract }
  match m.kind with
  | .property =>
    let type ← propertyType m
    place { name, type, optional := m.optional, readonly := m.readonly, static }
    recordMember className entry
  | .method =>
    let sig ← memberSignature m .unknown
    place { name, type := .func sig, method := true, static }
    recordMember className { entry with method := true }
  | .constructor =>
    let sig ← memberSignature m .void
    modifyClass className ({ · with ctor := some { sig with ret := some .void } })
    if m.access ≠ .pub then
      recordMember className { name := constructorName, access := m.access, method := true }
  | .getter =>
    let sig ← memberSignature m .unknown
    place { name, type := sig.result, readonly := !setters.contains name, static }
    recordMember className entry
  | .setter =>
    let sig ← memberSignature m .void
    match ← sideMember? className static name with
    | some existing => modifyClass className (·.insert static { existing with readonly := false })
    | none => place { name, type := (sig.params.head?.map (·.type)).getD .unknown, static }
    recordMember className entry

/-- Whether two members of one name are the two halves of an accessor. -/
def isAccessorPair (a b : ClassMemberKind) : Bool :=
  (a == .getter && b == .setter) || (a == .setter && b == .getter)

/-- The members of a class in turn; `seen` are those so far, with the kind of each. -/
def addClassMembers (c : ClassDecl) (setters : List String) :
    List ClassMember → List ((Bool × String) × ClassMemberKind) → Check Unit
  | [], _ => pure ()
  | m :: ms, seen => do
    let key := (m.static, m.name)
    let isDuplicate := match seen.lookup key with
      | some k => !isAccessorPair k m.kind
      | none => false
    if isDuplicate then
      report .duplicateDeclaration m.span ["duplicate member", m.name, "in class", c.name]
      addClassMembers c setters ms seen
    else
      if m.abstract && !c.abstract then
        report .abstractMember m.span
          ["abstract member", m.name, "in non-abstract class", c.name]
      addClassMember c.name setters m
      addClassMembers c setters ms ((key, m.kind) :: seen)

def resolveBase (c : ClassDecl) (base : TypeName) : Check Unit := do
  match ← buildType base.toTypeExpr with
  | .ref n args =>
    if (← get).env.isClass n && n ≠ c.name then
      modifyClass c.name ({ · with parent := some ⟨n, args⟩ })
    else
      report .typeMismatch base.span ["class", c.name, "can only extend a class, not", n]
  | _ => pure ()

/-- Add an interface that a class implements. -/
def resolveImplemented (className : String) (n : TypeName) : Check Unit := do
  match ← buildType n.toTypeExpr with
  | .ref name args =>
    modifyClass className fun c => { c with implements := c.implements ++ [⟨name, args⟩] }
  | _ => pure ()

/-- Build both sides of a class and its constructor. -/
def resolveClass (c : ClassDecl) : Check Unit := do
  if !(← get).env.isClass c.name then return
  let params ← buildTypeParams c.tparams
  modifyClass c.name ({ · with params })
  withParams params <| withSide ⟨c.name, false⟩ do
    match c.base with
    | some base => if !(← get).cyclic.contains c.name then resolveBase c base
    | none => pure ()
    c.implements.forM (resolveImplemented c.name)
    let setters := (c.members.filter (·.kind == .setter)).map (·.name)
    addClassMembers c setters c.members []

/-! ### Hierarchy -/

/-- Check a member against what the base class declares under its name. -/
def checkOverride (c : ClassDecl) (parent : Option TypeRef) (m : ClassMember) : Check Unit := do
  match parent with
  | none =>
    if m.override then
      report .invalidOverride m.span
        ["member", m.name, "is marked override but class", c.name, "has no base class"]
  | some p =>
    let classes := (← get).classes
    match classes.checkOverride c.name m.name with
    | .error e => report .overridingFinalMethod m.span [e.message]
    | .ok _ =>
      match classes.owner? p.name m.name with
      | none =>
        if m.override then
          report .invalidOverride m.span
            ["member", m.name, "is marked override but no base class declares it"]
      | some (owner, base) =>
        if base.access = .priv then return
        if base.access.rank < m.access.rank then
          report .invalidOverride m.span
            ["member", m.name, "cannot reduce visibility from", base.access.text, "to",
              m.access.text]
          return
        match ← ((← get).env.instanceType p.name p.args).run with
        | .error _ => pure ()
        | .ok inherited =>
          match inherited.find? m.name, ← sideMember? c.name false m.name with
          | some want, some own =>
            if !(← assignable own.type want.type) then
              report .invalidOverride m.span
                ["member", m.name, "of type", quoted own.type, "is not compatible with",
                  quoted want.type, "declared in", owner]
          | _, _ => pure ()

/-- The abstract members of the classes above, each with the class that declares it, nearest
first; a name that is no class ends the list. -/
def abstractMembers (classes : ClassTable) : List String → List (String × String)
  | [] => []
  | a :: as =>
    match classes.class? a with
    | none => []
    | some c =>
      ((c.members.values.filter (·.abstract)).map fun m => (a, m.name)) ++
        abstractMembers classes as

/-- Report the abstract members that a class leaves without an implementation, each once. -/
def checkImplemented (span : Span) (name : String) : Check Unit := do
  let classes := (← get).classes
  let missing := (abstractMembers classes (classes.ancestors name)).filter fun (_, m) =>
    match classes.owner? name m with
    | some (_, own) => own.abstract
    | none => true
  let step (reported : List String) (entry : String × String) : Check (List String) := do
    if reported.contains entry.2 then return reported
    report .abstractMember span
      ["class", name, "does not implement abstract member", entry.2, "of", entry.1]
    return entry.2 :: reported
  let _ ← missing.foldlM step []

/-- Check a class against the classes and interfaces that it names. -/
def checkHierarchy (l : Loc) (c : ClassDecl) : Check Unit := do
  match (← get).env.class? c.name with
  | none => pure ()
  | some shape =>
    withParams shape.params do
      if shape.parent.isSome then
        match (← get).classes.checkExtends c.name with
        | .error (.finalClass n p) =>
          report .extendingFinalClass l.span [(AccessError.finalClass n p).message]
        | _ => pure ()
      (c.members.filter fun m => m.kind != .constructor && !m.static).forM
        (checkOverride c shape.parent)
      if !c.abstract then checkImplemented l.span c.name
      let self := Ty.ref c.name (typeParamRefs shape.params)
      (shape.implements.zip c.implements).forM fun (i, written) => do
        if !(← assignable self i.toTy) then
          report .typeMismatch written.span
            ["class", c.name, "incorrectly implements", quoted i.toTy]

/-! ### Bodies -/

/-- A decorator.  A name that is not declared is a built-in decorator. -/
def checkDecorator (c : Checker) : Expr → Check Unit
  | ⟨loc, .ident name⟩ => do
    noteType loc (((← lookup? name).bind (·.type)).getD .unknown)
  | ⟨loc, .call callee _ args _⟩ => do
    checkDecorator c callee
    inferArguments c args
    noteType loc .unknown
  | ⟨loc, .member object _ _⟩ => do
    checkDecorator c object
    noteType loc .unknown
  | e => do
    let _ ← c.expr e none

/-- The decorators of a class or member. -/
def checkDecorators (c : Checker) (ds : List Expr) : Check Unit := do
  match ds with
  | [] => pure ()
  | d :: _ =>
    if (← read).options.enableDecorators then ds.forM (checkDecorator c)
    else
      report .featureDisabled d.span ["decorators are disabled (enableDecorators is off)"]

/-- The initial value of a property. -/
def checkInitial (c : Checker) (className : String) (m : ClassMember) (e : Expr) : Check Unit := do
  let declared ← sideMember? className m.static m.name
  let expected := if m.type.isSome then declared.map (·.type) else none
  let t ← c.expr e expected
  match expected, declared with
  | some want, _ => expectAssignable t want e.span
  | none, some d =>
    if d.type.isUnknown then
      modifyClass className (·.insert m.static { d with type := t.widen })
  | none, none => pure ()

def checkMethod (c : Checker) (className : String) (self : Ty) (m : ClassMember)
    (f : FunctionExpr) : Check Unit := do
  if f.body.isNone && f.result.isNone then return
  match (← get).signatures[f.loc.id]? with
  | none => pure ()
  | some sig =>
    let infer := f.ret.isNone && (m.kind == .method || m.kind == .getter)
    let got ← checkFunctionBody c f sig (some self) (m.kind == .constructor) infer
    if infer then
      match ← sideMember? className m.static m.name with
      | none => pure ()
      | some member =>
        let type := if m.kind == .method then .func got else got.result
        modifyClass className (·.insert m.static { member with type })

def checkClassBodies (c : Checker) (d : ClassDecl) : Check Unit := do
  match (← get).env.class? d.name with
  | none => pure ()
  | some shape =>
    withParams shape.params do
      checkDecorators c d.decorators
      d.members.forM fun m => withSide ⟨d.name, m.static⟩ do
        checkDecorators c m.decorators
        let self := if m.static then .classRef d.name
          else Ty.ref d.name (typeParamRefs shape.params)
        match m.kind, m.init, m.function with
        | .property, some e, _ => checkInitial c d.name m e
        | .property, none, _ => pure ()
        | _, _, some f => checkMethod c d.name self m f
        | _, _, none => pure ()

end TreeCheck.Check
