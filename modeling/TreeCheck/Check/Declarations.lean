import TreeCheck.Check.Types
import TreeCheck.Env.Flatten

/-!
# Declarations of types and functions

A declaration is looked at twice before any statement of its module is checked: first its name is
registered, so that every annotation may refer to it, and then its header is resolved.

* `nameAlias`, `nameInterface`, `nameEnum` — names;
* `resolveAlias`, `validateAlias`, `resolveInterface` — definitions;
* `declareCallable` — functions and constants that may be used before they are defined.
-/

namespace TreeCheck.Check

/-- Type parameters as arity needs them: their names, and whether they have defaults. -/
def placeholderParams (ps : List TypeParamDecl) : List TypeParam :=
  ps.map fun p => { name := p.name, default := p.default.map fun _ => .unknown }

/-- Register a definition; gives whether the name was free. -/
def register (span : Span) (add : Env → Except TypeError Env) : Check Bool := do
  match add (← get).env with
  | .ok env =>
    modify fun s => { s with env }
    return true
  | .error e =>
    report .duplicateDeclaration span [e.message]
    return false

/-- Make a statement the owner of a type name. -/
def own (name : String) (l : Loc) : Check Unit :=
  modify fun s => { s with owners := s.owners.set name l.id }

/-- Whether a statement is the owner of a type name. -/
def isOwner (name : String) (l : Loc) : Check Bool := do
  return (← get).owners.get? name == some l.id

/-! ### Names -/

def nameAlias (l : Loc) (name : String) (tparams : List TypeParamDecl) : Check Unit := do
  let a : Alias := { name, params := placeholderParams tparams, body := .unknown, span := l.span }
  if ← register l.span (·.addAlias a) then
    own name l
    declareType name l.span

/-- Register the name of an interface; a further declaration of it is merged later. -/
def nameInterface (l : Loc) (name : String) (tparams : List TypeParamDecl) : Check Unit := do
  if ((← get).env.interface? name).isSome then return
  let i : Interface := { name, params := placeholderParams tparams, span := l.span }
  if ← register l.span (·.addInterface i) then
    own name l
    declareType name l.span

/-- The constant of a case of an enumeration; a case without a value has the next number. -/
def enumConstant? (next : Number) : Option Expr → Option Lit
  | none => some (.num next)
  | some e =>
    match e.form with
    | .number n _ => some (.num n)
    | .string s => some (.str s)
    | .unary .neg ⟨_, .number n _⟩ => some (.num n.neg)
    | _ => none

/-- The number for a case without a value behind one with the given constant. -/
def numberBehind (next : Number) : Lit → Number
  | .num n => n.succ
  | _ => next

/-- The cases of an enumeration as a record of constants. -/
def enumTable (o : Object) (next : Number) : List EnumMember → Check Object
  | [] => return o
  | m :: ms => do
    match enumConstant? next m.value with
    | none =>
      report .typeMismatch m.span
        ["enum member", m.name, "must be a string or number literal"]
      enumTable o next ms
    | some l =>
      let next := numberBehind next l
      if (o.find? m.name).isSome then
        report .duplicateDeclaration m.span ["duplicate enum member", m.name]
        enumTable o next ms
      else enumTable (o.insert { name := m.name, type := .lit l, readonly := true }) next ms

/-- Declare an enumeration: a type that is the union of its constants, and a value that holds
them. -/
def nameEnum (l : Loc) (name : String) (members : List EnumMember) : Check Unit := do
  let table ← enumTable {} (.ofInt 1) members
  let body := if table.members.isEmpty then .number else Ty.unionOf (table.members.map (·.type))
  if ← register l.span (·.addAlias { name, body, span := l.span }) then
    own name l
    declare { name, kind := .enum, type := some (.object table), span := l.span }

/-! ### Definitions -/

def modifyAlias (name : String) (f : Alias → Alias) : Check Unit :=
  modifyEnv fun e => ((e.alias? name).map fun a => e.setAlias (f a)).getD e

def modifyInterface (name : String) (f : Interface → Interface) : Check Unit :=
  modifyEnv fun e => ((e.interface? name).map fun i => e.setInterface (f i)).getD e

def resolveAlias (name : String) (tparams : List TypeParamDecl) (type : Option TypeExpr) :
    Check Unit := do
  if ((← get).env.alias? name).isNone then return
  let params ← buildTypeParams tparams
  modifyAlias name ({ · with params })
  withParams params do
    let body ← buildOrUnknown type
    modifyAlias name ({ · with body })

/-- Report an alias that reaches itself, and make it `unknown`. -/
def validateAlias (l : Loc) (name : String) : Check Unit := do
  match ← ((← get).env.validateAlias name).run with
  | .ok _ => pure ()
  | .error e =>
    report .recursiveTypeAlias l.span [e.message]
    modifyAlias name ({ · with body := .unknown })

/-- Add an interface that another one extends. -/
def addBase (name : String) (b : TypeName) : Check Unit := do
  match ← buildType b.toTypeExpr with
  | .ref n args =>
    if n = name then
      report .recursiveTypeAlias b.span ["interface", name, "extends itself"]
    else modifyInterface name fun i => { i with bases := i.bases ++ [⟨n, args⟩] }
  | t =>
    if !t.isUnknown then
      report .typeMismatch b.span ["an interface can only extend named object types"]

/-- Resolve a declaration of an interface.  The first one gives the type parameters. -/
def resolveInterface (l : Loc) (name : String) (tparams : List TypeParamDecl)
    (bases : List TypeName) (body : ObjectTypeExpr) : Check Unit := do
  match (← get).env.interface? name with
  | none => pure ()
  | some i =>
    let params ← if ← isOwner name l then buildTypeParams tparams else pure i.params
    modifyInterface name ({ · with params })
    withParams params do
      bases.forM (addBase name)
      let o ← buildObject body
      modifyInterface name fun i => { i with body := i.body.extend o }

/-! ### Functions and constants -/

/-- A member of a declared namespace: only exported functions and constants can be seen. -/
def namespaceMember? (s : Stmt) : Check (Option Member) := do
  match s.form with
  | .exported (some d) _ =>
    match d.form with
    | .declareFunction name tparams params ret =>
      let sig ← buildSignature tparams params ret none
      return some { name, type := .func { sig with ret := some sig.result }, readonly := true }
    | .declareConst name type =>
      return some { name, type := ← buildOrUnknown type, readonly := true }
    | _ => return none
  | _ => return none

/-- The record that a declared namespace stands for. -/
def namespaceType (members : List Stmt) : Check Object := do
  return ({} : Object).insertAll (← members.filterMapM namespaceMember?)

/-- The signature of a declared function whose result is unknown until its body is checked. -/
def declaredSignature (f : FunctionExpr) : Check Func := do
  let sig ← buildSignature f.tparams f.params f.ret none
  return { sig with ret := some (sig.ret.getD .unknown) }

/-- Declare a function or constant ahead of its definition. -/
def declareCallable (s : Stmt) : Check Unit := do
  let span := s.span
  match s.form with
  | .function name _ f =>
    declare { name, kind := .function, type := some (.func (← declaredSignature f)), span }
  | .declareFunction name tparams params ret =>
    let sig ← buildSignature tparams params ret none
    let type := Ty.func { sig with ret := some sig.result }
    declare { name, kind := .function, type := some type, span }
  | .declareConst name type => declare { name, type := some (← buildOrUnknown type), span }
  | .declareNamespace name members =>
    declare { name, type := some (.object (← namespaceType members)), span }
  | _ => pure ()

end TreeCheck.Check
