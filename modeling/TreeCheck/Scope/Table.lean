import TreeCheck.Scope.Symbol

/-!
# The symbol table

A table is a stack of scopes on a module scope, which itself stands on the prelude.  The module
scope is a field of its own, so no operation can remove it, and the prelude is no field at all, so
none can change it.

* `SymbolTable.enter`, `SymbolTable.exit` — open and close a scope;
* `SymbolTable.declare` — declare a name in the innermost scope;
* `SymbolTable.find?` — the nearest declaration of a name;
* `SymbolTable.update` — change the type of the nearest declaration outside the prelude.
-/

namespace TreeCheck

/-- What is wrong with a declaration or a use of a name. -/
inductive SymbolError where
  | duplicate (name : String) (previous : Symbol)
  | undefined (name : String)
deriving Repr, Inhabited

def SymbolError.message : SymbolError → String
  | .duplicate n previous =>
    s!"'{n}' is already declared in this scope" ++
      if previous.span.isValid then s!" (previous declaration at {previous.span.text})" else ""
  | .undefined n => s!"undefined symbol: {n}"

/-- A stack of scopes. -/
structure SymbolTable where
  /-- The module that declarations are stamped with. -/
  origin : String := ""
  /-- The scopes above the module scope, the innermost first. -/
  inner : List Scope := []
  module : Scope := { kind := .module }
deriving Repr, Inhabited

namespace SymbolTable

/-- All scopes that can be seen, the innermost first. -/
def scopes (t : SymbolTable) : List Scope := t.inner ++ [t.module, preludeScope]

def current (t : SymbolTable) : Scope := t.inner.headD t.module

def parent (t : SymbolTable) : Scope := (t.scopes.drop 1).headD preludeScope

def setCurrent (t : SymbolTable) (s : Scope) : SymbolTable :=
  match t.inner with
  | [] => { t with module := s }
  | _ :: r => { t with inner := s :: r }

def enter (t : SymbolTable) (kind : ScopeKind) : SymbolTable :=
  { t with inner := { kind } :: t.inner }

/-- Close the innermost scope; the module scope stays. -/
def exit (t : SymbolTable) : SymbolTable := { t with inner := t.inner.tail }

/-- The number of scopes above the module scope. -/
def depth (t : SymbolTable) : Nat := t.inner.length

/-- Close scopes until `depth` remain above the module scope. -/
def exitTo (t : SymbolTable) (depth : Nat) : SymbolTable :=
  { t with inner := t.inner.drop (t.inner.length - depth) }

/-- Whether declarations land at the top level. -/
def isModuleScope (t : SymbolTable) : Bool := t.inner.isEmpty

/-- Whether some scope around is the body of a function. -/
def inFunction (t : SymbolTable) : Bool := t.scopes.any (·.kind == .function)

/-- Declare a symbol in the innermost scope.  Names of outer scopes may be hidden, but a name is
declared once in a scope. -/
def declare (t : SymbolTable) (s : Symbol) : Except SymbolError SymbolTable :=
  match t.current.find? s.name with
  | some previous => .error (.duplicate s.name previous)
  | none =>
    let s :=
      { s with
        origin := if s.origin = "" then t.origin else s.origin
        scope := t.current.kind }
    .ok (t.setCurrent { t.current with symbols := t.current.symbols ++ [s] })

/-- The nearest declaration of a name. -/
def find? (t : SymbolTable) (name : String) : Option Symbol := t.scopes.findSome? (·.find? name)

/-- The nearest declaration of a name, or the error that there is none. -/
def lookup (t : SymbolTable) (name : String) : Except SymbolError Symbol :=
  match t.find? name with
  | some s => .ok s
  | none => .error (.undefined name)

def isLocal (t : SymbolTable) (name : String) : Bool := (t.current.find? name).isSome

/-- Give the nearest declaration of a name in a list of scopes another type.  The search ends at the
first scope of built-in names. -/
def retypeIn (name : String) (type : Option Ty) : List Scope → Option (List Scope)
  | [] => none
  | s :: r =>
    if s.kind = .prelude then none
    else if (s.find? name).isSome then some (s.retype name type :: r)
    else (retypeIn name type r).map (s :: ·)

/-- Give the nearest declaration of a name outside the prelude another type. -/
def update (t : SymbolTable) (name : String) (type : Option Ty) : Except SymbolError SymbolTable :=
  match retypeIn name type t.inner with
  | some inner => .ok { t with inner }
  | none =>
    if t.inner.all (·.kind != .prelude) && (t.module.find? name).isSome then
      .ok { t with module := t.module.retype name type }
    else .error (.undefined name)

/-- The symbols of the module scope, in the order of declaration. -/
def topLevel (t : SymbolTable) : List Symbol := t.module.symbols

/-- Every name that can be seen, the innermost scope first, each once. -/
def allNames (t : SymbolTable) : List String := (t.scopes.flatMap (·.names)).eraseDups

theorem depth_enter (t : SymbolTable) (k : ScopeKind) : (t.enter k).depth = t.depth + 1 := rfl

theorem exit_enter (t : SymbolTable) (k : ScopeKind) : (t.enter k).exit = t := rfl

theorem module_exit (t : SymbolTable) : t.exit.module = t.module := rfl

end SymbolTable

end TreeCheck
