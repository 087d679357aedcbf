import TreeCheck.Span
import TreeCheck.Ty.Union

/-!
# Symbols and scopes

* `SymbolKind`, `ScopeKind`, `Symbol` — what a name denotes, and where it was declared;
* `Scope` — one lexical region, its symbols in the order of declaration;
* `prelude` — the scope of built-in names, the same for every module.
-/

namespace TreeCheck

/-- What a name denotes. -/
inductive SymbolKind where
  | variable
  | parameter
  | function
  | classType
  | type
  | enum
  | imported
  | typeParameter
  | other (n : Nat)
deriving Repr, DecidableEq, Inhabited

namespace SymbolKind

/-- The kinds in the order of their numbers. -/
def all : List SymbolKind :=
  [.variable, .parameter, .function, .classType, .type, .enum, .imported, .typeParameter]

def ofNat (n : Nat) : SymbolKind := all[n]?.getD (.other n)

def text : SymbolKind → String
  | .variable => "variable"
  | .parameter => "parameter"
  | .function => "function"
  | .classType => "class"
  | .type => "type"
  | .enum => "enum"
  | .imported => "import"
  | .typeParameter => "type parameter"
  | .other n => s!"SymbolKind({n})"

/-- Whether a name of the kind is a value at run time. -/
def isValue : SymbolKind → Bool
  | .type => false
  | .typeParameter => false
  | _ => true

end SymbolKind

/-- The kind of a lexical region. -/
inductive ScopeKind where
  | prelude
  | module
  | function
  | block
  | classBody
deriving Repr, DecidableEq, Inhabited

def ScopeKind.text : ScopeKind → String
  | .prelude => "prelude"
  | .module => "module"
  | .function => "function"
  | .block => "block"
  | .classBody => "class"

/-- A declared name. -/
structure Symbol where
  name : String
  kind : SymbolKind := .variable
  type : Option Ty := none
  span : Span := {}
  isMutable : Bool := false
  /-- The module that declares the name. -/
  origin : String := ""
  scope : ScopeKind := .prelude
deriving Repr, Inhabited

/-- One lexical region. -/
structure Scope where
  kind : ScopeKind
  symbols : List Symbol := []
deriving Repr, Inhabited

namespace Scope

/-- The symbol that the region declares under a name. -/
def find? (s : Scope) (name : String) : Option Symbol := s.symbols.find? fun x => x.name == name

def names (s : Scope) : List String := s.symbols.map (·.name)

/-- Give the symbol of a name another type. -/
def retype (s : Scope) (name : String) (t : Option Ty) : Scope :=
  { s with symbols := s.symbols.map fun x => if x.name == name then { x with type := t } else x }

end Scope

/-! ### Built-in names -/

namespace Prelude

def param (name : String) (t : Ty) : Param := { name, type := t }

def optionalParam (name : String) (t : Ty) : Param := { name, type := t, optional := true }

def restParam (name : String) (t : Ty) : Param := { name, type := t, rest := true }

def fn (params : List Param) (ret : Ty) : Ty := .func { params, ret := some ret }

/-- A method of a library record. -/
def method (name : String) (params : List Param) (ret : Ty) : Member :=
  { name, type := fn params ret, method := true }

/-- A readonly number of a library record. -/
def constant (name : String) : Member := { name, type := .number, readonly := true }

def math : Object where
  members :=
    [method "floor" [param "x" .number] .integer,
     method "ceil" [param "x" .number] .integer,
     method "abs" [param "x" .number] .number,
     method "sqrt" [param "x" .number] .number,
     method "max" [param "x" .number, restParam "xs" .number] .number,
     method "min" [param "x" .number, restParam "xs" .number] .number,
     method "random" [optionalParam "m" .integer, optionalParam "n" .integer] .number,
     constant "huge",
     constant "pi"]

/-- The string library; its functions are the methods of strings. -/
def string : Object where
  members :=
    [method "len" [param "s" .string] .integer,
     method "sub" [param "s" .string, param "i" .integer, optionalParam "j" .integer] .string,
     method "upper" [param "s" .string] .string,
     method "lower" [param "s" .string] .string,
     method "rep" [param "s" .string, param "n" .integer] .string,
     method "format" [param "fmt" .string, restParam "args" .unknown] .string]

def table : Object where
  members :=
    [method "insert" [param "t" .table, param "v" .unknown] .void,
     method "remove" [param "t" .table, optionalParam "pos" .integer] .unknown,
     method "concat" [param "t" .table, optionalParam "sep" .string] .string]

/-- The built-in names with their types. -/
def entries : List (String × Ty) :=
  [("print", fn [restParam "args" .unknown] .void),
   ("type", fn [param "v" .unknown] .string),
   ("tostring", fn [param "v" .unknown] .string),
   ("tonumber", fn [param "v" .unknown, optionalParam "base" .integer] (.union [.number, .nil])),
   ("error", fn [param "message" .unknown, optionalParam "level" .integer] .never),
   ("assert",
    .func
      { tparams := [{ name := "T" }]
        params := [param "v" (.tvar "T"), optionalParam "message" .string]
        ret := some (.tvar "T") }),
   ("pairs", fn [param "t" .table] .unknown),
   ("ipairs", fn [param "t" .table] .unknown),
   ("select", fn [param "n" .unknown, restParam "args" .unknown] .unknown),
   ("math", .object math),
   ("string", .object string),
   ("table", .object table)]

def symbol (entry : String × Ty) : Symbol where
  name := entry.1
  kind := match entry.2 with
    | .func _ => .function
    | _ => .variable
  type := some entry.2
  origin := "prelude"
  scope := .prelude

end Prelude

def preludeScope : Scope := { kind := .prelude, symbols := Prelude.entries.map Prelude.symbol }

end TreeCheck
