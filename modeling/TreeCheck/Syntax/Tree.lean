import TreeCheck.Syntax.TypeExpr
import TreeCheck.Visibility

/-!
# Syntax trees

The tree of one module, as a parser leaves it.  What a parser could not read is kept as a `bad`
form, which is checked as if it were of any type.

* `BinOp`, `UnOp` — operators by meaning, with the spelling of those that are not known;
* `Pattern`, `Expr`, `Stmt` — the nodes beside type annotations, each with its place; expressions
  and statements also have an identity, so that facts can be noted about one of them;
* `Program` — a module.
-/

namespace TreeCheck

/-- The identity and the place of a node. -/
structure Loc where
  id : Nat := 0
  span : Span := {}
deriving Repr, Inhabited

/-- An operator between two operands. -/
inductive BinOp where
  | add | sub | mul | div | intDiv | mod | pow | concat
  | eq | ne | lt | le | gt | ge
  | and | or
  | bitAnd | bitOr | bitXor | shl | shr
  | coalesce | pipe | instanceOf
  | other (spelling : String)
deriving Repr, DecidableEq, Inhabited

namespace BinOp

def spellings : List (String × BinOp) :=
  [("+", .add), ("-", .sub), ("*", .mul), ("/", .div), ("//", .intDiv), ("%", .mod), ("^", .pow),
   ("..", .concat), ("==", .eq), ("~=", .ne), ("<", .lt), ("<=", .le), (">", .gt), (">=", .ge),
   ("and", .and), ("or", .or), ("&", .bitAnd), ("|", .bitOr), ("~", .bitXor), ("<<", .shl),
   (">>", .shr), ("??", .coalesce), ("|>", .pipe), ("instanceof", .instanceOf)]

def ofText (s : String) : BinOp := (spellings.lookup s).getD (.other s)

def text (o : BinOp) : String :=
  match o with
  | .other s => s
  | _ => ((spellings.find? (·.2 == o)).map (·.1)).getD ""

end BinOp

/-- An operator before its operand. -/
inductive UnOp where
  | neg | not | len | bitNot
  | other (spelling : String)
deriving Repr, DecidableEq, Inhabited

namespace UnOp

def spellings : List (String × UnOp) := [("-", .neg), ("not", .not), ("#", .len), ("~", .bitNot)]

def ofText (s : String) : UnOp := (spellings.lookup s).getD (.other s)

def text (o : UnOp) : String :=
  match o with
  | .other s => s
  | _ => ((spellings.find? (·.2 == o)).map (·.1)).getD ""

end UnOp

/-- What an entry of an object constructor sets: a name, a computed key, or all members of another
object. -/
inductive FieldKind where
  | named
  | computed
  | spread
deriving Repr, DecidableEq, Inhabited

/-- The entries of a class body. -/
inductive ClassMemberKind where
  | property
  | method
  | constructor
  | getter
  | setter
deriving Repr, DecidableEq, Inhabited

/-- A name in an import or export list, with the name that it gets. -/
structure NameSpec where
  span : Span
  name : String
  renamed : Option String := none
deriving Repr, Inhabited

/-- The name on the other side of the list: the new one if there is one. -/
def NameSpec.newName (s : NameSpec) : String := s.renamed.getD s.name

/-- `import … from module`. -/
structure ImportDecl where
  module : String
  names : List NameSpec := []
  /-- The name that the whole module is bound to. -/
  wholeName : Option String := none
  typeOnly : Bool := false
deriving Repr, Inhabited

mutual

/-- A pattern of a declaration or of a match arm. -/
structure Pattern where
  span : Span
  form : PatternForm

/-- The forms of patterns. -/
inductive PatternForm where
  | wildcard
  | ident (name : String)
  | literal (value : Expr)
  | typed (name : Option String) (type : Option TypeExpr)
  | array (elements : List Pattern) (rest : Option String)
  | object (fields : List PatternField) (rest : Option String)
  | bad

/-- A field of an object pattern; without a pattern the name of the key is bound. -/
structure PatternField where
  span : Span
  key : String
  value : Option Pattern

/-- An expression. -/
structure Expr where
  loc : Loc
  form : ExprForm

/-- The forms of expressions. -/
inductive ExprForm where
  | bad
  | ident (name : String)
  | nil
  | bool (b : Bool)
  | number (value : Number) (isInteger : Bool)
  | string (s : String)
  | template (parts : List Expr)
  | vararg
  | binary (op : BinOp) (left right : Expr)
  | unary (op : UnOp) (operand : Expr)
  | call (callee : Expr) (targs : List TypeExpr) (args : List Expr) (optional : Bool)
  | methodCall (receiver : Expr) (method : String) (targs : List TypeExpr) (args : List Expr)
  | member (object : Expr) (name : String) (optional : Bool)
  | index (object : Expr) (index : Expr) (optional : Bool)
  | object (fields : List ObjectField)
  | array (elements : List Expr)
  | spread (value : Expr)
  | function (f : FunctionExpr)
  | conditional (cond thenValue elseValue : Expr)
  | cases (subject : Expr) (arms : List MatchArm)
  | paren (inner : Expr)
  | self
  | super
  | assertion (inner : Expr) (type : Option TypeExpr)
  | new (className : String) (targs : List TypeExpr) (args : List Expr)
  | attempt (value : Expr) (errorName : Option String) (fallback : Expr)
  | errorChain (left right : Expr)

/-- An entry of an object constructor. -/
structure ObjectField where
  span : Span
  kind : FieldKind
  name : String
  key : Option Expr
  value : Expr

/-- An arm of a match. -/
structure MatchArm where
  span : Span
  pattern : Pattern
  guard : Option Expr
  body : Expr

/-- A function with the node that it belongs to.  A function that is one expression has it as
`result`; an abstract method has neither body nor result. -/
structure FunctionExpr where
  loc : Loc
  tparams : List TypeParamDecl
  params : List (ParamDeclOf TypeExpr Expr)
  ret : Option TypeExpr
  body : Option Block
  result : Option Expr

/-- Statements with a scope of their own. -/
structure Block where
  span : Span
  stmts : List Stmt

/-- A statement. -/
structure Stmt where
  loc : Loc
  form : StmtForm

/-- The forms of statements. -/
inductive StmtForm where
  | bad
  | block (b : Block)
  | variable (isConst : Bool) (target : Pattern) (type : Option TypeExpr) (value : Expr)
  /-- Assignment; compound forms have an operator. -/
  | assign (target : Expr) (op : Option BinOp) (value : Expr)
  | expr (e : Expr)
  | function (name : String) (isLocal : Bool) (f : FunctionExpr)
  | typeAlias (name : String) (tparams : List TypeParamDecl) (type : Option TypeExpr)
  | interface (name : String) (tparams : List TypeParamDecl) (bases : List TypeName)
      (body : ObjectTypeExpr)
  | enum (name : String) (members : List EnumMember)
  | class (c : ClassDecl)
  | declareFunction (name : String) (tparams : List TypeParamDecl) (params : List (ParamDeclOf TypeExpr Expr))
      (ret : Option TypeExpr)
  | declareConst (name : String) (type : Option TypeExpr)
  | declareNamespace (name : String) (members : List Stmt)
  | importing (i : ImportDecl)
  | exported (decl : Option Stmt) (names : List NameSpec)
  | branch (cond : Expr) (body : Block) (elseIfs : List ElseIf) (elseBody : Option Block)
  | while (cond : Expr) (body : Block)
  | repeat (body : Block) (cond : Expr)
  | numericFor (var : String) (start limit : Expr) (step : Option Expr) (body : Block)
  | genericFor (vars : List String) (iterator : Expr) (body : Block)
  | ret (values : List Expr)
  | break
  | continue
  | attempt (body : Block) (handlers : List CatchClause) (cleanup : Option Block)
  | throw (value : Expr)
  | rethrow

/-- A case of an enumeration; without a value it has the next number. -/
structure EnumMember where
  span : Span
  name : String
  value : Option Expr

/-- A further condition of a branch. -/
structure ElseIf where
  span : Span
  cond : Expr
  body : Block

/-- A handler of errors; without types it takes all. -/
structure CatchClause where
  span : Span
  var : Option String
  types : List TypeExpr
  body : Block

/-- A class declaration. -/
structure ClassDecl where
  name : String
  tparams : List TypeParamDecl
  base : Option TypeName
  implements : List TypeName
  abstract : Bool
  final : Bool
  members : List ClassMember
  decorators : List Expr

/-- An entry of a class body: properties have a type and an initial value, all others a function. -/
structure ClassMember where
  span : Span
  kind : ClassMemberKind
  name : String
  access : Visibility
  static : Bool
  readonly : Bool
  abstract : Bool
  final : Bool
  override : Bool
  optional : Bool
  type : Option TypeExpr
  init : Option Expr
  function : Option FunctionExpr
  decorators : List Expr

end

instance : Inhabited Pattern := ⟨⟨{}, .bad⟩⟩
instance : Inhabited Expr := ⟨⟨{}, .bad⟩⟩
instance : Inhabited Stmt := ⟨⟨{}, .bad⟩⟩
instance : Inhabited Block := ⟨⟨{}, []⟩⟩

def Expr.span (e : Expr) : Span := e.loc.span

def Stmt.span (s : Stmt) : Span := s.loc.span

/-- The first entry of a class body with the name. -/
def ClassDecl.member? (c : ClassDecl) (name : String) : Option ClassMember :=
  c.members.find? fun m => m.name == name

/-- The declaration inside an export, or the statement itself. -/
def Stmt.unwrapped (s : Stmt) : Stmt :=
  match s.form with
  | .exported (some d) _ => d
  | _ => s

/-- A module. -/
structure Program where
  file : String := ""
  /-- The name under which other modules import this one; empty when the tree names none. -/
  module : String := ""
  stmts : List Stmt := []
deriving Inhabited

/-- The modules that a module imports, each once, in the order of the imports. -/
def Program.imports (p : Program) : List String :=
  (p.stmts.filterMap fun s =>
    match s.form with
    | .importing i => some i.module
    | _ => none).eraseDups

end TreeCheck
