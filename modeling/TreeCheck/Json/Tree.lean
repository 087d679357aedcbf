import TreeCheck.Dump.Decode
import TreeCheck.Json.Basic
import TreeCheck.Syntax.Walk

/-!
# Trees as data values

Every node becomes a record with the name of its kind under `node`, its place under `Span`, and its
parts under their names.

* `Expr.kindName` — the name of the kind of an expression;
* `Program.toJson` — a module.
-/

namespace TreeCheck

/-- The name of the kind of an expression. -/
def Expr.kindName (e : Expr) : String :=
  match e.form with
  | .bad => "BadExpression"
  | .ident _ => "Identifier"
  | .nil => "NilLiteral"
  | .bool _ => "BooleanLiteral"
  | .number _ _ => "NumberLiteral"
  | .string _ => "StringLiteral"
  | .template _ => "TemplateString"
  | .vararg => "VarargExpression"
  | .binary _ _ _ => "BinaryExpression"
  | .unary _ _ => "UnaryExpression"
  | .call _ _ _ _ => "CallExpression"
  | .methodCall _ _ _ _ => "MethodCallExpression"
  | .member _ _ _ => "MemberExpression"
  | .index _ _ _ => "IndexExpression"
  | .object _ => "ObjectExpression"
  | .array _ => "ArrayExpression"
  | .spread _ => "SpreadExpression"
  | .function _ => "FunctionExpression"
  | .conditional _ _ _ => "ConditionalExpression"
  | .cases _ _ => "MatchExpression"
  | .paren _ => "ParenExpression"
  | .self => "SelfExpression"
  | .super => "SuperExpression"
  | .assertion _ _ => "TypeAssertion"
  | .new _ _ _ => "NewExpression"
  | .attempt _ _ _ => "TryExpression"
  | .errorChain _ _ => "ErrorChainExpression"

namespace Outline

def span (s : Span) : Json := .str (s.start.text ++ "-" ++ s.stop.text)

/-- A node of a kind with its parts. -/
def node (kind : String) (s : Span) (parts : List (String × Json)) : Json :=
  .obj (("node", .str kind) :: ("Span", span s) :: parts)

def name (s : Option String) : Json := .str (s.getD "")

def lit (s : Span) (l : Lit) : Json :=
  let (kind, text, number, truth) : Nat × String × Number × Bool :=
    match l with
    | .str t => (0, t, .zero false, false)
    | .num x => (1, "", x, false)
    | .bool b => (2, "", .zero false, b)
  node "LiteralType" s [("Kind", .ofNat kind), ("String", .str text), ("Number", .str number.text),
    ("Bool", .bool truth)]

def specs (kind : String) (l : List NameSpec) : Json :=
  .ofList (fun (n : NameSpec) => node kind n.span [("Name", .str n.name), ("Alias", name n.renamed)]) l

/-- A default value of a function type as an expression. -/
def aside (file : String) (n : Yaml.Node) : Expr := ((decodeExpr file (decodeDepth n) n).run 0).1

mutual
def type : Nat → TypeExpr → Json
  | 0, _ => .null
  | k + 1, t =>
    let nd kind parts := node kind t.span parts
    match t.form with
    | .named n args => nd "NamedType" [("Name", .str n), ("Args", .ofList (type k) args)]
    | .literal l => lit t.span l
    | .array e => nd "ArrayType" [("Elem", type k e)]
    | .tuple es => nd "TupleType" [("Elems", .ofList (type k) es)]
    | .object ms i => objectType k t.span ms i
    | .function tps ps r =>
      nd "FunctionType" [("TypeParams", .ofList (typeParam k) tps),
        ("Params", .ofList (typeFnParam k) ps), ("ReturnType", .ofOption (type k) r)]
    | .union ts => nd "UnionType" [("Types", .ofList (type k) ts)]
    | .inter ts => nd "IntersectionType" [("Types", .ofList (type k) ts)]
    | .nullable i => nd "NullableType" [("Inner", type k i)]
    | .predicate p u => nd "TypePredicate" [("Param", .str p), ("Type", .ofOption (type k) u)]
    | .bad => nd "BadType" []

def objectType : Nat → Span → List TypeMember → Option IndexDecl → Json
  | 0, _, _, _ => .null
  | k + 1, s, ms, i =>
    node "ObjectType" s [
      ("Members", .ofList (fun (m : TypeMember) =>
        node "ObjectTypeMember" m.span [("Name", .str m.name), ("Type", .ofOption (type k) m.type),
          ("Optional", .bool m.optional), ("Readonly", .bool m.readonly),
          ("Method", .bool m.method)]) ms),
      ("Index", .ofOption (fun (i : IndexDecl) =>
        node "IndexSignatureType" i.span [("Key", .ofOption (type k) i.key),
          ("Value", .ofOption (type k) i.value)]) i)]

def typeParam : Nat → TypeParamDecl → Json
  | 0, _ => .null
  | k + 1, p =>
    node "TypeParameter" p.span [("Name", .str p.name),
      ("Constraint", .ofOption (type k) p.constraint), ("Default", .ofOption (type k) p.default)]

def typeFnParam : Nat → ParamDeclOf TypeExpr Yaml.Node → Json
  | 0, _ => .null
  | k + 1, p =>
    node "Parameter" p.span [("Name", .str p.name), ("Type", .ofOption (type k) p.type),
      ("Optional", .bool p.optional),
      ("Default", .ofOption (fun n => expr k (aside p.span.file n)) p.default),
      ("Rest", .bool p.rest)]

def param : Nat → ParamDeclOf TypeExpr Expr → Json
  | 0, _ => .null
  | k + 1, p =>
    node "Parameter" p.span [("Name", .str p.name), ("Type", .ofOption (type k) p.type),
      ("Optional", .bool p.optional), ("Default", .ofOption (expr k) p.default),
      ("Rest", .bool p.rest)]

def pattern : Nat → Pattern → Json
  | 0, _ => .null
  | k + 1, p =>
    let nd kind parts := node kind p.span parts
    match p.form with
    | .wildcard => nd "WildcardPattern" []
    | .ident n => nd "IdentifierPattern" [("Name", .str n)]
    | .literal e => nd "LiteralPattern" [("Value", expr k e)]
    | .typed n t => nd "TypePattern" [("Name", name n), ("Type", .ofOption (type k) t)]
    | .array es r => nd "ArrayPattern" [("Elements", .ofList (pattern k) es), ("Rest", name r)]
    | .object fs r =>
      nd "ObjectPattern" [
        ("Fields", .ofList (fun (f : PatternField) =>
          node "ObjectPatternField" f.span [("Key", .str f.key),
            ("Value", .ofOption (pattern k) f.value)]) fs),
        ("Rest", name r)]
    | .bad => nd "BadPattern" []

def expr : Nat → Expr → Json
  | 0, _ => .null
  | k + 1, e =>
    let nd parts := node e.kindName e.span parts
    let types (ts : List TypeExpr) : Json := .ofList (type k) ts
    let exprs (es : List Expr) : Json := .ofList (expr k) es
    match e.form with
    | .ident n => nd [("Name", .str n)]
    | .bool b => nd [("Value", .bool b)]
    | .number x i => nd [("Value", .str x.text), ("Integer", .bool i)]
    | .string s => nd [("Value", .str s)]
    | .template ps => nd [("Parts", exprs ps)]
    | .binary o l r => nd [("Operator", .str o.text), ("Left", expr k l), ("Right", expr k r)]
    | .unary o x => nd [("Operator", .str o.text), ("Operand", expr k x)]
    | .call c ts as o =>
      nd [("Callee", expr k c), ("TypeArgs", types ts), ("Args", exprs as), ("Optional", .bool o)]
    | .methodCall r m ts as =>
      nd [("Receiver", expr k r), ("Method", .str m), ("TypeArgs", types ts), ("Args", exprs as)]
    | .member o n q => nd [("Object", expr k o), ("Name", .str n), ("Optional", .bool q)]
    | .index o i q => nd [("Object", expr k o), ("Index", expr k i), ("Optional", .bool q)]
    | .object fs =>
      nd [("Fields", .ofList (fun (f : ObjectField) =>
        node "ObjectField" f.span [
          ("Kind", .ofNat (match f.kind with
            | .named => 0
            | .computed => 1
            | .spread => 2)),
          ("Name", .str f.name), ("Key", .ofOption (expr k) f.key), ("Value", expr k f.value)]) fs)]
    | .array es => nd [("Elements", exprs es)]
    | .spread v => nd [("Value", expr k v)]
    | .function f => function k f
    | .conditional c t f => nd [("Condition", expr k c), ("Then", expr k t), ("Else", expr k f)]
    | .cases s as =>
      nd [("Subject", expr k s),
        ("Arms", .ofList (fun (a : MatchArm) =>
          node "MatchArm" a.span [("Pattern", pattern k a.pattern),
            ("Guard", .ofOption (expr k) a.guard), ("Body", expr k a.body)]) as)]
    | .paren i => nd [("Inner", expr k i)]
    | .assertion x t => nd [("Expression", expr k x), ("Type", .ofOption (type k) t)]
    | .new c ts as =>
      nd [("Class", .str c), ("ClassSpan", span e.span), ("TypeArgs", types ts), ("Args", exprs as)]
    | .attempt v n f => nd [("Value", expr k v), ("CatchVar", name n), ("Catch", expr k f)]
    | .errorChain l r => nd [("Left", expr k l), ("Right", expr k r)]
    | _ => nd []

def function : Nat → FunctionExpr → Json
  | 0, _ => .null
  | k + 1, f =>
    node "FunctionExpression" f.loc.span [("TypeParams", .ofList (typeParam k) f.tparams),
      ("Params", .ofList (param k) f.params), ("ReturnType", .ofOption (type k) f.ret),
      ("Body", .ofOption (block k) f.body), ("Result", .ofOption (expr k) f.result)]

def block : Nat → Block → Json
  | 0, _ => .null
  | k + 1, b => node "Block" b.span [("Statements", .ofList (stmt k) b.stmts)]

def stmt : Nat → Stmt → Json
  | 0, _ => .null
  | k + 1, s =>
    let nd kind parts := node kind s.span parts
    let tparams (ps : List TypeParamDecl) : Json := .ofList (typeParam k) ps
    let type? (t : Option TypeExpr) : Json := .ofOption (type k) t
    let typeName (n : TypeName) : Json := type k n.toTypeExpr
    match s.form with
    | .bad => nd "BadStatement" []
    | .block b => block k b
    | .variable c p t v =>
      nd "VariableDeclaration" [("Kind", .ofNat (if c then 1 else 0)), ("Target", pattern k p),
        ("Type", type? t), ("Value", expr k v)]
    | .assign t o v =>
      nd "AssignmentStatement" [("Target", expr k t), ("Op", name (o.map BinOp.text)),
        ("Value", expr k v)]
    | .expr e => nd "ExpressionStatement" [("Expression", expr k e)]
    | .function n l f =>
      nd "FunctionDeclaration" [("Name", .str n), ("NameSpan", span s.span), ("Local", .bool l),
        ("TypeParams", tparams f.tparams), ("Params", .ofList (param k) f.params),
        ("ReturnType", type? f.ret), ("Body", .ofOption (block k) f.body)]
    | .typeAlias n ps t =>
      nd "TypeAliasDeclaration" [("Name", .str n), ("TypeParams", tparams ps), ("Type", type? t)]
    | .interface n ps bs b =>
      nd "InterfaceDeclaration" [("Name", .str n), ("TypeParams", tparams ps),
        ("Extends", .ofList typeName bs), ("Body", objectType k s.span b.members b.index)]
    | .enum n ms =>
      nd "EnumDeclaration" [("Name", .str n),
        ("Members", .ofList (fun (m : EnumMember) =>
          node "EnumMember" m.span [("Name", .str m.name), ("Value", .ofOption (expr k) m.value)]) ms)]
    | .class c =>
      nd "ClassDeclaration" [("Name", .str c.name), ("NameSpan", span s.span),
        ("TypeParams", tparams c.tparams), ("Extends", .ofOption typeName c.base),
        ("Implements", .ofList typeName c.implements), ("Abstract", .bool c.abstract),
        ("Final", .bool c.final), ("Members", .ofList (classMember k) c.members),
        ("Decorators", .ofList (expr k) c.decorators)]
    | .declareFunction n tps ps r =>
      nd "DeclareFunction" [("Name", .str n), ("TypeParams", tparams tps),
        ("Params", .ofList (param k) ps), ("ReturnType", type? r)]
    | .declareConst n t => nd "DeclareConst" [("Name", .str n), ("Type", type? t)]
    | .declareNamespace n ms =>
      nd "DeclareNamespace" [("Name", .str n), ("Members", .ofList (stmt k) ms)]
    | .importing i =>
      nd "ImportStatement" [("Module", .str i.module), ("Names", specs "ImportSpec" i.names),
        ("Namespace", name i.wholeName), ("TypeOnly", .bool i.typeOnly)]
    | .exported d ns =>
      nd "ExportStatement" [("Decl", .ofOption (stmt k) d), ("Names", specs "ExportSpec" ns)]
    | .branch c b es e =>
      nd "IfStatement" [("Condition", expr k c), ("Then", block k b),
        ("ElseIfs", .ofList (fun (x : ElseIf) =>
          node "ElseIf" x.span [("Condition", expr k x.cond), ("Body", block k x.body)]) es),
        ("Else", .ofOption (block k) e)]
    | .while c b => nd "WhileStatement" [("Condition", expr k c), ("Body", block k b)]
    | .repeat b c => nd "RepeatStatement" [("Body", block k b), ("Condition", expr k c)]
    | .numericFor v a l t b =>
      nd "NumericForStatement" [("Var", .str v), ("Start", expr k a), ("Limit", expr k l),
        ("Step", .ofOption (expr k) t), ("Body", block k b)]
    | .genericFor vs i b =>
      nd "GenericForStatement" [("Vars", .ofStrs vs), ("Iterator", expr k i), ("Body", block k b)]
    | .ret vs => nd "ReturnStatement" [("Values", .ofList (expr k) vs)]
    | .break => nd "BreakStatement" []
    | .continue => nd "ContinueStatement" []
    | .attempt b hs c =>
      nd "TryStatement" [("Body", block k b),
        ("Catches", .ofList (fun (h : CatchClause) =>
          node "CatchClause" h.span [("Var", name h.var), ("Types", .ofList (type k) h.types),
            ("Body", block k h.body)]) hs),
        ("Finally", .ofOption (block k) c)]
    | .throw v => nd "ThrowStatement" [("Value", expr k v)]
    | .rethrow => nd "RethrowStatement" []

def classMember : Nat → ClassMember → Json
  | 0, _ => .null
  | k + 1, m =>
    node "ClassMember" m.span [
      ("Kind", .ofNat (match m.kind with
        | .property => 0
        | .method => 1
        | .constructor => 2
        | .getter => 3
        | .setter => 4)),
      ("Name", .str m.name),
      ("Access", .ofNat (match m.access with
        | .pub => 0
        | .priv => 1
        | .prot => 2)),
      ("Static", .bool m.static), ("Readonly", .bool m.readonly), ("Abstract", .bool m.abstract),
      ("Final", .bool m.final), ("Override", .bool m.override), ("Optional", .bool m.optional),
      ("Type", .ofOption (type k) m.type), ("Init", .ofOption (expr k) m.init),
      ("Function", .ofOption (function k) m.function),
      ("Decorators", .ofList (expr k) m.decorators)]
end

end Outline

def Program.toJson (p : Program) : Json :=
  .obj [("node", .str "Program"), ("File", .str p.file), ("Module", .str p.module),
    ("Statements", .ofList (Outline.stmt (2 * p.size)) p.stmts)]

end TreeCheck
