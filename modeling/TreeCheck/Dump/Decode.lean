import TreeCheck.Dump.View
import TreeCheck.Syntax.Tree
import TreeCheck.Yaml.Document

/-!
# Trees of dumps

* `decodeType` — a type annotation;
* `decodePattern`, `decodeExpr`, `decodeStmt` — the other nodes, which get identities on the way;
* `Program.ofText` — the tree of a dumped module.

A node takes its place from its `span`, or else from where it stands in the dump.  Nodes of unknown
kinds, and required parts that are missing, become `bad`.
-/

namespace TreeCheck

open Yaml (Node)

/-- Why a dump has no tree. -/
inductive DumpError where
  | malformed (file : String)
  | notMapping (file : String)
  | noStatements (file : String)
deriving Repr, DecidableEq, Inhabited

def DumpError.message : DumpError → String
  | .malformed f => s!"parsing {f}: malformed text"
  | .notMapping f => s!"{f}: tree dump must be a mapping"
  | .noStatements f => s!"{f}: tree dump has no statements"

def nodeSpan (file : String) (n : Node) : Span :=
  match n.ints? "span" with
  | some [l, c, el, ec] => { Span.between l c el ec with file }
  | _ => { file, start := n.place, stop := n.place }

/-! ### Annotations -/

/-- A constant in a type: a truth value, a number, or else the text. -/
def decodeLit (v : Node) : Lit :=
  match v.tag? with
  | some .bool => .bool (Node.trueWords.contains v.text)
  | some .int => .num (Number.read v.text).toNumber
  | some .float => .num (Number.read v.text).toNumber
  | _ => .str v.text

mutual
def decodeType (file : String) : Nat → Node → TypeExpr
  | 0, n => ⟨nodeSpan file n, .bad⟩
  | k + 1, n =>
    let types (key : String) : List TypeExpr := (n.list key).map (decodeType file k)
    let type? (key : String) : Option TypeExpr := (n.child? key).map (decodeType file k)
    let form : TypeForm :=
      if n.isScalar then .named n.text []
      else
        match n.kind with
        | "named" => .named (n.str "name") (types "args")
        | "literal" => ((n.field? "value").map fun v => .literal (decodeLit v)).getD .bad
        | "array" => ((type? "elem").map .array).getD .bad
        | "tuple" => .tuple (types "elems")
        | "object" => .object (decodeTypeMembers file k (n.list "members")) (decodeIndex file k n)
        | "function" =>
          .function (decodeTypeParams file k (n.list "type_params"))
            (decodeTypeFnParams file k (n.list "params")) (type? "returns")
        | "union" => .union (types "types")
        | "intersection" => .inter (types "types")
        | "nullable" => ((type? "inner").map .nullable).getD .bad
        | "predicate" => .predicate (n.str "param") (type? "type")
        | _ => .bad
    ⟨nodeSpan file n, form⟩

def decodeTypeMembers (file : String) : Nat → List Node → List TypeMember
  | 0, _ => []
  | k + 1, ms =>
    ms.map fun m =>
      { span := nodeSpan file m
        name := m.str "name"
        type := (m.child? "type").map (decodeType file k)
        optional := m.flag "optional"
        readonly := m.flag "readonly"
        method := m.flag "method" }

/-- The index signature of a record type. -/
def decodeIndex (file : String) : Nat → Node → Option IndexDecl
  | 0, _ => none
  | k + 1, n =>
    (n.child? "index").map fun i =>
      { span := nodeSpan file i
        key := (i.child? "key").map (decodeType file k)
        value := (i.child? "value").map (decodeType file k) }

def decodeTypeParams (file : String) : Nat → List Node → List TypeParamDecl
  | 0, _ => []
  | k + 1, ps =>
    ps.map fun p =>
      { span := nodeSpan file p
        name := p.name
        constraint := (p.child? "constraint").map (decodeType file k)
        default := (p.child? "default").map (decodeType file k) }

def decodeTypeFnParams (file : String) : Nat → List Node → List (ParamDeclOf TypeExpr Node)
  | 0, _ => []
  | k + 1, ps =>
    ps.map fun p =>
      { span := nodeSpan file p
        name := p.name
        type := (p.child? "type").map (decodeType file k)
        optional := p.flag "optional"
        default := p.child? "default"
        rest := p.flag "rest" }
end

/-- A named type; other annotations do not count. -/
def decodeTypeName? (file : String) (k : Nat) (n : Node) : Option TypeName :=
  let t := decodeType file k n
  match t.form with
  | .named name args => some ⟨t.span, name, args⟩
  | _ => none

/-! ### Expressions and statements -/

abbrev Decode := StateM Nat

/-- A new identity at a place. -/
def newLoc (span : Span) : Decode Loc := do
  let id ← getModify (· + 1)
  return ⟨id, span⟩

def badExpr (span : Span) : Decode Expr := do return ⟨← newLoc span, .bad⟩

/-- A number as an expression; one that is no number, or none in range, is `bad`. -/
def numberForm (n v : Node) : ExprForm :=
  match Number.read v.text with
  | .value x => .number x (v.tag? == some .int || n.flag "integer")
  | _ => .bad

/-- The constant in the `value` of a node. -/
def literalForm (n : Node) : ExprForm :=
  match n.field? "value" with
  | none => .bad
  | some v =>
    match v.tag? with
    | some .null => .nil
    | some .bool => .bool (Node.trueWords.contains v.text)
    | some .int => numberForm n v
    | some .float => numberForm n v
    | _ => .string v.text

/-- The kind of an entry of an object constructor. -/
def fieldKind (s : String) : FieldKind :=
  match s with
  | "computed" => .computed
  | "spread" => .spread
  | _ => .named

def memberKind (s : String) : ClassMemberKind :=
  match s with
  | "method" => .method
  | "constructor" => .constructor
  | "getter" => .getter
  | "setter" => .setter
  | _ => .property

/-- A name list of an import or export. -/
def nameSpecs (file : String) (ns : List Node) : List NameSpec :=
  ns.map fun n => { span := nodeSpan file n, name := n.name, renamed := n.str? "as" }

/-- A block around statements: it covers them, and stands at its own place when it has none. -/
def blockSpan (own : Span) (stmts : List Stmt) : Span :=
  match stmts.head?, stmts.getLast? with
  | some a, some b => a.span.cover b.span
  | _, _ => own

mutual
def decodePattern (file : String) : Nat → Node → Decode Pattern
  | 0, n => return ⟨nodeSpan file n, .bad⟩
  | k + 1, n => do
    let span := nodeSpan file n
    if n.isScalar then
      return ⟨span, if n.text = "_" then .wildcard else .ident n.text⟩
    match n.kind with
    | "ident" => return ⟨span, .ident (n.str "name")⟩
    | "literal" =>
      match (n.child? "value").filter fun v => !v.isScalar with
      | some v => return ⟨span, .literal (← decodeExpr file k v)⟩
      | none => return ⟨span, .literal ⟨← newLoc span, literalForm n⟩⟩
    | "type" =>
      return ⟨span, .typed (n.str? "name") ((n.child? "type").map (decodeType file k))⟩
    | "array" =>
      return ⟨span, .array (← (n.list "elements").mapM (decodePattern file k)) (n.str? "rest")⟩
    | "object" =>
      let fields ← (n.list "fields").mapM (decodePatternField file k)
      return ⟨span, .object fields (n.str? "rest")⟩
    | "wildcard" => return ⟨span, .wildcard⟩
    | _ => return ⟨span, .bad⟩

/-- A field of an object pattern. -/
def decodePatternField (file : String) : Nat → Node → Decode PatternField
  | 0, f => return ⟨nodeSpan file f, f.str "key", none⟩
  | k + 1, f => do
    let span := nodeSpan file f
    if f.isScalar then return ⟨span, f.text, none⟩
    match f.child? "value" with
    | some v => return ⟨span, f.str "key", some (← decodePattern file k v)⟩
    | none => return ⟨span, f.str "key", none⟩

/-- The expression in a field, or `bad` when it is missing. -/
def decodeField (file : String) : Nat → Node → String → Decode Expr
  | 0, n, _ => badExpr (nodeSpan file n)
  | k + 1, n, key =>
    match n.child? key with
    | some c => decodeExpr file k c
    | none => badExpr (nodeSpan file n)

/-- The expression in a field that may be left out. -/
def decodeOption (file : String) : Nat → Node → String → Decode (Option Expr)
  | 0, _, _ => return none
  | k + 1, n, key =>
    match n.child? key with
    | some c => do return some (← decodeExpr file k c)
    | none => return none

def decodeExpr (file : String) : Nat → Node → Decode Expr
  | 0, n => badExpr (nodeSpan file n)
  | k + 1, n => do
    let loc ← newLoc (nodeSpan file n)
    return ⟨loc, ← decodeExprForm file k loc n⟩

def decodeExprForm (file : String) : Nat → Loc → Node → Decode ExprForm
  | 0, _, _ => return .bad
  | k + 1, loc, n => do
    let part := decodeField file k n
    let parts (key : String) : Decode (List Expr) := (n.list key).mapM (decodeExpr file k)
    let targs := (n.list "type_args").map (decodeType file k)
    if n.isScalar then return .ident n.text
    match n.kind with
    | "ident" => return .ident (n.str "name")
    | "nil" => return .nil
    | "bool" => return .bool (n.flag "value")
    | "number" => return ((n.field? "value").map (numberForm n)).getD .bad
    | "string" => return .string (n.str "value")
    | "literal" => return literalForm n
    | "template" =>
      return .template (← (n.list "parts").mapM fun p =>
        if p.isScalar then do return ⟨← newLoc (nodeSpan file p), .string p.text⟩
        else decodeExpr file k p)
    | "vararg" => return .vararg
    | "binary" =>
      let left ← part "left"
      return .binary (.ofText (n.str "op")) left (← part "right")
    | "unary" => return .unary (.ofText (n.str "op")) (← part "operand")
    | "call" =>
      let callee ← part "callee"
      return .call callee targs (← parts "args") (n.flag "optional")
    | "method_call" =>
      let receiver ← part "receiver"
      return .methodCall receiver (n.str "method") targs (← parts "args")
    | "member" => return .member (← part "object") (n.str "name") (n.flag "optional")
    | "index" =>
      let object ← part "object"
      return .index object (← part "index") (n.flag "optional")
    | "object" => return .object (← (n.list "fields").mapM (decodeObjectField file k))
    | "array" => return .array (← parts "elements")
    | "spread" => return .spread (← part "value")
    | "function" => return .function (← decodeFunction file k loc n true)
    | "arrow" => return .function (← decodeFunction file k loc n true)
    | "try" =>
      let value ← part "value"
      return .attempt value (n.str? "var") (← part "catch")
    | "error_chain" =>
      let left ← part "left"
      return .errorChain left (← part "right")
    | "conditional" =>
      let cond ← part "cond"
      let thenValue ← part "then"
      return .conditional cond thenValue (← part "else")
    | "match" =>
      let subject ← part "subject"
      return .cases subject (← (n.list "arms").mapM (decodeArm file k))
    | "paren" => return .paren (← part "inner")
    | "self" => return .self
    | "super" => return .super
    | "as" => return .assertion (← part "expr") ((n.child? "type").map (decodeType file k))
    | "new" => return .new (n.str "class") targs (← parts "args")
    | _ => return .bad

/-- An entry of an object constructor. -/
def decodeObjectField (file : String) : Nat → Node → Decode ObjectField
  | 0, f => do return ⟨nodeSpan file f, .named, f.str "name", none, ← badExpr (nodeSpan file f)⟩
  | k + 1, f => do
    let key ← decodeOption file k f "key"
    return ⟨nodeSpan file f, fieldKind f.kind, f.str "name", key, ← decodeField file k f "value"⟩

def decodeArm (file : String) : Nat → Node → Decode MatchArm
  | 0, a => do
    let span := nodeSpan file a
    return ⟨span, ⟨span, .wildcard⟩, none, ← badExpr span⟩
  | k + 1, a => do
    let span := nodeSpan file a
    let pattern ← match a.child? "pattern" with
      | some p => decodePattern file k p
      | none => pure ⟨span, .wildcard⟩
    let guard ← decodeOption file k a "guard"
    return ⟨span, pattern, guard, ← decodeField file k a "body"⟩

/-- A function that belongs to the node at `loc`; `withResult` lets it be one expression. -/
def decodeFunction (file : String) : Nat → Loc → Node → Bool → Decode FunctionExpr
  | 0, loc, _, _ => return ⟨loc, [], [], none, none, none⟩
  | k + 1, loc, n, withResult => do
    let params ← decodeParams file k (n.list "params")
    let body ← decodeBlock? file k n "body"
    let result ← if withResult then decodeOption file k n "result" else pure none
    return {
      loc
      tparams := decodeTypeParams file k (n.list "type_params")
      params
      ret := (n.child? "returns").map (decodeType file k)
      body
      result }

def decodeParams (file : String) : Nat → List Node → Decode (List (ParamDeclOf TypeExpr Expr))
  | 0, _ => return []
  | k + 1, ps =>
    ps.mapM fun p => do
      return {
        span := nodeSpan file p
        name := p.name
        type := (p.child? "type").map (decodeType file k)
        optional := p.flag "optional"
        default := ← decodeOption file k p "default"
        rest := p.flag "rest" }

/-- The block in a field: a sequence of statements, or a node with such a body. -/
def decodeBlock? (file : String) : Nat → Node → String → Decode (Option Block)
  | 0, _, _ => return none
  | k + 1, n, key =>
    match n.field? key with
    | none => return none
    | some (.sequence place tag items) => do
      let own := nodeSpan file (.sequence place tag items)
      let stmts ← items.mapM (decodeStmt file k)
      return some ⟨blockSpan own stmts, stmts⟩
    | some c => do
      let stmts ← (c.list "body").mapM (decodeStmt file k)
      return some ⟨nodeSpan file c, stmts⟩

/-- The block in a field, or an empty one at the place of its owner. -/
def decodeBlock (file : String) : Nat → Node → String → Span → Decode Block
  | 0, _, _, span => return ⟨span, []⟩
  | k + 1, n, key, span => do return (← decodeBlock? file k n key).getD ⟨span, []⟩

/-- A statement; a block stands where its statements do. -/
def decodeStmt (file : String) : Nat → Node → Decode Stmt
  | 0, n => do return ⟨← newLoc (nodeSpan file n), .bad⟩
  | k + 1, n => do
    let loc ← newLoc (nodeSpan file n)
    match ← decodeStmtForm file k loc n with
    | .block b => return ⟨{ loc with span := b.span }, .block b⟩
    | form => return ⟨loc, form⟩

def decodeStmtForm (file : String) : Nat → Loc → Node → Decode StmtForm
  | 0, _, _ => return .bad
  | k + 1, loc, n => do
    let part := decodeField file k n
    let name := n.str "name"
    let body (key : String) : Decode Block := decodeBlock file k n key loc.span
    let type? (key : String) : Option TypeExpr := (n.child? key).map (decodeType file k)
    let tparams := decodeTypeParams file k (n.list "type_params")
    let typeNames (key : String) : List TypeName :=
      (n.list key).filterMap (decodeTypeName? file k)
    let binding (isConst : Bool) : Decode StmtForm := do
      let value ← part "value"
      let target ← match n.child? "target" with
        | some p => decodePattern file k p
        | none => pure ⟨loc.span, .ident name⟩
      return .variable isConst target (type? "type") value
    let interfaceForm : StmtForm :=
      .interface name tparams (typeNames "extends")
        ⟨decodeTypeMembers file k (n.list "members"), decodeIndex file k n⟩
    match n.kind with
    | "local" => binding false
    | "const" => binding true
    | "assign" =>
      let target ← part "target"
      return .assign target ((n.str? "op").map BinOp.ofText) (← part "value")
    | "expr" => return .expr (← part "expr")
    | "function" =>
      let f ← decodeFunction file k loc n false
      let f := { f with body := some (f.body.getD ⟨loc.span, []⟩) }
      return .function name (n.flag "local") f
    | "type" => return .typeAlias name tparams (type? "type")
    | "declare_type" => return .typeAlias name tparams (type? "type")
    | "interface" => return interfaceForm
    | "declare_interface" => return interfaceForm
    | "enum" =>
      return .enum name (← (n.list "members").mapM fun m => do
        return ⟨nodeSpan file m, m.name, some (← decodeField file k m "value")⟩)
    | "class" =>
      let members ← (n.list "members").mapM (decodeClassMember file k)
      return .class {
        name
        tparams
        base := (n.child? "extends").bind (decodeTypeName? file k)
        implements := typeNames "implements"
        abstract := n.flag "abstract"
        final := n.flag "final"
        members
        decorators := ← (n.list "decorators").mapM (decodeExpr file k) }
    | "declare_function" =>
      return .declareFunction name tparams (← decodeParams file k (n.list "params"))
        (type? "returns")
    | "declare_const" => return .declareConst name (type? "type")
    | "declare_namespace" =>
      return .declareNamespace name (← (n.list "members").mapM (decodeStmt file k))
    | "import" =>
      return .importing {
        module := n.str "module"
        names := nameSpecs file (n.list "names")
        wholeName := n.str? "namespace"
        typeOnly := n.flag "type_only" }
    | "export" =>
      let decl ← match n.child? "decl" with
        | some d => do pure (some (← decodeStmt file k d))
        | none => pure none
      return .exported decl (nameSpecs file (n.list "names"))
    | "if" =>
      let cond ← part "cond"
      let thenBody ← body "then"
      let elseBody ← decodeBlock? file k n "else"
      let elseIfs ← (n.list "elseifs").mapM fun e => do
        let span := nodeSpan file e
        let cond ← decodeField file k e "cond"
        pure ⟨span, cond, ← decodeBlock file k e "body" span⟩
      return .branch cond thenBody elseIfs elseBody
    | "while" =>
      let cond ← part "cond"
      return .while cond (← body "body")
    | "repeat" =>
      let b ← body "body"
      return .repeat b (← part "cond")
    | "for_num" =>
      let start ← part "start"
      let limit ← part "limit"
      let step ← decodeOption file k n "step"
      return .numericFor (n.str "var") start limit step (← body "body")
    | "for_in" =>
      let iterator ← part "iter"
      return .genericFor (n.strs "vars") iterator (← body "body")
    | "return" => return .ret (← (n.list "values").mapM (decodeExpr file k))
    | "try" =>
      let b ← body "body"
      let cleanup ← decodeBlock? file k n "finally"
      let handlers ← (n.list "catches").mapM fun c => do
        let span := nodeSpan file c
        pure {
          span
          var := c.str? "var"
          types := (c.list "types").map (decodeType file k)
          body := ← decodeBlock file k c "body" span }
      return .attempt b handlers cleanup
    | "throw" => return .throw (← part "value")
    | "rethrow" => return .rethrow
    | "break" => return .break
    | "continue" => return .continue
    | "block" => return .block (← body "body")
    | "do" => return .block (← body "body")
    | _ => return .bad

def decodeClassMember (file : String) : Nat → Node → Decode ClassMember
  | 0, n =>
    return ⟨nodeSpan file n, .property, n.str "name", .pub, false, false, false, false, false, false,
      none, none, none, []⟩
  | k + 1, n => do
    let span := nodeSpan file n
    let kind := memberKind n.kind
    let name := n.str "name"
    let abstract := n.flag "abstract"
    let init ← decodeOption file k n "init"
    let function ←
      if kind == .property then pure none
      else do
        let f ← decodeFunction file k (← newLoc span) n false
        pure (some { f with body := if abstract then f.body else some (f.body.getD ⟨span, []⟩) })
    return {
      span
      kind
      name := if kind == .constructor && name = "" then "constructor" else name
      access := .ofText (n.str "access")
      static := n.flag "static"
      readonly := n.flag "readonly"
      abstract
      final := n.flag "final"
      override := n.flag "override"
      optional := n.flag "optional"
      type := (n.child? "type").map (decodeType file k)
      init
      function
      decorators := ← (n.list "decorators").mapM (decodeExpr file k) }
end

/-! ### Modules -/

/-- How deep decoding may go into a node: every level of the dump takes at most four steps. -/
def decodeDepth (n : Node) : Nat := 4 * n.depth + 4

/-- The tree of a dumped module. -/
def Program.ofNode (n : Node) (file : String) : Except DumpError Program :=
  match n with
  | .mapping _ _ _ =>
    if (n.field? "statements").isNone then .error (.noStatements file)
    else
      let (stmts, _) := ((n.list "statements").mapM (decodeStmt file (decodeDepth n))).run 0
      .ok { file, module := n.str "module", stmts }
  | _ => .error (.notMapping file)

/-- The tree of a dumped module. -/
def Program.ofText (text file : String) : Except DumpError Program :=
  match Yaml.Document.read text with
  | .malformed => .error (.malformed file)
  | .absent => .error (.notMapping file)
  | .root n _ => Program.ofNode n file

end TreeCheck
