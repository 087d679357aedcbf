import TreeCheck.Syntax.Tree

/-!
# The nodes of a tree in order

* `Item` — a node of any sort;
* `Program.items` — all nodes of a module, each before the nodes inside it, which follow in the
  order in which they are written;
* `Program.exprs` — its expressions in that order;
* `Program.size` — how deep nodes can nest.
-/

namespace TreeCheck

/-- A node of a tree.  A value that is never evaluated is an `aside`. -/
inductive Item where
  | type (t : TypeExpr)
  | pattern (p : Pattern)
  | expr (e : Expr)
  | stmt (s : Stmt)
  | aside (n : Yaml.Node)

namespace Walk

/-! ### Annotations -/

mutual
def type : TypeExpr → List Item
  | ⟨span, form⟩ => .type ⟨span, form⟩ :: typeForm form

def typeForm : TypeForm → List Item
  | .named _ args => types args
  | .literal _ => []
  | .array e => type e
  | .tuple es => types es
  | .object ms i => typeMembers ms ++ indexOption i
  | .function ps fs r => typeParams ps ++ typeFnParams fs ++ typeOption r
  | .union ts => types ts
  | .inter ts => types ts
  | .nullable t => type t
  | .predicate _ t => typeOption t
  | .bad => []

def types : List TypeExpr → List Item
  | [] => []
  | t :: ts => type t ++ types ts

def typeOption : Option TypeExpr → List Item
  | none => []
  | some t => type t

def typeMembers : List TypeMember → List Item
  | [] => []
  | ⟨_, _, t, _, _, _⟩ :: ms => typeOption t ++ typeMembers ms

def indexOption : Option IndexDecl → List Item
  | none => []
  | some ⟨_, k, v⟩ => typeOption k ++ typeOption v

def typeParams : List TypeParamDecl → List Item
  | [] => []
  | ⟨_, _, c, d⟩ :: ps => typeOption c ++ typeOption d ++ typeParams ps

def typeFnParams : List (ParamDeclOf TypeExpr Yaml.Node) → List Item
  | [] => []
  | p :: ps => typeOption p.type ++ (p.default.map Item.aside).toList ++ typeFnParams ps
end

def typeNames (ns : List TypeName) : List Item := ns.flatMap fun n => type n.toTypeExpr

/-! ### Expressions and statements -/

mutual
def pattern : Pattern → List Item
  | ⟨span, form⟩ => .pattern ⟨span, form⟩ :: patternForm form

def patternForm : PatternForm → List Item
  | .wildcard => []
  | .ident _ => []
  | .literal e => expr e
  | .typed _ t => typeOption t
  | .array ps _ => patterns ps
  | .object fs _ => patternFields fs
  | .bad => []

def patterns : List Pattern → List Item
  | [] => []
  | p :: ps => pattern p ++ patterns ps

def patternOption : Option Pattern → List Item
  | none => []
  | some p => pattern p

def patternFields : List PatternField → List Item
  | [] => []
  | ⟨_, _, v⟩ :: fs => patternOption v ++ patternFields fs

def expr : Expr → List Item
  | ⟨loc, form⟩ => .expr ⟨loc, form⟩ :: exprForm form

def exprForm : ExprForm → List Item
  | .bad => []
  | .ident _ => []
  | .nil => []
  | .bool _ => []
  | .number _ _ => []
  | .string _ => []
  | .template ps => exprs ps
  | .vararg => []
  | .binary _ l r => expr l ++ expr r
  | .unary _ e => expr e
  | .call c ts as _ => expr c ++ types ts ++ exprs as
  | .methodCall r _ ts as => expr r ++ types ts ++ exprs as
  | .member o _ _ => expr o
  | .index o i _ => expr o ++ expr i
  | .object fs => objectFields fs
  | .array es => exprs es
  | .spread e => expr e
  | .function f => function f
  | .conditional c t e => expr c ++ expr t ++ expr e
  | .cases s as => expr s ++ arms as
  | .paren e => expr e
  | .self => []
  | .super => []
  | .assertion e t => expr e ++ typeOption t
  | .new _ ts as => types ts ++ exprs as
  | .attempt v _ f => expr v ++ expr f
  | .errorChain l r => expr l ++ expr r

def exprs : List Expr → List Item
  | [] => []
  | e :: es => expr e ++ exprs es

def exprOption : Option Expr → List Item
  | none => []
  | some e => expr e

def objectFields : List ObjectField → List Item
  | [] => []
  | ⟨_, _, _, k, v⟩ :: fs => exprOption k ++ expr v ++ objectFields fs

def arms : List MatchArm → List Item
  | [] => []
  | ⟨_, p, g, b⟩ :: as => pattern p ++ exprOption g ++ expr b ++ arms as

def function : FunctionExpr → List Item
  | ⟨_, tparams, ps, ret, body, result⟩ =>
    typeParams tparams ++ params ps ++ typeOption ret ++ blockOption body ++ exprOption result

def functionOption : Option FunctionExpr → List Item
  | none => []
  | some f => .expr ⟨f.loc, .function f⟩ :: function f

def params : List (ParamDeclOf TypeExpr Expr) → List Item
  | [] => []
  | p :: ps => typeOption p.type ++ exprOption p.default ++ params ps

def block : Block → List Item
  | ⟨_, ss⟩ => stmts ss

def blockOption : Option Block → List Item
  | none => []
  | some b => block b

def stmt : Stmt → List Item
  | ⟨loc, form⟩ => .stmt ⟨loc, form⟩ :: stmtForm form

def stmtForm : StmtForm → List Item
  | .bad => []
  | .block b => block b
  | .variable _ p t v => pattern p ++ typeOption t ++ expr v
  | .assign t _ v => expr t ++ expr v
  | .expr e => expr e
  | .function _ _ f => function f
  | .typeAlias _ ps t => typeParams ps ++ typeOption t
  | .interface _ ps bs b =>
    typeParams ps ++ typeNames bs ++ typeMembers b.members ++ indexOption b.index
  | .enum _ ms => enumMembers ms
  | .class c => classDecl c
  | .declareFunction _ tps ps r => typeParams tps ++ params ps ++ typeOption r
  | .declareConst _ t => typeOption t
  | .declareNamespace _ ms => stmts ms
  | .importing _ => []
  | .exported d _ => stmtOption d
  | .branch c b es e => expr c ++ block b ++ elseIfs es ++ blockOption e
  | .while c b => expr c ++ block b
  | .repeat b c => block b ++ expr c
  | .numericFor _ s l t b => expr s ++ expr l ++ exprOption t ++ block b
  | .genericFor _ i b => expr i ++ block b
  | .ret vs => exprs vs
  | .break => []
  | .continue => []
  | .attempt b hs c => block b ++ handlers hs ++ blockOption c
  | .throw v => expr v
  | .rethrow => []

def stmts : List Stmt → List Item
  | [] => []
  | s :: ss => stmt s ++ stmts ss

def stmtOption : Option Stmt → List Item
  | none => []
  | some s => stmt s

def enumMembers : List EnumMember → List Item
  | [] => []
  | ⟨_, _, v⟩ :: ms => exprOption v ++ enumMembers ms

def elseIfs : List ElseIf → List Item
  | [] => []
  | ⟨_, c, b⟩ :: es => expr c ++ block b ++ elseIfs es

def handlers : List CatchClause → List Item
  | [] => []
  | ⟨_, _, ts, b⟩ :: hs => types ts ++ block b ++ handlers hs

def classDecl : ClassDecl → List Item
  | ⟨_, tparams, base, implements, _, _, members, decorators⟩ =>
    typeParams tparams ++ typeNames base.toList ++ typeNames implements ++ classMembers members
      ++ exprs decorators

def classMembers : List ClassMember → List Item
  | [] => []
  | ⟨_, _, _, _, _, _, _, _, _, _, t, i, f, ds⟩ :: ms =>
    typeOption t ++ exprOption i ++ functionOption f ++ exprs ds ++ classMembers ms
end

end Walk

def Program.items (p : Program) : List Item := Walk.stmts p.stmts

/-- A bound on how deep nodes nest in a module, with what is inside asides. -/
def Program.size (p : Program) : Nat :=
  p.items.foldl (fun n i =>
    match i with
    | .aside a => n + 4 * a.depth + 4
    | _ => n + 1) 8

def Program.exprs (p : Program) : List Expr :=
  p.items.filterMap fun
    | .expr e => some e
    | _ => none

end TreeCheck
