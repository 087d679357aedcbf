import TreeCheck.Syntax.Walk

/-!
# The expressions that are judged

A check notes a type for the expressions that it asks for the type of.  Some are never asked for: those in
patterns of declarations, the values of enumerations, the left sides of assignments to members and entries,
keys that are plain names, the elements of a tuple behind one that is spread, defaults of functions without
a body, methods themselves, and all that stands in a declared namespace.

* `Judged.expr`, `Judged.stmt`, … — the expressions of a tree that are asked for, along its structure;
* `Program.judged` — those of a module, which are among its expressions.
-/

namespace TreeCheck

def Stmt.isExport (t : Stmt) : Bool :=
  match t.form with
  | .exported _ _ => true
  | _ => false

/-- Whether an element of an array constructor stands for several. -/
def Expr.isSpread (e : Expr) : Bool :=
  match e.form with
  | .spread _ => true
  | _ => false

namespace Judged

/-! ### The expressions that are judged -/

mutual
def pattern : Pattern → List Expr
  | ⟨_, form⟩ => patternForm form

def patternForm : PatternForm → List Expr
  | .literal e => expr e
  | .object fs _ => patternFields fs
  | .array ps _ => patterns ps
  | .wildcard => []
  | .ident _ => []
  | .typed _ _ => []
  | .bad => []

def patterns : List Pattern → List Expr
  | [] => []
  | p :: ps => pattern p ++ patterns ps

def patternOption : Option Pattern → List Expr
  | none => []
  | some p => pattern p

def patternFields : List PatternField → List Expr
  | [] => []
  | ⟨_, _, v⟩ :: fs => patternOption v ++ patternFields fs

def expr : Expr → List Expr
  | ⟨loc, form⟩ => ⟨loc, form⟩ :: exprForm form

def exprForm : ExprForm → List Expr
  | .bad => []
  | .ident _ => []
  | .nil => []
  | .bool _ => []
  | .number _ _ => []
  | .string _ => []
  | .template ps => exprs ps
  | .vararg => []
  | .binary _ l r => expr l ++ expr r
  | .unary _ e => expr e
  | .call c _ as _ => expr c ++ exprs as
  | .methodCall r _ _ as => expr r ++ exprs as
  | .member o _ _ => expr o
  | .index o i _ => expr o ++ expr i
  | .object fs => objectFields fs
  | .array es => elements es
  | .spread e => expr e
  | .function f => function f
  | .conditional c t e => expr c ++ (expr t ++ expr e)
  | .cases s as => expr s ++ arms as
  | .paren e => expr e
  | .self => []
  | .super => []
  | .assertion e _ => expr e
  | .new _ _ as => exprs as
  | .attempt v _ f => expr v ++ expr f
  | .errorChain l r => expr l ++ expr r

def exprs : List Expr → List Expr
  | [] => []
  | e :: es => expr e ++ exprs es

def exprOption : Option Expr → List Expr
  | none => []
  | some e => expr e

/-- The elements of an array constructor up to the first that is spread: behind it a tuple has no
elements. -/
def elements : List Expr → List Expr
  | [] => []
  | e :: es => expr e ++ (if e.isSpread then [] else elements es)

/-- An entry of an object constructor: a key is judged if it is computed. -/
def objectField : ObjectField → List Expr
  | ⟨_, kind, _, k, v⟩ => (if kind = .computed then exprOption k else []) ++ expr v

def objectFields : List ObjectField → List Expr
  | [] => []
  | f :: fs => objectField f ++ objectFields fs

def arm : MatchArm → List Expr
  | ⟨_, p, g, b⟩ => pattern p ++ (exprOption g ++ expr b)

def arms : List MatchArm → List Expr
  | [] => []
  | a :: as => arm a ++ arms as

/-- The defaults and the body of a function; of a function with a result the body is not judged. -/
def function : FunctionExpr → List Expr
  | ⟨_, _, ps, _, body, result⟩ =>
    params ps ++ (exprOption result ++ (if result.isSome then [] else blockOption body))

def params : List (ParamDeclOf TypeExpr Expr) → List Expr
  | [] => []
  | p :: ps => exprOption p.default ++ params ps

/-- The function of a class member; without a body nothing is judged. -/
def methodOption : Option FunctionExpr → List Expr
  | none => []
  | some f => if f.body.isNone && f.result.isNone then [] else function f

def block : Block → List Expr
  | ⟨_, ss⟩ => stmts ss

def blockOption : Option Block → List Expr
  | none => []
  | some b => block b

/-- The left side of an assignment: a variable itself, of a member or an entry what it belongs to. -/
def target : Expr → List Expr
  | ⟨loc, form⟩ => targetForm loc form

/-- The left side of an assignment by its form. -/
def targetForm (loc : Loc) : ExprForm → List Expr
  | .ident name => [⟨loc, .ident name⟩]
  | .member o _ _ => expr o
  | .index o i _ => expr o ++ expr i
  | .paren e => target e
  | _ => []

def stmt : Stmt → List Expr
  | ⟨_, form⟩ => stmtForm form

/-- What is judged in a form of statement: nothing in patterns, in the values of enumerations and in
declared functions and namespaces. -/
def stmtForm : StmtForm → List Expr
  | .block b => block b
  | .variable _ _ _ v => expr v
  | .assign t _ v => target t ++ expr v
  | .expr e => expr e
  | .function _ _ f => function f
  | .class c => classDecl c
  | .exported d _ => exported d
  | .branch c b es e => expr c ++ (block b ++ (elseIfs es ++ blockOption e))
  | .while c b => expr c ++ block b
  | .repeat b c => block b ++ expr c
  | .numericFor _ s l t b => expr s ++ (expr l ++ (exprOption t ++ block b))
  | .genericFor _ i b => expr i ++ block b
  | .ret vs => exprs vs
  | .attempt b hs c => block b ++ (handlers hs ++ blockOption c)
  | .throw v => expr v
  | .bad => []
  | .typeAlias _ _ _ => []
  | .interface _ _ _ _ => []
  | .enum _ _ => []
  | .declareFunction _ _ _ _ => []
  | .declareConst _ _ => []
  | .declareNamespace _ _ => []
  | .importing _ => []
  | .break => []
  | .continue => []
  | .rethrow => []

/-- The declaration inside an export, which must not be an export itself. -/
def exported : Option Stmt → List Expr
  | none => []
  | some d => if d.isExport then [] else stmt d

def stmts : List Stmt → List Expr
  | [] => []
  | s :: ss => stmt s ++ stmts ss

def elseIf : ElseIf → List Expr
  | ⟨_, c, b⟩ => expr c ++ block b

def elseIfs : List ElseIf → List Expr
  | [] => []
  | e :: es => elseIf e ++ elseIfs es

def handler : CatchClause → List Expr
  | ⟨_, _, _, b⟩ => block b

def handlers : List CatchClause → List Expr
  | [] => []
  | h :: hs => handler h ++ handlers hs

def classDecl : ClassDecl → List Expr
  | ⟨_, _, _, _, _, _, members, decorators⟩ => exprs decorators ++ classMembers members

/-- What is judged in a member of a class: its decorators, and the initial value of a property or the
function of any other member. -/
def classMember : ClassMember → List Expr
  | ⟨_, kind, _, _, _, _, _, _, _, _, _, init, f, ds⟩ =>
    exprs ds ++ (if kind = .property then exprOption init else methodOption f)

/-- What is judged in the members of a class. -/
def classMembers : List ClassMember → List Expr
  | [] => []
  | m :: ms => classMember m ++ classMembers ms
end

/-! ### Parts -/

theorem block_eq (b : Block) : block b = stmts b.stmts := by
  cases b
  rfl

/-- What is judged of the body of a function. -/
def body (f : FunctionExpr) : List Expr :=
  exprOption f.result ++ (if f.result.isSome then [] else blockOption f.body)

theorem function_eq (f : FunctionExpr) : function f = params f.params ++ body f := by
  cases f
  rfl

theorem classDecl_eq (d : ClassDecl) : classDecl d = exprs d.decorators ++ classMembers d.members := by
  cases d
  rfl

theorem classMember_eq (m : ClassMember) : classMember m =
    exprs m.decorators ++ (if m.kind = .property then exprOption m.init else methodOption m.function) := by
  cases m
  rfl

/-! ### Lists of parts -/

theorem exprs_eq_flatMap (es : List Expr) : exprs es = es.flatMap expr := by
  induction es with
  | nil => rfl
  | cons e es ih => rw [exprs, List.flatMap_cons, ih]

theorem objectFields_eq_flatMap (fs : List ObjectField) : objectFields fs = fs.flatMap objectField := by
  induction fs with
  | nil => rfl
  | cons f fs ih => rw [objectFields, List.flatMap_cons, ih]

theorem params_eq_flatMap (ps : List (ParamDeclOf TypeExpr Expr)) :
    params ps = ps.flatMap fun p => exprOption p.default := by
  induction ps with
  | nil => rfl
  | cons p ps ih => rw [params, List.flatMap_cons, ih]

theorem stmts_eq_flatMap (ts : List Stmt) : stmts ts = ts.flatMap stmt := by
  induction ts with
  | nil => rfl
  | cons t ts ih => rw [stmts, List.flatMap_cons, ih]

theorem handlers_eq_flatMap (hs : List CatchClause) : handlers hs = hs.flatMap handler := by
  induction hs with
  | nil => rfl
  | cons h hs ih => rw [handlers, List.flatMap_cons, ih]

theorem classMembers_eq_flatMap (ms : List ClassMember) : classMembers ms = ms.flatMap classMember := by
  induction ms with
  | nil => rfl
  | cons m ms ih => rw [classMembers, List.flatMap_cons, ih]

/-! ### Nodes -/

def Covers (es : List Expr) (is : List Item) : Prop := ∀ e ∈ es, Item.expr e ∈ is

section

variable {es es' : List Expr} {is is' : List Item}

theorem covers_nil (is : List Item) : Covers [] is := fun _ he => by cases he

theorem Covers.both (h : Covers es is) (h' : Covers es' is) : Covers (es ++ es') is :=
  List.forall_mem_append.2 ⟨h, h'⟩

theorem Covers.left (h : Covers es is) (is' : List Item) : Covers es (is ++ is') := fun e he =>
  List.mem_append_left is' (h e he)

theorem Covers.right (h : Covers es is) (is' : List Item) : Covers es (is' ++ is) := fun e he =>
  List.mem_append_right is' (h e he)

theorem Covers.append (h : Covers es is) (h' : Covers es' is') : Covers (es ++ es') (is ++ is') :=
  (h.left is').both (h'.right is)

theorem Covers.inside (h : Covers es is) (i : Item) : Covers es (i :: is) := fun e he => .tail i (h e he)

theorem Covers.node (h : Covers es is) (e : Expr) : Covers (e :: es) (.expr e :: is) := fun e' he' => by
  cases he' with
  | head => exact .head _
  | tail _ he' => exact .tail _ (h e' he')

/-- A choice covers what both ways cover. -/
theorem Covers.ite {p : Prop} [Decidable p] (h : Covers es is) (h' : Covers es' is) :
    Covers (if p then es else es') is := by
  split
  · exact h
  · exact h'

end

mutual

theorem covers_pattern : ∀ p, Covers (pattern p) (Walk.pattern p)
  | ⟨_, form⟩ => (covers_patternForm form).inside _

theorem covers_patternForm : ∀ form, Covers (patternForm form) (Walk.patternForm form)
  | .literal e => covers_expr e
  | .object fs _ => covers_patternFields fs
  | .array ps _ => covers_patterns ps
  | .wildcard => covers_nil _
  | .ident _ => covers_nil _
  | .typed _ _ => covers_nil _
  | .bad => covers_nil _

theorem covers_patterns : ∀ ps, Covers (patterns ps) (Walk.patterns ps)
  | [] => covers_nil _
  | p :: ps => (covers_pattern p).append (covers_patterns ps)

theorem covers_patternOption : ∀ p, Covers (patternOption p) (Walk.patternOption p)
  | none => covers_nil _
  | some p => covers_pattern p

theorem covers_patternFields : ∀ fs, Covers (patternFields fs) (Walk.patternFields fs)
  | [] => covers_nil _
  | ⟨_, _, v⟩ :: fs => (covers_patternOption v).append (covers_patternFields fs)

theorem covers_expr : ∀ e, Covers (expr e) (Walk.expr e)
  | ⟨loc, form⟩ => (covers_exprForm form).node ⟨loc, form⟩

/-- What is judged in an expression are nodes of it. -/
theorem covers_exprForm : ∀ form, Covers (exprForm form) (Walk.exprForm form)
  | .bad => covers_nil _
  | .ident _ => covers_nil _
  | .nil => covers_nil _
  | .bool _ => covers_nil _
  | .number _ _ => covers_nil _
  | .string _ => covers_nil _
  | .template ps => covers_exprs ps
  | .vararg => covers_nil _
  | .binary _ l r => (covers_expr l).append (covers_expr r)
  | .unary _ e => covers_expr e
  | .call c _ as _ => ((covers_expr c).left _).append (covers_exprs as)
  | .methodCall r _ _ as => ((covers_expr r).left _).append (covers_exprs as)
  | .member o _ _ => covers_expr o
  | .index o i _ => (covers_expr o).append (covers_expr i)
  | .object fs => covers_objectFields fs
  | .array es => covers_elements es
  | .spread e => covers_expr e
  | .function f => covers_function f
  | .conditional c t e =>
      (((covers_expr c).left _).left _).both (((covers_expr t).right _).append (covers_expr e))
  | .cases s as => (covers_expr s).append (covers_arms as)
  | .paren e => covers_expr e
  | .self => covers_nil _
  | .super => covers_nil _
  | .assertion e _ => (covers_expr e).left _
  | .new _ _ as => (covers_exprs as).right _
  | .attempt v _ f => (covers_expr v).append (covers_expr f)
  | .errorChain l r => (covers_expr l).append (covers_expr r)

theorem covers_exprs : ∀ es, Covers (exprs es) (Walk.exprs es)
  | [] => covers_nil _
  | e :: es => (covers_expr e).append (covers_exprs es)

theorem covers_exprOption : ∀ e, Covers (exprOption e) (Walk.exprOption e)
  | none => covers_nil _
  | some e => covers_expr e

theorem covers_elements : ∀ es, Covers (elements es) (Walk.exprs es)
  | [] => covers_nil _
  | e :: es => (covers_expr e).append ((covers_nil _).ite (covers_elements es))

theorem covers_objectFields : ∀ fs, Covers (objectFields fs) (Walk.objectFields fs)
  | [] => covers_nil _
  | ⟨_, _, _, k, v⟩ :: fs =>
      ((Covers.ite (covers_exprOption k) (covers_nil _)).append (covers_expr v)).append (covers_objectFields fs)

theorem covers_arms : ∀ as, Covers (arms as) (Walk.arms as)
  | [] => covers_nil _
  | ⟨_, p, g, b⟩ :: as =>
      Covers.append ((((covers_pattern p).left _).left _).both (((covers_exprOption g).right _).append (covers_expr b)))
        (covers_arms as)

theorem covers_function : ∀ f, Covers (function f) (Walk.function f)
  | ⟨_, _, ps, _, body, result⟩ =>
      Covers.both ((((covers_params ps).right _).left _).left _ |>.left _)
        (((covers_exprOption result).right _).both
          ((covers_nil _).ite (((covers_blockOption body).right _).left _)))

theorem covers_params : ∀ ps, Covers (params ps) (Walk.params ps)
  | [] => covers_nil _
  | p :: ps => ((covers_exprOption p.default).right _).append (covers_params ps)

theorem covers_methodOption : ∀ f, Covers (methodOption f) (Walk.functionOption f)
  | none => covers_nil _
  | some f => (covers_nil _).ite ((covers_function f).inside _)

theorem covers_block : ∀ b, Covers (block b) (Walk.block b)
  | ⟨_, ts⟩ => covers_stmts ts

theorem covers_blockOption : ∀ b, Covers (blockOption b) (Walk.blockOption b)
  | none => covers_nil _
  | some b => covers_block b

theorem covers_target : ∀ e, Covers (target e) (Walk.expr e)
  | ⟨loc, form⟩ => by
      cases form with
      | ident name => exact (covers_nil _).node _
      | member o _ _ => exact (covers_expr o).inside _
      | index o i _ => exact ((covers_expr o).append (covers_expr i)).inside _
      | paren e => exact (covers_target e).inside _
      | _ => exact covers_nil _

theorem covers_stmt : ∀ t, Covers (stmt t) (Walk.stmt t)
  | ⟨_, form⟩ => (covers_stmtForm form).inside _

/-- What is judged in a statement are nodes of it. -/
theorem covers_stmtForm : ∀ form, Covers (stmtForm form) (Walk.stmtForm form)
  | .block b => covers_block b
  | .variable _ _ _ v => (covers_expr v).right _
  | .assign t _ v => (covers_target t).append (covers_expr v)
  | .expr e => covers_expr e
  | .function _ _ f => covers_function f
  | .class d => covers_classDecl d
  | .exported d _ => covers_exported d
  | .branch c b es e =>
      ((((covers_expr c).left _).left _).left _).both
        ((((covers_block b).right _).left _).left _ |>.both
          (((covers_elseIfs es).right _).append (covers_blockOption e)))
  | .while c b => (covers_expr c).append (covers_block b)
  | .repeat b c => (covers_block b).append (covers_expr c)
  | .numericFor _ s l t b =>
      ((((covers_expr s).left _).left _).left _).both
        ((((covers_expr l).right _).left _).left _ |>.both
          (((covers_exprOption t).right _).append (covers_block b)))
  | .genericFor _ i b => (covers_expr i).append (covers_block b)
  | .ret vs => covers_exprs vs
  | .attempt b hs c =>
      (((covers_block b).left _).left _).both (((covers_handlers hs).right _).append (covers_blockOption c))
  | .throw v => covers_expr v
  | .bad => covers_nil _
  | .typeAlias _ _ _ => covers_nil _
  | .interface _ _ _ _ => covers_nil _
  | .enum _ _ => covers_nil _
  | .declareFunction _ _ _ _ => covers_nil _
  | .declareConst _ _ => covers_nil _
  | .declareNamespace _ _ => covers_nil _
  | .importing _ => covers_nil _
  | .break => covers_nil _
  | .continue => covers_nil _
  | .rethrow => covers_nil _

theorem covers_exported : ∀ d, Covers (exported d) (Walk.stmtOption d)
  | none => covers_nil _
  | some d => (covers_nil _).ite (covers_stmt d)

theorem covers_stmts : ∀ ts, Covers (stmts ts) (Walk.stmts ts)
  | [] => covers_nil _
  | t :: ts => (covers_stmt t).append (covers_stmts ts)

theorem covers_elseIfs : ∀ es, Covers (elseIfs es) (Walk.elseIfs es)
  | [] => covers_nil _
  | ⟨_, c, b⟩ :: es => ((covers_expr c).append (covers_block b)).append (covers_elseIfs es)

theorem covers_handlers : ∀ hs, Covers (handlers hs) (Walk.handlers hs)
  | [] => covers_nil _
  | ⟨_, _, _, b⟩ :: hs => ((covers_block b).right _).append (covers_handlers hs)

theorem covers_classDecl : ∀ d, Covers (classDecl d) (Walk.classDecl d)
  | ⟨_, _, _, _, _, _, members, decorators⟩ =>
      ((covers_exprs decorators).right _).both (((covers_classMembers members).right _).left _)

theorem covers_classMembers : ∀ ms, Covers (classMembers ms) (Walk.classMembers ms)
  | [] => covers_nil _
  | ⟨_, _, _, _, _, _, _, _, _, _, _, init, f, ds⟩ :: ms =>
      Covers.append (((covers_exprs ds).right _).both
        (.ite ((((covers_exprOption init).right _).left _).left _) (((covers_methodOption f).right _).left _)))
        (covers_classMembers ms)

end

end Judged

def Program.judged (p : Program) : List Expr := Judged.stmts p.stmts

/-- What is judged are expressions of the module. -/
theorem Program.judged_subset_exprs (p : Program) : p.judged ⊆ p.exprs := fun e he =>
  List.mem_filterMap.2 ⟨.expr e, Judged.covers_stmts p.stmts e he, rfl⟩

end TreeCheck
