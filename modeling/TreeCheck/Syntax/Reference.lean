import TreeCheck.Syntax.Tree

/-!
# References

A reference is a variable, `self`, or a member path below one of them.  Refinements of types are
kept per reference, under the text of its path.

* `Expr.key?` — the path of a reference;
* `Stmt.assignedKeys` — the references that a statement assigns to, in nested blocks and loops too,
  but not in functions inside it;
* `Expr.unparen`, `Expr.constant?` — what is inside parentheses, and constants as types.
-/

namespace TreeCheck

/-- The name of the current instance in a class body. -/
def selfName : String := "self"

namespace Expr

def key? : Expr → Option String
  | ⟨_, .ident n⟩ => if n = "" then none else some n
  | ⟨_, .self⟩ => some selfName
  | ⟨_, .paren e⟩ => e.key?
  | ⟨_, .member o n _⟩ => o.key?.map fun base => base ++ "." ++ n
  | _ => none

def unparen : Expr → Expr
  | ⟨_, .paren e⟩ => e.unparen
  | e => e

/-- The type of a constant: a literal, or a negated number. -/
def constant? (e : Expr) : Option Ty :=
  match e.unparen.form with
  | .nil => some .nil
  | .bool b => some (.bool b)
  | .number n _ => some (.num n)
  | .string s => some (.str s)
  | .unary .neg ⟨_, .number n _⟩ => some (.num n.neg)
  | _ => none

end Expr

mutual
def Stmt.assignedKeys : Stmt → List String
  | ⟨_, form⟩ => StmtForm.assignedKeys form

/-- The references that a form of statement assigns to. -/
def StmtForm.assignedKeys : StmtForm → List String
  | .assign t _ _ => t.key?.toList
  | .block b => Block.assignedKeys b
  | .branch _ b es e => Block.assignedKeys b ++ assignedInElseIfs es ++ assignedInOption e
  | .while _ b => Block.assignedKeys b
  | .repeat b _ => Block.assignedKeys b
  | .numericFor _ _ _ _ b => Block.assignedKeys b
  | .genericFor _ _ b => Block.assignedKeys b
  | .attempt b hs c => Block.assignedKeys b ++ assignedInHandlers hs ++ assignedInOption c
  | _ => []

def Block.assignedKeys : Block → List String
  | ⟨_, ss⟩ => assignedInStmts ss

def assignedInStmts : List Stmt → List String
  | [] => []
  | s :: ss => Stmt.assignedKeys s ++ assignedInStmts ss

/-- The references that an optional block assigns to. -/
def assignedInOption : Option Block → List String
  | none => []
  | some b => Block.assignedKeys b

def assignedInElseIfs : List ElseIf → List String
  | [] => []
  | ⟨_, _, b⟩ :: es => Block.assignedKeys b ++ assignedInElseIfs es

def assignedInHandlers : List CatchClause → List String
  | [] => []
  | ⟨_, _, _, b⟩ :: hs => Block.assignedKeys b ++ assignedInHandlers hs
end

end TreeCheck
