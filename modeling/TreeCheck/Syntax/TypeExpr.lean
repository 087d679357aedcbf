import TreeCheck.Span
import TreeCheck.Ty.Basic
import TreeCheck.Yaml.Node

/-!
# Type annotations

* `TypeExpr` — a type annotation with its place;
* `TypeName` — a named type where only such a type may stand;
* `TypeParamDecl`, `ParamDeclOf` — declared type parameters and parameters.

A default value in a function type is never evaluated.  It is kept the way the tree dump writes it,
so that annotations hold no expressions.
-/

namespace TreeCheck

/-- A declared parameter, with the types of its annotation and of its default value. -/
structure ParamDeclOf (τ δ : Type) where
  span : Span
  name : String
  type : Option τ
  optional : Bool
  default : Option δ
  rest : Bool
deriving Inhabited

mutual

/-- A type annotation. -/
structure TypeExpr where
  span : Span
  form : TypeForm

/-- The forms of type annotations. -/
inductive TypeForm where
  | named (name : String) (args : List TypeExpr)
  | literal (l : Lit)
  | array (elem : TypeExpr)
  | tuple (elems : List TypeExpr)
  | object (members : List TypeMember) (index : Option IndexDecl)
  | function (tparams : List TypeParamDecl) (params : List (ParamDeclOf TypeExpr Yaml.Node))
      (ret : Option TypeExpr)
  | union (types : List TypeExpr)
  | inter (types : List TypeExpr)
  | nullable (inner : TypeExpr)
  | predicate (param : String) (type : Option TypeExpr)
  | bad

/-- A member of a record type. -/
structure TypeMember where
  span : Span
  name : String
  type : Option TypeExpr
  optional : Bool
  readonly : Bool
  method : Bool

/-- An index signature. -/
structure IndexDecl where
  span : Span
  key : Option TypeExpr
  value : Option TypeExpr

/-- A declared type parameter. -/
structure TypeParamDecl where
  span : Span
  name : String
  constraint : Option TypeExpr
  default : Option TypeExpr

end

instance : Inhabited TypeExpr := ⟨⟨{}, .bad⟩⟩

/-- The body of a record type. -/
structure ObjectTypeExpr where
  members : List TypeMember
  index : Option IndexDecl
deriving Inhabited

/-- A named type where only such a type may stand. -/
structure TypeName where
  span : Span
  name : String
  args : List TypeExpr
deriving Inhabited

/-- The named type as an annotation. -/
def TypeName.toTypeExpr (n : TypeName) : TypeExpr := ⟨n.span, .named n.name n.args⟩

end TreeCheck
