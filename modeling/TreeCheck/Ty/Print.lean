import TreeCheck.Ty.Basic
import TreeCheck.Number.Text
import TreeCheck.Text.Quoted

/-!
# Types as text

Types print the way they are written in annotations; messages and the keys of recursive
comparisons use this text.  A union, intersection or signature stands in parentheses inside an
array, union or intersection.

* `Ty.text` — the text of a type;
* `MemberOf.text`, `TypeParamOf.text` — the texts of its parts.
-/

namespace TreeCheck

def Lit.text : Lit → String
  | .bool b => if b then "true" else "false"
  | .num n => n.text
  | .str s => Text.quote s

/-- A member given the text of its type. -/
def memberText {τ : Type} (m : MemberOf τ) (type : String) : String :=
  (if m.static then "static " else "") ++ (if m.readonly then "readonly " else "") ++ m.name
    ++ (if m.optional then "?" else "") ++ ": " ++ type

/-- A parameter given the text of its type; a parameter without a name is its type. -/
def paramText {τ : Type} (p : ParamOf τ) (type : String) : String :=
  let label := (if p.rest then "..." else "") ++ p.name ++ (if p.optional then "?" else "")
  if label = "" then type else label ++ ": " ++ type

namespace Ty

/-- Whether the type needs parentheses inside another one. -/
def isComplex : Ty → Bool
  | .union _ => true
  | .inter _ => true
  | .func _ => true
  | _ => false

def parens (b : Bool) (s : String) : String := if b then "(" ++ s ++ ")" else s

def braces (parts : List String) : String :=
  if parts.isEmpty then "\x7b\x7d" else "\x7b " ++ ", ".intercalate parts ++ " \x7d"

mutual
def text : Ty → String
  | .prim p => p.name
  | .lit l => l.text
  | .array e => parens e.isComplex e.text ++ "[]"
  | .tuple es => "[" ++ ", ".intercalate (texts es) ++ "]"
  | .object o => braces (memberTexts o.members ++ indexTexts o.index)
  | .func f =>
    (if f.tparams.isEmpty then "" else "<" ++ ", ".intercalate (typeParamTexts f.tparams) ++ ">")
      ++ "(" ++ ", ".intercalate (paramTexts f.params) ++ ") -> " ++ resultText f.ret
  | .pred x t => x ++ " is " ++ t.text
  | .union ts => " | ".intercalate (wrappedTexts ts)
  | .inter ts => " & ".intercalate (wrappedTexts ts)
  | .ref n args => if args.isEmpty then n else n ++ "<" ++ ", ".intercalate (texts args) ++ ">"
  | .tvar n => n
  | .classRef n => "class " ++ n

def texts : List Ty → List String
  | [] => []
  | t :: ts => t.text :: texts ts

def wrappedTexts : List Ty → List String
  | [] => []
  | t :: ts => parens t.isComplex t.text :: wrappedTexts ts

def memberTexts : List (MemberOf Ty) → List String
  | [] => []
  | m :: ms => memberText m m.type.text :: memberTexts ms

def indexTexts : Option (IndexOf Ty) → List String
  | none => []
  | some i => ["[" ++ i.key.text ++ "]: " ++ i.value.text]

/-- A mark followed by the text of a type, if there is one. -/
def markedText (mark : String) : Option Ty → String
  | none => ""
  | some t => mark ++ t.text

def typeParamTexts : List (TypeParamOf Ty) → List String
  | [] => []
  | p :: ps =>
    (p.name ++ markedText ": " p.constraint ++ markedText " = " p.default) :: typeParamTexts ps

def paramTexts : List (ParamOf Ty) → List String
  | [] => []
  | p :: ps => paramText p p.type.text :: paramTexts ps

def resultText : Option Ty → String
  | none => Prim.void.name
  | some t => t.text
end

theorem texts_eq_map (ts : List Ty) : texts ts = ts.map text := by
  induction ts with
  | nil => rfl
  | cons t ts ih => rw [texts, ih, List.map_cons]

end Ty

def MemberOf.text (m : Member) : String := memberText m m.type.text

def TypeParamOf.text (p : TypeParam) : String :=
  p.name ++ Ty.markedText ": " p.constraint ++ Ty.markedText " = " p.default

end TreeCheck
