import TreeCheck.Number.Basic

/-!
# Types

The types of the checked language and their parts:

* `Prim`, `Lit` — built-in scalar types and types of one constant;
* `Ty` — all types; records, signatures and their entries are the structures `Object`, `Func`,
  `Member`, `Index`, `Param` and `TypeParam` over `Ty`;
* `Ty.size` — the number of nodes of a type;
* `Object.find?`, `Object.insert` — records as finite maps that keep the order of declaration;
* `Func.required`, `Func.rest?`, `Func.paramAt?` — what a call may pass where.

A type is a plain value: operations build new types and change none.
-/

namespace TreeCheck

/-- A built-in type. -/
inductive Prim where
  | nil
  | boolean
  | number
  | integer
  | string
  | unknown
  | never
  | void
  | table
deriving Repr, DecidableEq, Inhabited

namespace Prim

def all : List Prim :=
  [.nil, .boolean, .number, .integer, .string, .unknown, .never, .void, .table]

def name : Prim → String
  | .nil => "nil"
  | .boolean => "boolean"
  | .number => "number"
  | .integer => "integer"
  | .string => "string"
  | .unknown => "unknown"
  | .never => "never"
  | .void => "void"
  | .table => "table"

/-- The built-in type with the name. -/
def ofName? (n : String) : Option Prim := all.find? fun p => p.name == n

end Prim

/-- The constant of a type with one value. -/
inductive Lit where
  | bool (b : Bool)
  | num (n : Number)
  | str (s : String)
deriving Repr, DecidableEq, Inhabited

namespace Lit

/-- The built-in type that a constant belongs to. -/
def prim : Lit → Prim
  | .bool _ => .boolean
  | .num _ => .number
  | .str _ => .string

def isInteger : Lit → Bool
  | .num n => n.isInteger
  | _ => false

/-- Whether two constants are the same value; numbers are compared as numbers. -/
def same : Lit → Lit → Bool
  | .bool a, .bool b => a == b
  | .num a, .num b => a.same b
  | .str a, .str b => a == b
  | _, _ => false

end Lit

/-! ### Parts of types -/

/-- One entry of a record type. -/
structure MemberOf (τ : Type) where
  name : String
  type : τ
  method : Bool := false
  optional : Bool := false
  readonly : Bool := false
  static : Bool := false
deriving Repr, Inhabited

/-- The entries of a record that have no names of their own: `[key]: value`. -/
structure IndexOf (τ : Type) where
  key : τ
  value : τ
deriving Repr, Inhabited

/-- A record type. -/
structure ObjectOf (τ : Type) where
  members : List (MemberOf τ) := []
  index : Option (IndexOf τ) := none
deriving Repr, Inhabited

/-- A declared type parameter. -/
structure TypeParamOf (τ : Type) where
  name : String
  constraint : Option τ := none
  default : Option τ := none
deriving Repr, Inhabited

/-- A parameter of a function type.  A rest parameter has the type of its elements. -/
structure ParamOf (τ : Type) where
  name : String
  type : τ
  optional : Bool := false
  rest : Bool := false
deriving Repr, Inhabited

/-- A function signature.  Without a result type the function returns nothing. -/
structure FuncOf (τ : Type) where
  tparams : List (TypeParamOf τ) := []
  params : List (ParamOf τ) := []
  ret : Option τ := none
deriving Repr, Inhabited

/-- A type. -/
inductive Ty where
  | prim (p : Prim)
  | lit (l : Lit)
  | array (elem : Ty)
  | tuple (elems : List Ty)
  | object (o : ObjectOf Ty)
  | func (f : FuncOf Ty)
  /-- The result of a test: true exactly when the parameter has the type. -/
  | pred (param : String) (type : Ty)
  | union (types : List Ty)
  | inter (types : List Ty)
  /-- An alias, interface, class or utility by name. -/
  | ref (name : String) (args : List Ty)
  | tvar (name : String)
  /-- The class itself, as a value. -/
  | classRef (name : String)
deriving Repr, Inhabited

abbrev Member := MemberOf Ty
abbrev Index := IndexOf Ty
abbrev Object := ObjectOf Ty
abbrev TypeParam := TypeParamOf Ty
abbrev Param := ParamOf Ty
abbrev Func := FuncOf Ty

namespace Ty

abbrev nil : Ty := .prim .nil
abbrev boolean : Ty := .prim .boolean
abbrev number : Ty := .prim .number
abbrev integer : Ty := .prim .integer
abbrev string : Ty := .prim .string
abbrev unknown : Ty := .prim .unknown
abbrev never : Ty := .prim .never
abbrev void : Ty := .prim .void
abbrev table : Ty := .prim .table
abbrev bool (b : Bool) : Ty := .lit (.bool b)
abbrev num (n : Number) : Ty := .lit (.num n)
abbrev str (s : String) : Ty := .lit (.str s)

/-! ### Heads -/

/-- Whether the type is `nil`. -/
def isNil : Ty → Bool
  | .prim .nil => true
  | _ => false

/-- Whether the type is `unknown`. -/
def isUnknown : Ty → Bool
  | .prim .unknown => true
  | _ => false

/-- Whether the type is `never`. -/
def isNever : Ty → Bool
  | .prim .never => true
  | _ => false

/-- Whether the type is given by a name that an environment resolves. -/
def isNamed : Ty → Bool
  | .ref _ _ => true
  | .classRef _ => true
  | _ => false

/-! ### Size -/

mutual
def size : Ty → Nat
  | .prim _ => 1
  | .lit _ => 1
  | .array e => e.size + 1
  | .tuple es => sizeList es + 1
  | .object o => sizeMembers o.members + sizeIndex o.index + 1
  | .func f => sizeTypeParams f.tparams + sizeParams f.params + sizeOption f.ret + 1
  | .pred _ t => t.size + 1
  | .union ts => sizeList ts + 1
  | .inter ts => sizeList ts + 1
  | .ref _ args => sizeList args + 1
  | .tvar _ => 1
  | .classRef _ => 1

def sizeList : List Ty → Nat
  | [] => 0
  | t :: ts => t.size + sizeList ts

def sizeOption : Option Ty → Nat
  | none => 0
  | some t => t.size

def sizeMembers : List (MemberOf Ty) → Nat
  | [] => 0
  | m :: ms => m.type.size + sizeMembers ms

def sizeIndex : Option (IndexOf Ty) → Nat
  | none => 0
  | some i => i.key.size + i.value.size

def sizeTypeParams : List (TypeParamOf Ty) → Nat
  | [] => 0
  | p :: ps => sizeOption p.constraint + sizeOption p.default + sizeTypeParams ps

def sizeParams : List (ParamOf Ty) → Nat
  | [] => 0
  | p :: ps => p.type.size + sizeParams ps
end

theorem size_pos (t : Ty) : 0 < t.size := by
  cases t <;> simp [size]

theorem size_le_sizeList {t : Ty} {ts : List Ty} (h : t ∈ ts) : t.size ≤ sizeList ts := by
  induction ts with
  | nil => cases h
  | cons u us ih =>
    rw [sizeList]
    cases h with
    | head => omega
    | tail _ h => have := ih h; omega

end Ty

/-! ### Records -/

namespace ObjectOf

variable {τ : Type}

def find? (o : ObjectOf τ) (name : String) : Option (MemberOf τ) :=
  o.members.find? fun m => m.name == name

/-- The record with `m` in place of the members of its name, or at the end. -/
def insert (o : ObjectOf τ) (m : MemberOf τ) : ObjectOf τ :=
  { o with
    members :=
      if o.members.any (fun c => c.name == m.name) then
        o.members.map fun c => if c.name == m.name then m else c
      else o.members ++ [m] }

/-- The record with several members inserted in turn. -/
def insertAll (o : ObjectOf τ) (ms : List (MemberOf τ)) : ObjectOf τ := ms.foldl insert o

/-- The record `o` with the members of `p`, and its index signature if it has one. -/
def extend (o p : ObjectOf τ) : ObjectOf τ :=
  let merged := o.insertAll p.members
  match p.index with
  | some i => { merged with index := some i }
  | none => merged

/-- The member names in the order of declaration. -/
def names (o : ObjectOf τ) : List String := o.members.map (·.name)

theorem find?_insert_self (o : ObjectOf τ) (m : MemberOf τ) :
    (o.insert m).find? m.name = some m := by
  unfold insert find?
  by_cases h : o.members.any (fun c => c.name == m.name)
  · simp only [h, if_true]
    generalize o.members = ms at h
    induction ms with
    | nil => simp at h
    | cons c cs ih =>
      rw [List.map_cons, List.find?_cons]
      by_cases hc : c.name = m.name
      · simp [hc]
      · have ht : cs.any (fun c => c.name == m.name) = true := by simpa [hc] using h
        have hb : (c.name == m.name) = false := by simpa using hc
        simpa only [hb, Bool.false_eq_true, if_false] using ih ht
  · have hn : o.members.find? (fun c => c.name == m.name) = none := by simpa using h
    simp [h, List.find?_append, hn]

theorem find?_insert_of_ne (o : ObjectOf τ) (m : MemberOf τ) {n : String} (h : n ≠ m.name) :
    (o.insert m).find? n = o.find? n := by
  unfold insert find?
  by_cases ha : o.members.any (fun c => c.name == m.name)
  · simp only [ha, if_true]
    generalize o.members = ms
    induction ms with
    | nil => rfl
    | cons c cs ih =>
      rw [List.map_cons, List.find?_cons, List.find?_cons, ih]
      by_cases hc : c.name = m.name
      · have hb : (m.name == n) = false := by simpa using h.symm
        simp [hc, hb]
      · simp [hc]
  · simp [ha, List.find?_append, h.symm]

end ObjectOf

/-! ### Signatures -/

def typeParamNames (ps : List TypeParam) : List String := ps.map (·.name)

/-- How many type parameters have no default. -/
def requiredTypeParams (ps : List TypeParam) : Nat := ps.countP (·.default.isNone)

namespace FuncOf

variable {τ : Type}

/-- The number of leading parameters that a caller must supply. -/
def required (f : FuncOf τ) : Nat := (f.params.takeWhile fun p => !(p.optional || p.rest)).length

def rest? (f : FuncOf τ) : Option (ParamOf τ) := f.params.getLast?.filter (·.rest)

/-- The declared type of the argument at position `i`. -/
def paramAt? (f : FuncOf τ) (i : Nat) : Option τ :=
  match f.params[i]? with
  | some p => if p.rest then f.rest?.map (·.type) else some p.type
  | none => f.rest?.map (·.type)

def bare (f : FuncOf τ) : FuncOf τ := { f with tparams := [] }

end FuncOf

/-- The result type of a signature, `void` when none is given. -/
def FuncOf.result (f : Func) : Ty := f.ret.getD .void

end TreeCheck
