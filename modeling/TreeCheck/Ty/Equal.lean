import TreeCheck.Ty.Subst

/-!
# Equality, normal forms and substitution

Types are equal when they differ only in the order of union, intersection and record members, in
parameter names, and in the names of the type parameters of a signature.  Comparing two generic
signatures renames the parameters of one; renamed brings unions and intersections into normal
form again; and the normal form drops members that are equal.  The three notions are therefore
built together, in layers over an equality test:

* `Ty.unionWith`, `Ty.interWith`, `Ty.applyWith` — normal forms and substitution over a given test;
* `Ty.equalUpTo` — equality for nodes down to a depth, each depth using the test of the depth below;
* `Ty.equal`, `Ty.unionOf`, `Ty.interOf`, `Ty.apply` — the notions themselves, at a depth that no
  comparison of the given types reaches.
-/

namespace TreeCheck

namespace Ty

/-! ### Unions -/

mutual
/-- The members of a type after opening nested unions. -/
def flat : Ty → List Ty
  | .union ts => flatList ts
  | t => [t]

def flatList : List Ty → List Ty
  | [] => []
  | t :: ts => t.flat ++ flatList ts
end

/-- Keep the first of several members that the test does not tell apart. -/
def distinctWith (eq : Ty → Ty → Bool) (ts : List Ty) : List Ty :=
  ts.foldl (fun kept t => if kept.any (eq · t) then kept else kept ++ [t]) []

/-- Whether a built-in type is among the members. -/
def hasPrim (p : Prim) (ts : List Ty) : Bool :=
  ts.any fun
    | .prim q => q == p
    | _ => false

/-- Whether a truth value is among the members. -/
def hasBool (b : Bool) (ts : List Ty) : Bool :=
  ts.any fun
    | .lit (.bool c) => c == b
    | _ => false

/-- Whether a member is covered by a wider built-in type among `ts`. -/
def absorbed (ts : List Ty) : Ty → Bool
  | .lit l => hasPrim l.prim ts || (l.isInteger && hasPrim .integer ts)
  | .prim .integer => hasPrim .number ts
  | _ => false

def isBoolLit : Ty → Bool
  | .lit (.bool _) => true
  | _ => false

/-- Put `boolean` in place of the first truth value and drop the others. -/
def collapseBools : List Ty → List Ty
  | [] => []
  | t :: ts => if isBoolLit t then .boolean :: ts.filter (!isBoolLit ·) else t :: collapseBools ts

/-- Drop members that a wider built-in type covers, and join `true` and `false`. -/
def absorb (ts : List Ty) : List Ty :=
  let kept := ts.filter (!absorbed ts ·)
  if hasBool true kept && hasBool false kept then collapseBools kept else kept

/-- The union of the members of a normal list. -/
def ofMembers : List Ty → Ty
  | [] => .never
  | [t] => t
  | ts => .union ts

/-- The normal form of the union of `ts` under an equality test. -/
def unionWith (eq : Ty → Ty → Bool) (ts : List Ty) : Ty :=
  let members := flatList ts
  if members.any isUnknown then .unknown
  else ofMembers (absorb (distinctWith eq (members.filter (!isNever ·))))

/-! ### Intersections -/

/-- The parts of a type as a member of an intersection. -/
def parts : Ty → List Ty
  | .inter ts => ts
  | t => [t]

/-- The record members of a list of types. -/
def objectsOf (ts : List Ty) : List Object :=
  ts.filterMap fun
    | .object o => some o
    | _ => none

def isObject : Ty → Bool
  | .object _ => true
  | _ => false

/-- Merge a member into a record: a member of the same name contributes its type by `meet`, keeps
the member required if either is, and readonly if either is. -/
def mergeMember (meet : Ty → Ty → Ty) (o : Object) (m : Member) : Object :=
  match o.find? m.name with
  | some e =>
    o.insert
      { m with
        type := meet e.type m.type
        optional := e.optional && m.optional
        readonly := e.readonly || m.readonly }
  | none => o.insert m

/-- Merge two records; the first index signature is kept. -/
def mergeObject (meet : Ty → Ty → Ty) (o p : Object) : Object :=
  let merged := p.members.foldl (mergeMember meet) o
  { merged with index := merged.index.or p.index }

/-- The records of an intersection merged into one, if there are any. -/
def mergeObjects (meet : Ty → Ty → Ty) : List Object → Option Object
  | [] => none
  | o :: os => some (os.foldl (mergeObject meet) o)

/-- The intersection of the members of a normal list. -/
def ofParts : List Ty → Ty
  | [] => .unknown
  | [t] => t
  | ts => .inter ts

/-- The normal form of the intersection of `ts` under an equality test: `never` absorbs all,
`unknown` is dropped, and records are merged into one that stands first.  Member types are met
at most `n` levels deep. -/
def interWith (eq : Ty → Ty → Bool) : Nat → List Ty → Ty
  | 0, ts => .inter ts
  | n + 1, ts =>
    let members := ts.flatMap parts
    if members.any isNever then .never
    else
      let merged := mergeObjects (fun a b => interWith eq n [a, b]) (objectsOf members)
      let rest := distinctWith eq (members.filter fun t => !(t.isObject || t.isUnknown))
      ofParts (merged.toList.map .object ++ rest)

/-! ### Substitution -/

mutual
/-- Replace type variables, with normal forms under an equality test.  The type parameters of a
signature shadow bindings of the same name. -/
def applyWith (eq : Ty → Ty → Bool) : Subst → Ty → Ty
  | _, .prim p => .prim p
  | _, .lit l => .lit l
  | s, .array e => .array (applyWith eq s e)
  | s, .tuple es => .tuple (applyListWith eq s es)
  | s, .object o => .object ⟨applyMembersWith eq s o.members, applyIndexWith eq s o.index⟩
  | s, .func f =>
    let inner := Subst.without s (f.tparams.map (·.name))
    .func ⟨applyTypeParamsWith eq inner f.tparams, applyParamsWith eq inner f.params,
      applyOptionWith eq inner f.ret⟩
  | s, .pred x t => .pred x (applyWith eq s t)
  | s, .union ts => unionWith eq (applyListWith eq s ts)
  | s, .inter ts =>
    let ts' := applyListWith eq s ts
    interWith eq (sizeList ts' + 1) ts'
  | s, .ref n args => .ref n (applyListWith eq s args)
  | s, .tvar n => (s.get? n).getD (.tvar n)
  | _, .classRef n => .classRef n

def applyListWith (eq : Ty → Ty → Bool) : Subst → List Ty → List Ty
  | _, [] => []
  | s, t :: ts => applyWith eq s t :: applyListWith eq s ts

def applyOptionWith (eq : Ty → Ty → Bool) : Subst → Option Ty → Option Ty
  | _, none => none
  | s, some t => some (applyWith eq s t)

def applyMembersWith (eq : Ty → Ty → Bool) : Subst → List (MemberOf Ty) → List (MemberOf Ty)
  | _, [] => []
  | s, m :: ms => { m with type := applyWith eq s m.type } :: applyMembersWith eq s ms

def applyIndexWith (eq : Ty → Ty → Bool) : Subst → Option (IndexOf Ty) → Option (IndexOf Ty)
  | _, none => none
  | s, some i => some ⟨applyWith eq s i.key, applyWith eq s i.value⟩

def applyTypeParamsWith (eq : Ty → Ty → Bool) :
    Subst → List (TypeParamOf Ty) → List (TypeParamOf Ty)
  | _, [] => []
  | s, p :: ps =>
    { p with
      constraint := applyOptionWith eq s p.constraint
      default := applyOptionWith eq s p.default } :: applyTypeParamsWith eq s ps

def applyParamsWith (eq : Ty → Ty → Bool) : Subst → List (ParamOf Ty) → List (ParamOf Ty)
  | _, [] => []
  | s, p :: ps => { p with type := applyWith eq s p.type } :: applyParamsWith eq s ps
end

/-! ### Equality -/

/-- Equality of two lists, entry by entry. -/
def sameList (eq : Ty → Ty → Bool) (xs ys : List Ty) : Bool :=
  xs.length == ys.length && (xs.zip ys).all fun p => eq p.1 p.2

/-- Equality of two lists of the same length in any order: each of `xs` is among `ys`. -/
def sameSet (eq : Ty → Ty → Bool) (xs ys : List Ty) : Bool :=
  xs.length == ys.length && xs.all fun x => ys.any fun y => eq y x

def sameIndex (eq : Ty → Ty → Bool) : Option Index → Option Index → Bool
  | none, none => true
  | some i, some j => eq i.key j.key && eq i.value j.value
  | _, _ => false

/-- Equality of records, in any order of members. -/
def sameObject (eq : Ty → Ty → Bool) (a b : Object) : Bool :=
  a.members.length == b.members.length &&
    (a.members.all fun m =>
      match b.find? m.name with
      | some n =>
        n.optional == m.optional && n.readonly == m.readonly && n.static == m.static &&
          n.method == m.method && eq m.type n.type
      | none => false) &&
    sameIndex eq a.index b.index

/-- Equality of signatures.  The type parameters of `b` take the names of those of `a`. -/
def sameFunc (eq : Ty → Ty → Bool) (a b : Func) : Bool :=
  a.tparams.length == b.tparams.length && a.params.length == b.params.length &&
    let renamed : Subst :=
      (b.tparams.zip a.tparams).map fun p => (p.1.name, .tvar p.2.name)
    let params := if a.tparams.isEmpty then b.params else applyParamsWith eq renamed b.params
    let ret := if a.tparams.isEmpty then b.ret else applyOptionWith eq renamed b.ret
    ((a.params.zip params).all fun p =>
      p.1.optional == p.2.optional && p.1.rest == p.2.rest && eq p.1.type p.2.type) &&
    eq a.result (ret.getD .void)

/-- Equality of types for nodes down to the depth `n`. -/
def equalUpTo : Nat → Ty → Ty → Bool
  | 0, _, _ => false
  | n + 1, a, b =>
    match a, b with
    | .prim x, .prim y => x == y
    | .lit x, .lit y => x.same y
    | .array x, .array y => equalUpTo n x y
    | .tuple xs, .tuple ys => sameList (equalUpTo n) xs ys
    | .object x, .object y => sameObject (equalUpTo n) x y
    | .func x, .func y => sameFunc (equalUpTo n) x y
    | .pred x s, .pred y t => x == y && equalUpTo n s t
    | .union xs, .union ys => sameSet (equalUpTo n) xs ys
    | .inter xs, .inter ys => sameSet (equalUpTo n) xs ys
    | .ref x xs, .ref y ys => x == y && sameList (equalUpTo n) xs ys
    | .tvar x, .tvar y => x == y
    | .classRef x, .classRef y => x == y
    | _, _ => false

/-- A depth that no comparison of the two types reaches. -/
def depthBound (a b : Ty) : Nat := 2 * (a.size + b.size) + 2

def equal (a b : Ty) : Bool := equalUpTo (depthBound a b) a b

def equalOption : Option Ty → Option Ty → Bool
  | none, none => true
  | some a, some b => a.equal b
  | _, _ => false

/-- Whether a list holds a type equal to `t`. -/
def contains (ts : List Ty) (t : Ty) : Bool := ts.any fun x => x.equal t

/-- The normal form of a union. -/
def unionOf (ts : List Ty) : Ty := unionWith equal ts

/-- The normal form of an intersection. -/
def interOf (ts : List Ty) : Ty := interWith equal (sizeList ts + 1) ts

def apply (s : Subst) (t : Ty) : Ty := applyWith equal s t

def applyOption (s : Subst) (t : Option Ty) : Option Ty := applyOptionWith equal s t

def applyList (s : Subst) (ts : List Ty) : List Ty := applyListWith equal s ts

theorem applyListWith_eq_map (eq : Ty → Ty → Bool) (s : Subst) (ts : List Ty) :
    applyListWith eq s ts = ts.map (applyWith eq s) := by
  induction ts with
  | nil => rfl
  | cons t ts ih => rw [applyListWith, ih, List.map_cons]

theorem flatList_eq_flatMap (ts : List Ty) : flatList ts = ts.flatMap flat := by
  induction ts with
  | nil => rfl
  | cons t ts ih => rw [flatList, ih, List.flatMap_cons]

end Ty

def ObjectOf.apply (s : Subst) (o : Object) : Object :=
  ⟨Ty.applyMembersWith Ty.equal s o.members, Ty.applyIndexWith Ty.equal s o.index⟩

/-- Replace type variables in a signature; its own type parameters shadow bindings. -/
def FuncOf.apply (s : Subst) (f : Func) : Func :=
  let inner := Subst.without s (f.tparams.map (·.name))
  ⟨Ty.applyTypeParamsWith Ty.equal inner f.tparams, Ty.applyParamsWith Ty.equal inner f.params,
    Ty.applyOption inner f.ret⟩

/-- The signature at given type arguments: bindings applied, type parameters dropped. -/
def FuncOf.instantiate (f : Func) (s : Subst) : Func := FuncOf.apply s f.bare

/-- First `s`, then `s'`: bindings of `s` have `s'` applied, and those of `s'` follow for other names. -/
def Subst.compose (s s' : Subst) : Subst :=
  s.map (fun b => (b.1, b.2.apply s')) ++ s'.filter fun b => (s.get? b.1).isNone

end TreeCheck
