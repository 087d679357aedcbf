import TreeCheck.Env.Basic
import TreeCheck.Json.Basic
import TreeCheck.Ty.Rebuild

/-!
# Types as data values

* `Ty.ofJson?` — the type that a data value stands for: a name is a built-in type or a reference,
  and a record with one of the fields `lit`, `array`, `tuple`, `object`, `func`, `pred`, `union`,
  `inter`, `rawunion`, `rawinter`, `ref`, `tvar` and `class` is a type of that form.  Unions and
  intersections are brought into normal form unless they are raw;
* `Ty.toJson` — a type in the same form, with constants as their texts.
-/

namespace TreeCheck

/-! ### Reading -/

mutual
/-- The type of a data value, to a given depth. -/
def Ty.ofJsonUpTo : Nat → Json → Option Ty
  | 0, _ => none
  | n + 1, j =>
    let types (key : String) : List Ty := (j.listIn key).filterMap (Ty.ofJsonUpTo n)
    match j with
    | .str s => some (((Prim.ofName? s).map Ty.prim).getD (.ref s []))
    | .obj fields =>
      (["lit", "array", "tuple", "object", "func", "pred", "union", "inter", "rawunion", "rawinter",
        "ref", "tvar", "class"].find? fun k => fields.any (·.1 == k)).bind fun
      | "lit" =>
        match j.get "lit" with
        | .bool b => some (.bool b)
        | .num r => some (.num (Number.read r).toNumber)
        | .str s => some (.str s)
        | _ => none
      | "array" => some (.array ((Ty.ofJsonUpTo n (j.get "array")).getD .unknown))
      | "tuple" => some (.tuple (types "tuple"))
      | "object" => some (.object (objectOfJson n (j.get "object") (j.get "index")))
      | "func" => some (.func (funcOfJson n (j.get "func")))
      | "pred" =>
        let p := j.get "pred"
        some (.pred (p.strIn "param") ((Ty.ofJsonUpTo n (p.get "type")).getD .unknown))
      | "union" => some (Ty.unionOf (types "union"))
      | "inter" => some (Ty.interOf (types "inter"))
      | "rawunion" => some (.union (types "rawunion"))
      | "rawinter" => some (.inter (types "rawinter"))
      | "ref" => some (.ref (j.strIn "ref") (types "args"))
      | "tvar" => some (.tvar (j.strIn "tvar"))
      | "class" => some (.classRef (j.strIn "class"))
      | _ => none
    | _ => none

def memberOfJson : Nat → Json → Member
  | 0, j => { name := j.strIn "name", type := .unknown }
  | n + 1, j =>
    { name := j.strIn "name"
      type := (Ty.ofJsonUpTo n (j.get "type")).getD .unknown
      method := j.boolIn "method"
      optional := j.boolIn "optional"
      readonly := j.boolIn "readonly"
      static := j.boolIn "static" }

/-- The record of a list of members and an index signature, to a given depth. -/
def objectOfJson : Nat → Json → Json → Object
  | 0, _, _ => {}
  | n + 1, members, index =>
    { members := members.asList.map (memberOfJson n)
      index :=
        match index with
        | .obj fields =>
          let i := Json.obj fields
          some ⟨(Ty.ofJsonUpTo n (i.get "key")).getD .unknown,
            (Ty.ofJsonUpTo n (i.get "value")).getD .unknown⟩
        | _ => none }

def typeParamOfJson : Nat → Json → TypeParam
  | 0, j => { name := j.strIn "name" }
  | n + 1, j =>
    { name := j.strIn "name"
      constraint := Ty.ofJsonUpTo n (j.get "constraint")
      default := Ty.ofJsonUpTo n (j.get "default") }

def funcOfJson : Nat → Json → Func
  | 0, _ => {}
  | n + 1, j =>
    { tparams := (j.listIn "tparams").map (typeParamOfJson n)
      params := (j.listIn "params").map fun p =>
        { name := p.strIn "name"
          type := (Ty.ofJsonUpTo n (p.get "type")).getD .unknown
          optional := p.boolIn "optional"
          rest := p.boolIn "rest" }
      ret := Ty.ofJsonUpTo n (j.get "ret") }
end

def jsonDepth : Nat := 2000

def Ty.ofJson? (j : Json) : Option Ty := Ty.ofJsonUpTo jsonDepth j

/-- The type in a field, or `unknown`. -/
def Json.tyIn (j : Json) (key : String) : Ty := (Ty.ofJson? (j.get key)).getD .unknown

/-- The types in a field that is a list. -/
def Json.tysIn (j : Json) (key : String) : List Ty := (j.listIn key).filterMap Ty.ofJson?

def Json.tparamsIn (j : Json) (key : String) : List TypeParam :=
  (j.listIn key).map (typeParamOfJson jsonDepth)

def Json.membersIn (j : Json) (key : String) : List Member :=
  (j.listIn key).map (memberOfJson jsonDepth)

def Json.substIn (j : Json) (key : String) : Subst :=
  (j.listIn key).filterMap fun b => (Ty.ofJson? (b.get "type")).map fun t => (b.strIn "name", t)

def TypeRef.ofJson? (j : Json) : Option TypeRef :=
  match Ty.ofJson? j with
  | some (.ref n args) => some ⟨n, args⟩
  | some (.prim p) => some ⟨p.name, []⟩
  | _ => none

/-! ### Writing -/

mutual
def Ty.toJson : Ty → Json
  | .prim p => .str p.name
  | .lit l => .obj [("lit", .str l.text)]
  | .array e => .obj [("array", e.toJson)]
  | .tuple ts => .obj [("tuple", .arr (tysToJson ts))]
  | .object o => .obj (("object", .arr (membersToJson o.members)) :: indexToJson o.index)
  | .func f =>
    .obj [("func", .obj [("tparams", .arr (typeParamsToJson f.tparams)),
      ("params", .arr (paramsToJson f.params)), ("ret", tyOptionToJson f.ret)])]
  | .pred x t => .obj [("pred", .obj [("param", .str x), ("type", t.toJson)])]
  | .union ts => .obj [("union", .arr (tysToJson ts))]
  | .inter ts => .obj [("inter", .arr (tysToJson ts))]
  | .ref n args => .obj [("ref", .str n), ("args", .arr (tysToJson args))]
  | .tvar n => .obj [("tvar", .str n)]
  | .classRef n => .obj [("class", .str n)]

def tysToJson : List Ty → List Json
  | [] => []
  | t :: ts => t.toJson :: tysToJson ts

def tyOptionToJson : Option Ty → Json
  | none => .null
  | some t => t.toJson

def membersToJson : List (MemberOf Ty) → List Json
  | [] => []
  | m :: ms =>
    .obj ([("name", .str m.name), ("type", m.type.toJson)] ++ Json.marks [("optional", m.optional),
      ("readonly", m.readonly), ("static", m.static), ("method", m.method)]) :: membersToJson ms

/-- An index signature as a field. -/
def indexToJson : Option (IndexOf Ty) → List (String × Json)
  | none => []
  | some i => [("index", .obj [("key", i.key.toJson), ("value", i.value.toJson)])]

def typeParamsToJson : List (TypeParamOf Ty) → List Json
  | [] => []
  | p :: ps =>
    .obj [("name", .str p.name), ("constraint", tyOptionToJson p.constraint),
      ("default", tyOptionToJson p.default)] :: typeParamsToJson ps

def paramsToJson : List (ParamOf Ty) → List Json
  | [] => []
  | p :: ps =>
    .obj ([("name", .str p.name), ("type", p.type.toJson)]
      ++ Json.marks [("optional", p.optional), ("rest", p.rest)]) :: paramsToJson ps
end

def Ty.describe (t : Ty) : Json := .obj [("str", .str t.text), ("enc", t.toJson)]

def Subst.toJson (s : Subst) : Json :=
  .ofList (fun b => .obj [("name", .str b.1), ("type", b.2.toJson)]) s

def MemberOf.toJson (m : Member) : Json := (membersToJson [m]).headD .null

end TreeCheck
