import TreeCheck.Env.Basic

/-!
# Utility types

The transformations that utility types stand for, on types that are already structural:

* `Utility.optional`, `Utility.required`, `Utility.readonly` — change a modifier of every member;
* `Utility.pick`, `Utility.drop`, `Utility.record`, `Utility.keyOf` — records and the names of
  their members;
* `Utility.returnType`, `Utility.parameters` — the parts of a signature.

The two that compare types, exclusion and extraction, are filters and stand where names are
resolved.
-/

namespace TreeCheck.Utility

/-- A utility was given something that is no record. -/
def notObject (utility : String) (t : Ty) : TypeError :=
  .utility utility t.text "argument must be an object type"

/-- A utility was given something that is no function. -/
def notFunction (utility : String) (t : Ty) : TypeError :=
  .utility utility t.text "argument must be a function type"

mutual
/-- Apply `f` to every member of a record, or of every record in a union; `unknown` and `nil` stay
as they are. -/
def mapMembers (utility : String) (f : Member → Member) : Ty → Except TypeError Ty
  | .object o => .ok (.object { o with members := o.members.map f })
  | .union ts => (mapMembersList utility f ts).map Ty.unionOf
  | .prim .unknown => .ok .unknown
  | .prim .nil => .ok .nil
  | t => .error (notObject utility t)

/-- Apply `f` to every member of several types. -/
def mapMembersList (utility : String) (f : Member → Member) : List Ty → Except TypeError (List Ty)
  | [] => .ok []
  | t :: ts =>
    match mapMembers utility f t with
    | .error e => .error e
    | .ok u => (mapMembersList utility f ts).map (u :: ·)
end

def optional : Ty → Except TypeError Ty := mapMembers "Partial" fun m => { m with optional := true }

/-- Every member made required, and without `nil`. -/
def required : Ty → Except TypeError Ty :=
  mapMembers "Required" fun m => { m with optional := false, type := m.type.removeNil }

def readonly : Ty → Except TypeError Ty := mapMembers "Readonly" fun m => { m with readonly := true }

/-- The names in a union of string constants, in order; `whole` is the union for the message. -/
def keysOf (utility : String) (whole : Ty) : List Ty → Except TypeError (List String)
  | [] => .ok []
  | .lit (.str s) :: ts => (keysOf utility whole ts).map (s :: ·)
  | _ => .error (.utility utility whole.text "keys must be string literal types")

/-- The distinct names in a union of string constants. -/
def keys (utility : String) (t : Ty) : Except TypeError (List String) :=
  (keysOf utility t t.members).map List.eraseDups

/-- Keep the members that are named, or drop them. -/
def filterMembers (utility : String) (keep : Bool) (t ks : Ty) : Except TypeError Ty :=
  match t with
  | .object o => do
    let names ← keys utility ks
    return .object { members := o.members.filter fun m => names.contains m.name == keep }
  | t => .error (notObject utility t)

def pick : Ty → Ty → Except TypeError Ty := filterMembers "Pick" true

def drop : Ty → Ty → Except TypeError Ty := filterMembers "Omit" false

/-- One member of type `value` for each name; a built-in key type gives an index signature. -/
def record (ks value : Ty) : Except TypeError Ty :=
  match ks with
  | .prim .string => .ok (.object { index := some ⟨ks, value⟩ })
  | .prim .number => .ok (.object { index := some ⟨ks, value⟩ })
  | .prim .integer => .ok (.object { index := some ⟨ks, value⟩ })
  | _ => do
    let names ← keys "Record" ks
    return .object { members := names.map fun n => { name := n, type := value } }

/-- The result type of a function. -/
def returnType : Ty → Except TypeError Ty
  | .func f => .ok f.result
  | t => .error (notFunction "ReturnType" t)

/-- The parameters of a function as a tuple; a rest parameter is an array. -/
def parameters : Ty → Except TypeError Ty
  | .func f =>
    .ok (.tuple (f.params.map fun p =>
      if p.rest then .array p.type else if p.optional then p.type.nullable else p.type))
  | t => .error (notFunction "Parameters" t)

/-- The names of a record's members as a union of constants, with the key of its index. -/
def keyOf : Ty → Except TypeError Ty
  | .object o =>
    .ok (Ty.unionOf (o.members.map (fun m => .str m.name) ++ (o.index.map (·.key)).toList))
  | t => .error (notObject "KeyOf" t)

/-- The utilities that look at nothing but their arguments. -/
def structural? (name : String) (args : List Ty) : Option (Except TypeError Ty) :=
  match name, args with
  | "Partial", [t] => some (optional t)
  | "Required", [t] => some (required t)
  | "Readonly", [t] => some (readonly t)
  | "Pick", [t, k] => some (pick t k)
  | "Omit", [t, k] => some (drop t k)
  | "Record", [k, v] => some (record k v)
  | "NonNilable", [t] => some (.ok t.removeNil)
  | "Nilable", [t] => some (.ok t.nullable)
  | "ReturnType", [t] => some (returnType t)
  | "Parameters", [t] => some (parameters t)
  | "KeyOf", [t] => some (keyOf t)
  | _, _ => none

end TreeCheck.Utility
