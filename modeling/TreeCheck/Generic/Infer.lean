import TreeCheck.Generic.Bind

/-!
# Inferring type arguments

The types of arguments are matched against the declared parameter types, and every type that meets
a type parameter is noted.  A parameter gets the union of what was noted for it, with constants
widened unless only the constant fits its constraint; a parameter without notes gets its default,
its constraint, or `unknown`.

* `Observed` — the types noted for each parameter;
* `unifyUpTo` — matching to a given depth;
* `inferArguments` — the inferred arguments, and whether they fit the constraints.
-/

namespace TreeCheck

abbrev Observed := Assoc (List Ty)

namespace Observed

/-- Note a type for a parameter, once. -/
def note (o : Observed) (name : String) (t : Ty) : Observed :=
  let known := (o.get? name).getD []
  if known.any (·.equal t) then o else o.set name (known ++ [t])

end Observed

/-- Matching: the types noted so far, with questions about types. -/
abbrev Infer := StateT Observed Query

section
variable (go : Ty → Ty → Infer Unit)

/-- Match two lists entry by entry, as far as both go. -/
def unifyLists (formals actuals : List Ty) : Infer Unit :=
  (formals.zip actuals).forM fun p => go p.1 p.2

/-- Match records: members of the same name, and the rest against the index signature. -/
def unifyObject (f a : Object) : Infer Unit := do
  f.members.forM fun m =>
    match a.find? m.name with
    | some am => go m.type am.type
    | none => pure ()
  match f.index with
  | none => pure ()
  | some i =>
    a.members.forM fun am => if (f.find? am.name).isSome then pure () else go i.value am.type
    match a.index with
    | none => pure ()
    | some ai =>
      go i.key ai.key
      go i.value ai.value

/-- Match a union: members of the actual type that fit a part without parameters are set aside,
and the others are matched with the parts that have parameters. -/
def unifyUnion (params : List String) (r : Option Resolver) (formal : List Ty) (actual : Ty) :
    Infer Unit := do
  let generic := formal.filter (·.mentionsVar params)
  let concrete := formal.filter (!·.mentionsVar params)
  actual.members.forM fun am => do
    if ← concrete.anyM fun c => (isAssignable r am c : Query Bool) then pure ()
    else generic.forM fun g => go g am

/-- Match types whose heads are no unions and no names. -/
def unifyStructural (formal actual : Ty) : Infer Unit :=
  match formal, actual with
  | .array f, .array a => go f a
  | .array f, .tuple as => as.forM (go f)
  | .tuple fs, .tuple as => unifyLists go fs as
  | .object f, .object a => unifyObject go f a
  | .func f, .func a => do
    unifyLists go (f.params.map (·.type)) (a.params.map (·.type))
    match f.ret, a.ret with
    | some fr, some ar => go fr ar
    | _, _ => pure ()
  | .pred _ f, .pred _ a => go f a
  | .inter fs, a => fs.forM (go · a)
  | _, _ => pure ()

/-- Match a formal with an actual type by what their names stand for. -/
def unifyNamed (r : Option Resolver) (formal actual : Ty) : Infer Unit := do
  match r, actual with
  | some r, .ref an aargs =>
    let sameHead := match formal with
      | .ref fn fargs => fn == an && fargs.length == aargs.length
      | _ => false
    match sameHead, formal with
    | true, .ref _ fargs => unifyLists go fargs aargs
    | _, _ =>
      match ← (r.expand actual : Query _) with
      | some a => go formal a
      | none => pure ()
  | _, _ =>
    match formal with
    | .ref _ _ =>
      match r with
      | none => pure ()
      | some r =>
        match ← (r.expand formal : Query _) with
        | some f => go f actual
        | none => pure ()
    | _ => unifyStructural go formal actual

end

/-- Match a formal with an actual type to a given depth; `visited` are the pairs being matched. -/
def unifyUpTo (params : List String) (r : Option Resolver) :
    Nat → List String → Ty → Ty → Infer Unit
  | 0, _, _, _ => throw .outOfFuel
  | n + 1, visited, formal, actual =>
    let param? := match formal with
      | .tvar v => if params.contains v then some v else none
      | _ => none
    match param? with
    | some v => if actual.isNever then pure () else modify (·.note v actual)
    | none =>
      let key := comparisonKey formal actual
      if !formal.mentionsVar params || visited.contains key then pure ()
      else
        let go := unifyUpTo params r n (key :: visited)
        match formal, actual with
        | .union fs, _ => unifyUnion go params r fs actual
        | _, .union as => as.forM (go formal)
        | _, _ => unifyNamed go r formal actual

/-- Match formal and actual types by position; an absent type matches nothing. -/
def unifyAll (params : List String) (r : Option Resolver) :
    List (Option Ty) → List (Option Ty) → Infer Unit
  | some f :: fs, some a :: as => do
    unifyUpTo params r (4 * (f.size + a.size) + queryDepth) [] f a
    unifyAll params r fs as
  | _ :: fs, _ :: as => unifyAll params r fs as
  | _, _ => pure ()

/-- The type argument of a parameter, given what was noted and the arguments before it. -/
def inferArgument (r : Option Resolver) (observed : List Ty) (s : Subst) (p : TypeParam) :
    Query Ty := do
  if observed.isEmpty then
    return ((p.default.or p.constraint).map (·.apply s)).getD .unknown
  let raw := Ty.unionOf observed
  let wide := raw.widen
  match p.constraint with
  | none => return wide
  | some c =>
    let c := c.apply s
    if ← isAssignable r wide c then return wide
    if ← isAssignable r raw c then return raw
    return wide

/-- The arguments of the parameters in turn. -/
def inferParams (r : Option Resolver) (o : Observed) : List TypeParam → Subst → Query Subst
  | [], s => pure s
  | p :: ps, s => do
    let t ← inferArgument r ((o.get? p.name).getD []) s p
    inferParams r o ps (s ++ [(p.name, t)])

/-- Infer type arguments from formal and actual types, and check them against the constraints. -/
def inferArguments (params : List TypeParam) (formals actuals : List (Option Ty))
    (r : Option Resolver) : Query (Subst × Except ArgumentError Unit) := do
  let (_, observed) ← (unifyAll (typeParamNames params) r formals actuals).run []
  let s ← inferParams r observed params []
  return (s, ← checkConstraints r s params)

end TreeCheck
