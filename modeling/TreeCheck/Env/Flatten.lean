import TreeCheck.Env.Resolve
import TreeCheck.Ty.Rebuild

/-!
# Flattening and validating definitions

* `Env.flatten` — a type with every alias, interface and utility replaced by its structure, all
  the way down, so that it makes sense outside the environment; classes and recursive occurrences
  stay by name;
* `Env.validateAlias` — an alias must not reach itself without passing through a record member or
  a signature.
-/

namespace TreeCheck.Env

/-- Replace named types by structure to a given depth; `active` are the names being replaced. -/
def flattenUpTo (e : Env) : Nat → List String → Ty → Query Ty
  | 0, _, _ => throw .outOfFuel
  | n + 1, active, t =>
    t.rebuildM fun
      | .ref name args =>
        match builtin? name, args with
        | some b, [] => pure b
        | _, _ =>
          if active.contains name || e.isClass name then pure (.ref name args)
          else do
            match ← (e.resolve name args).run with
            | .error _ => return .ref name args
            | .ok body => e.flattenUpTo n (name :: active) body
      | u => pure u

/-- The type with every alias, interface and utility replaced by its structure. -/
def flatten (e : Env) (t : Ty) : Query Ty := e.flattenUpTo (e.depthFor t) [] t

def flattenObject (e : Env) (o : Object) : Query Object := do
  match ← e.flatten (.object o) with
  | .object o => return o
  | _ => return o

/-- Follow aliases through a definition to a given depth.  `path` are the names on the way, and
`active` those whose definitions are being followed. -/
def walkAliasUpTo (e : Env) : Nat → List String → List String → Ty → Lookup Unit
  | 0, _, _, _ => ExceptT.lift (throw .outOfFuel)
  | n + 1, path, active, t =>
    match t with
    | .array elem => e.walkAliasUpTo n path active elem
    | .tuple ts => ts.forM (e.walkAliasUpTo n path active)
    | .union ts => ts.forM (e.walkAliasUpTo n path active)
    | .inter ts => ts.forM (e.walkAliasUpTo n path active)
    | .pred _ u => e.walkAliasUpTo n path active u
    | .ref name args =>
      if isUtility name then args.forM (e.walkAliasUpTo n path active)
      else
        match e.alias? name with
        | none => pure ()
        | some a =>
          let path := path ++ [name]
          if active.contains name then throw (.recursiveAlias (path.headD name) path)
          else do
            let body ←
              if args.isEmpty then pure a.body
              else do
                match ← ExceptT.lift (bindNamed name a.params args).run with
                | .ok s => pure (a.body.apply s)
                | .error _ => pure a.body
            e.walkAliasUpTo n path (name :: active) body
    | _ => pure ()

/-- Whether an alias is a definition: it must not reach itself but through a record member or a
signature. -/
def validateAlias (e : Env) (name : String) : Lookup Unit :=
  match e.alias? name with
  | none => throw (.unknownType name)
  | some a => e.walkAliasUpTo (e.depthFor a.body) [name] [name] a.body

end TreeCheck.Env
