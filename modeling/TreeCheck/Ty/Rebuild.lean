import TreeCheck.Ty.Union

/-!
# Rebuilding types

* `Ty.rebuildM` — apply a function to every node of a type, from the leaves up, bringing unions
  and intersections into normal form again; type parameter lists are left alone;
* `Ty.replaceRef`, `Ty.renameRef` — put a type, or another name, in place of a name;
* `Ty.mentions` — whether a name is referred to anywhere.
-/

namespace TreeCheck.Ty

section
variable {m : Type → Type} [Monad m]

mutual
/-- Rebuild a type from the leaves up, with `f` applied to every rebuilt node. -/
def rebuildM (f : Ty → m Ty) : Ty → m Ty
  | .array e => do f (.array (← rebuildM f e))
  | .tuple es => do f (.tuple (← rebuildListM f es))
  | .object o => do
    let members ← rebuildMembersM f o.members
    let index ← rebuildIndexM f o.index
    f (.object ⟨members, index⟩)
  | .func g => do
    let params ← rebuildParamsM f g.params
    let ret ← rebuildOptionM f g.ret
    f (.func ⟨g.tparams, params, ret⟩)
  | .pred x t => do f (.pred x (← rebuildM f t))
  | .union ts => do f (unionOf (← rebuildListM f ts))
  | .inter ts => do f (interOf (← rebuildListM f ts))
  | .ref n args => do f (.ref n (← rebuildListM f args))
  | .prim p => f (.prim p)
  | .lit l => f (.lit l)
  | .tvar n => f (.tvar n)
  | .classRef n => f (.classRef n)

def rebuildListM (f : Ty → m Ty) : List Ty → m (List Ty)
  | [] => pure []
  | t :: ts => do
    let t' ← rebuildM f t
    return t' :: (← rebuildListM f ts)

def rebuildOptionM (f : Ty → m Ty) : Option Ty → m (Option Ty)
  | none => pure none
  | some t => do return some (← rebuildM f t)

def rebuildMembersM (f : Ty → m Ty) : List (MemberOf Ty) → m (List (MemberOf Ty))
  | [] => pure []
  | e :: es => do
    let t ← rebuildM f e.type
    return { e with type := t } :: (← rebuildMembersM f es)

def rebuildIndexM (f : Ty → m Ty) : Option (IndexOf Ty) → m (Option (IndexOf Ty))
  | none => pure none
  | some i => do
    let k ← rebuildM f i.key
    return some ⟨k, ← rebuildM f i.value⟩

def rebuildParamsM (f : Ty → m Ty) : List (ParamOf Ty) → m (List (ParamOf Ty))
  | [] => pure []
  | p :: ps => do
    let t ← rebuildM f p.type
    return { p with type := t } :: (← rebuildParamsM f ps)
end

end

/-- Rebuild a type from the leaves up. -/
def rebuild (f : Ty → Ty) (t : Ty) : Ty := Id.run (rebuildM (fun u => pure (f u)) t)

/-- Put a type in place of every reference to a name without arguments. -/
def replaceRef (t : Ty) (name : String) (new : Ty) : Ty :=
  t.rebuild fun
    | .ref n [] => if n = name then new else .ref n []
    | u => u

mutual
/-- Whether the type refers to the name anywhere but in type parameter lists. -/
def mentions (name : String) : Ty → Bool
  | .prim _ => false
  | .lit _ => false
  | .array e => mentions name e
  | .tuple es => mentionsList name es
  | .object o => mentionsMembers name o.members || mentionsIndex name o.index
  | .func f => mentionsParams name f.params || mentionsOption name f.ret
  | .pred _ t => mentions name t
  | .union ts => mentionsList name ts
  | .inter ts => mentionsList name ts
  | .ref n args => n == name || mentionsList name args
  | .tvar _ => false
  | .classRef _ => false

def mentionsList (name : String) : List Ty → Bool
  | [] => false
  | t :: ts => mentions name t || mentionsList name ts

def mentionsOption (name : String) : Option Ty → Bool
  | none => false
  | some t => mentions name t

def mentionsMembers (name : String) : List (MemberOf Ty) → Bool
  | [] => false
  | m :: ms => mentions name m.type || mentionsMembers name ms

def mentionsIndex (name : String) : Option (IndexOf Ty) → Bool
  | none => false
  | some i => mentions name i.key || mentions name i.value

def mentionsParams (name : String) : List (ParamOf Ty) → Bool
  | [] => false
  | p :: ps => mentions name p.type || mentionsParams name ps
end

/-- References to one name made references to another, with the same arguments. -/
def renameRef (t : Ty) (old new : String) : Ty :=
  if old = new ∨ !t.mentions old then t
  else
    t.rebuild fun
      | .ref n args => if n = old then .ref new args else .ref n args
      | u => u

end TreeCheck.Ty
