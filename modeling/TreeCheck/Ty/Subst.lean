import TreeCheck.Assoc
import TreeCheck.Ty.Basic

/-!
# Substitutions and free type variables

A substitution is an ordered list of bindings from type parameter names to types; the first
binding of a name counts, and the order shows in listings of inferred arguments.

* `Subst.get?`, `Subst.bind`, `Subst.without` — substitutions as finite maps;
* `Ty.free` — the type variables of a type that no signature inside it binds, in the order of
  first occurrence.  Keys of index signatures and the constraints and defaults of type parameters
  are not searched.
-/

namespace TreeCheck

/-- Bindings of type parameter names to types. -/
abbrev Subst := List (String × Ty)

namespace Subst

/-- Pair names with types by position. -/
def ofNames (names : List String) (types : List Ty) : Subst := names.zip types

def get? (s : Subst) (name : String) : Option Ty := Assoc.get? s name

/-- Bind a name, in place of its earlier bindings or at the end. -/
def bind (s : Subst) (name : String) (t : Ty) : Subst :=
  if s.any (fun b => b.1 == name) then s.map fun b => if b.1 == name then (name, t) else b
  else s ++ [(name, t)]

def without (s : Subst) (names : List String) : Subst := s.filter fun b => !names.contains b.1

def names (s : Subst) : List String := s.map (·.1)

def types (s : Subst) : List Ty := s.map (·.2)

theorem get?_without (s : Subst) (ns : List String) (n : String) :
    (s.without ns).get? n = if n ∈ ns then none else s.get? n := by
  unfold without get?
  induction s with
  | nil => simp
  | cons b bs ih =>
    obtain ⟨k, t⟩ := b
    rw [List.filter_cons]
    by_cases hk : k ∈ ns
    · have hne : n ∉ ns → ¬ k = n := fun hn h => hn (h ▸ hk)
      by_cases hn : n ∈ ns <;> simp_all [Assoc.get?]
    · by_cases hkn : k = n <;> simp_all [Assoc.get?]

end Subst

namespace Ty

mutual
/-- The type variables of a type that no signature inside it binds, with repetitions. -/
def vars : Ty → List String
  | .prim _ => []
  | .lit _ => []
  | .array e => e.vars
  | .tuple es => varsList es
  | .object o => varsMembers o.members ++ varsIndex o.index
  | .func f =>
    (varsParams f.params ++ varsOption f.ret).filter fun v => !(f.tparams.map (·.name)).contains v
  | .pred _ t => t.vars
  | .union ts => varsList ts
  | .inter ts => varsList ts
  | .ref _ args => varsList args
  | .tvar n => [n]
  | .classRef _ => []

def varsList : List Ty → List String
  | [] => []
  | t :: ts => t.vars ++ varsList ts

def varsOption : Option Ty → List String
  | none => []
  | some t => t.vars

def varsMembers : List (MemberOf Ty) → List String
  | [] => []
  | m :: ms => m.type.vars ++ varsMembers ms

def varsIndex : Option (IndexOf Ty) → List String
  | none => []
  | some i => i.value.vars

def varsParams : List (ParamOf Ty) → List String
  | [] => []
  | p :: ps => p.type.vars ++ varsParams ps
end

/-- The free type variables of a type, each once, in the order of first occurrence. -/
def free (t : Ty) : List String := t.vars.eraseDups

/-- Whether the type has no free type variable. -/
def isClosed (t : Ty) : Bool := t.vars.isEmpty

/-- Whether one of the names is free in the type. -/
def mentionsVar (names : List String) (t : Ty) : Bool := t.vars.any names.contains

end Ty

end TreeCheck
