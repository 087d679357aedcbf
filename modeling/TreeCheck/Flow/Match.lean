import TreeCheck.Flow.Narrow
import TreeCheck.Syntax.Reference

/-!
# Patterns as guards

* `narrowPattern` — the values of a type that a pattern may match;
* `excludePattern` — the values that a pattern leaves over; a union member goes only if the pattern
  covers it completely;
* `remaining` — what the unguarded arms of a match leave over.

Building the types in annotations may have effects, so the functions work in any monad that can ask
about types.
-/

namespace TreeCheck

section
variable {m : Type → Type} [Monad m] [MonadLiftT Query m]
variable (build : Option TypeExpr → m Ty) (r : Resolver)

/-- Whether an array pattern of `n` elements, open at the end or not, may match a type. -/
def matchesLength (n : Nat) (isOpen : Bool) : Ty → Bool
  | .array _ => true
  | .tuple ts => if isOpen then decide (n ≤ ts.length) else ts.length == n
  | _ => false

mutual
/-- The values of a type that a pattern may match. -/
def narrowPattern : Pattern → Ty → m Ty
  | ⟨_, .literal e⟩, t =>
    match e.constant? with
    | some lit => monadLift (narrowTo r t lit)
    | none => pure t
  | ⟨_, .typed _ ty⟩, t => do
    let target ← build ty
    monadLift (narrowTo r t target)
  | ⟨_, .object fields _⟩, t => do
    if t.isUnknown then return t
    (← (monadLift (spread r t) : m Ty)).filterM fun u => do
      match ← (monadLift (record? r u) : m (Option Object)) with
      | some o => fieldsMatch fields o
      | none => return false
  | ⟨_, .array ps rest⟩, t => do
    if t.isUnknown then return t
    return (← (monadLift (spread r t) : m Ty)).filter (matchesLength ps.length rest.isSome)
  | ⟨_, .wildcard⟩, t => pure t
  | ⟨_, .ident _⟩, t => pure t
  | ⟨_, .bad⟩, t => pure t

/-- The values that the pattern of a field may match; a field without one matches all. -/
def narrowField : Option Pattern → Ty → m Ty
  | none, t => pure t
  | some p, t => narrowPattern p t

/-- Whether the fields of a pattern may match a record. -/
def fieldsMatch : List PatternField → Object → m Bool
  | [], _ => pure true
  | ⟨_, key, value⟩ :: fs, o =>
    match o.find? key with
    | none => pure false
    | some member => do
      let t ← narrowField value member.readType
      if t.isNever then return false else fieldsMatch fs o
end

mutual
/-- The values of a type that a pattern leaves over. -/
def excludePattern : Pattern → Ty → m Ty
  | ⟨_, .literal e⟩, t =>
    match e.constant? with
    | some lit => do return (← (monadLift (spread r t) : m Ty)).without lit
    | none => pure t
  | ⟨_, .typed _ ty⟩, t => do
    let target ← build ty
    if target.isUnknown then return .never
    monadLift (remove r t target)
  | ⟨_, .object fields _⟩, t => do
    if t.isUnknown then return t
    (← (monadLift (spread r t) : m Ty)).filterM fun u => do
      match ← (monadLift (record? r u) : m (Option Object)) with
      | some o => return !(← fieldsCover fields o)
      | none => return true
  | ⟨_, .array ps rest⟩, t => do
    if t.isUnknown then return t
    (← (monadLift (spread r t) : m Ty)).filterM fun u => do
      match u with
      | .array _ => return !(ps.isEmpty && rest.isSome)
      | .tuple ts =>
        if decide (ts.length < ps.length) || (rest.isNone && ts.length != ps.length) then
          return true
        else return !(← elementsCover ps ts)
      | _ => return true
  | ⟨_, .wildcard⟩, _ => pure .never
  | ⟨_, .ident _⟩, _ => pure .never
  | ⟨_, .bad⟩, _ => pure .never

/-- The values that the pattern of a field leaves over; a field without one leaves none. -/
def excludeField : Option Pattern → Ty → m Ty
  | none, _ => pure .never
  | some p, t => excludePattern p t

/-- Whether the fields of a pattern cover a record completely. -/
def fieldsCover : List PatternField → Object → m Bool
  | [], _ => pure true
  | ⟨_, key, value⟩ :: fs, o =>
    match o.find? key with
    | none => pure false
    | some member => do
      let t ← excludeField value member.readType
      if t.isNever then fieldsCover fs o else return false

/-- Whether patterns cover the elements of a tuple completely. -/
def elementsCover : List Pattern → List Ty → m Bool
  | p :: ps, t :: ts => do
    let u ← excludePattern p t
    if u.isNever then elementsCover ps ts else return false
  | _, _ => pure true
end

variable {build} {r} in
/-- A pattern that takes every value leaves nothing over. -/
@[simp] theorem excludePattern_wildcard (span : Span) (t : Ty) :
    excludePattern build r ⟨span, .wildcard⟩ t = (pure .never : m Ty) := by
  rw [excludePattern]

/-- What the unguarded arms of a match leave over of its subject.  Nothing left over means that the
match is exhaustive. -/
def remaining (subject : Ty) (arms : List MatchArm) : m Ty :=
  arms.foldlM (fun t a => if a.guard.isSome then pure t else excludePattern build r a.pattern t)
    subject

end

end TreeCheck
