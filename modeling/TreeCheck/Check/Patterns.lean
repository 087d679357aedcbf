import TreeCheck.Check.Types
import TreeCheck.Flow.Match

/-!
# Names bound by patterns

* `bindPattern` — declares the names of a pattern that takes a value of a type apart;
* `checkPatternValues` — checks the constants inside a pattern;
* `narrowedBy`, `leftOverBy` — the values that a pattern matches, and those that it leaves over.
-/

namespace TreeCheck.Check

/-- A property across the members of a union; members without it give `nil`. -/
def unionProperty (t : Ty) (name : String) : Check Ty := do
  let parts ← t.members.mapM fun m => do
    match ← structural m with
    | .object o => return ((o.find? name).map (·.type)).getD .nil
    | _ => return .nil
  return Ty.unionOf parts

/-- The type of a field of a value whose structure is `s`; `whole` is the type in reports. -/
def fieldType (s whole : Ty) (span : Span) (key : String) : Check Ty := do
  match s with
  | .object o =>
    match o.find? key, o.index with
    | some m, _ => return m.readType
    | none, some i => return i.value.nullable
    | none, none =>
      report .unknownMember span ["property", key, "does not exist on type", quoted whole]
      return .unknown
  | _ => if s.isUnknown then return .unknown else unionProperty s key

/-- Report a value that is no record; only the members of a union are looked at one by one. -/
def expectRecord (s whole : Ty) (span : Span) : Check Unit := do
  match s with
  | .object _ => pure ()
  | .union _ => pure ()
  | _ =>
    if !s.isUnknown then
      report .typeMismatch span ["cannot destructure", quoted whole, "as an object"]

/-- What is left of a record without the named members. -/
def withoutFields (keys : List String) : Ty → Ty
  | .object o =>
    let kept := o.members.filter fun m => !keys.contains m.name
    .object (({ index := o.index } : Object).insertAll kept)
  | _ => .unknown

/-- The element types of a sequence, and the type of what follows the first `n` elements. -/
def elementsOf (n : Nat) : Ty → (Nat → Ty) × Ty
  | .array e => (fun _ => e, .array e)
  | .tuple es => (fun i => (es[i]?).getD .nil, .tuple (es.drop n))
  | _ => (fun _ => .unknown, .array .unknown)

/-- Report a value that is no sequence, or a tuple that is too short for `n` elements. -/
def expectSequence (n : Nat) (s whole : Ty) (span : Span) : Check Unit := do
  match s with
  | .array _ => pure ()
  | .tuple es =>
    if es.length < n then
      report .typeMismatch span
        ["tuple", quoted whole, "has", toString es.length, "elements, pattern needs", toString n]
  | _ =>
    if !s.isUnknown then
      report .typeMismatch span ["cannot destructure", quoted whole, "as an array"]

/-- The type of a name that is bound with an annotation: the value's own type if it fits. -/
def typedBinding (span : Span) (target t : Ty) : Check Ty := do
  let fits ← assignable t target
  if !target.isUnknown && !t.isNever && !fits then
    if !(← assignable target t) then
      report .typeMismatch span ["pattern type", quoted target, "never matches", quoted t]
  return if t.isUnknown || !fits then target else t

mutual
/-- Declare the names of a pattern that takes a value apart. -/
def bindPattern (isMutable : Bool) : Pattern → Ty → Check Unit
  | ⟨span, .ident name⟩, t => bindName name t span isMutable
  | ⟨_, .typed none _⟩, _ => pure ()
  | ⟨span, .typed (some name) ty⟩, t => do
    let target ← buildOrUnknown ty
    bindName name (← typedBinding span target t) span isMutable
  | ⟨span, .object fields rest⟩, t => do
    let s ← structural t.removeNil
    expectRecord s t span
    bindFields isMutable (fieldType s t) fields
    match rest with
    | none => pure ()
    | some r => bindName r (withoutFields (fields.map (·.key)) s) span isMutable
  | ⟨span, .array elements rest⟩, t => do
    let s ← structural t.removeNil
    expectSequence elements.length s t span
    let (elemAt, restType) := elementsOf elements.length s
    bindElements isMutable elemAt 0 elements
    match rest with
    | none => pure ()
    | some r => bindName r restType span isMutable
  | ⟨_, .wildcard⟩, _ => pure ()
  | ⟨_, .literal _⟩, _ => pure ()
  | ⟨_, .bad⟩, _ => pure ()

def bindFields (isMutable : Bool) (typeOf : Span → String → Check Ty) :
    List PatternField → Check Unit
  | [] => pure ()
  | ⟨span, key, value⟩ :: fs => do
    let t ← typeOf span key
    bindField isMutable span key value t
    bindFields isMutable typeOf fs

/-- Declare the names of one field; without a pattern the key itself is the name. -/
def bindField (isMutable : Bool) (span : Span) (key : String) : Option Pattern → Ty → Check Unit
  | none, t => bindName key t span isMutable
  | some p, t => bindPattern isMutable p t

/-- Declare the names of elements, from position `i` on. -/
def bindElements (isMutable : Bool) (elemAt : Nat → Ty) : Nat → List Pattern → Check Unit
  | _, [] => pure ()
  | i, p :: ps => do
    bindPattern isMutable p (elemAt i)
    bindElements isMutable elemAt (i + 1) ps
end

mutual
def checkPatternValues (c : Checker) : Pattern → Check Unit
  | ⟨_, .literal e⟩ => do
    let _ ← c.expr e none
  | ⟨_, .object fields _⟩ => checkFieldValues c fields
  | ⟨_, .array ps _⟩ => checkElementValues c ps
  | ⟨_, .ident _⟩ => pure ()
  | ⟨_, .typed _ _⟩ => pure ()
  | ⟨_, .wildcard⟩ => pure ()
  | ⟨_, .bad⟩ => pure ()

def checkFieldValues (c : Checker) : List PatternField → Check Unit
  | [] => pure ()
  | ⟨_, _, value⟩ :: fs => do
    checkFieldValue c value
    checkFieldValues c fs

def checkFieldValue (c : Checker) : Option Pattern → Check Unit
  | none => pure ()
  | some p => checkPatternValues c p

def checkElementValues (c : Checker) : List Pattern → Check Unit
  | [] => pure ()
  | p :: ps => do
    checkPatternValues c p
    checkElementValues c ps
end

/-- The values of a type that a pattern may match. -/
def narrowedBy (p : Pattern) (t : Ty) : Check Ty := do
  narrowPattern buildOrUnknown (← resolver) p t

/-- The values of a type that a pattern leaves over. -/
def leftOverBy (p : Pattern) (t : Ty) : Check Ty := do
  excludePattern buildOrUnknown (← resolver) p t

end TreeCheck.Check
