import TreeCheck.Ty.Union

/-!
# Queries about types

Questions about types may follow definitions that never end, and they may meet an argument list
that leaves a type parameter without a type.  Such questions have no answer; the two ways in which
that happens are a `Fault`, and `Query` is the monad of questions that may meet one.

* `Fault.outOfFuel` — the depth allowed to a question was used up; it stands for a question that never
  ends, and nothing recovers from it;
* `Fault.missingDefault` — a type parameter has neither an argument nor a default;
* `Resolver` — what a question may ask about names, and how deep it may go.
-/

namespace TreeCheck

/-- Why a question about types has no answer. -/
inductive Fault where
  | missingDefault
  | outOfFuel
deriving Repr, DecidableEq, Inhabited

def Fault.message : Fault → String
  | .missingDefault => "runtime error: invalid memory address or nil pointer dereference"
  | .outOfFuel => "type query exceeded its depth"

/-- Nothing recovers from the fault: it ends the whole run, not only the statement that met it. -/
def Fault.isFatal : Fault → Bool
  | .missingDefault => false
  | .outOfFuel => true

abbrev Query := Except Fault

/-- The depth allowed to a question beyond what the size of its types asks for.  Only definitions
that expand without end reach it. -/
def queryDepth : Nat := 4000

/-- What a question about types may ask about names. -/
structure Resolver where
  /-- The structure behind a reference, or the static side of a class; `none` for a name that has
  none. -/
  expand : Ty → Query (Option Ty)
  /-- Whether a name is a class. -/
  isClass : String → Bool
  /-- Whether a class is another one or extends it, directly or not. -/
  isSubclass : String → String → Bool
  /-- The constraint of a type parameter in scope. -/
  bound : String → Option Ty
  /-- How much deeper than `queryDepth` a question may go. -/
  extra : Nat := 0

/-- The depth allowed to a question about names, beyond what the size of its types asks for. -/
def Resolver.depth (r : Resolver) : Nat := r.extra + queryDepth

end TreeCheck
