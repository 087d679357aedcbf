/-!
# Settings of a check

* `MatchPolicy` — how a match that leaves values unhandled is reported;
* `Options` — the settings, with the values that hold when nothing is said.
-/

namespace TreeCheck

/-- How a match that leaves values unhandled is reported. -/
inductive MatchPolicy where
  | error
  | warning
  | off
deriving Repr, DecidableEq, Inhabited

namespace MatchPolicy

def text : MatchPolicy → String
  | .error => "error"
  | .warning => "warning"
  | .off => "off"

/-- The policy that a word stands for. -/
def ofText? (s : String) : Option MatchPolicy :=
  [MatchPolicy.error, .warning, .off].find? fun p => p.text == s

theorem ofText?_text (p : MatchPolicy) : ofText? p.text = some p := by cases p <;> rfl

end MatchPolicy

/-- The settings of a check. -/
structure Options where
  /-- Keep `nil` out of types that do not name it. -/
  strictNullChecks : Bool := true
  /-- Warn about declarations whose type is not known. -/
  noImplicitUnknown : Bool := false
  /-- Compare parameters of functions in both directions. -/
  functionBivariance : Bool := false
  /-- Allow classes. -/
  enableOOP : Bool := true
  /-- Allow decorators. -/
  enableDecorators : Bool := true
  exhaustiveMatch : MatchPolicy := .error
  /-- Report warnings as errors. -/
  warningsAsErrors : Bool := false
deriving Repr, DecidableEq, Inhabited

end TreeCheck
